import StoryManifest.Source.Grammar.Pattern

/-!
Object literals and class bodies: members with names, methods among them, and the blocks that hold the
statements of a function.
-/

namespace StoryManifest.Source.Grammar

open StoryManifest.Source.Parser

/-- One statement of a list, unless the list is over. -/
def statementStep (self : Grammar) (isOver : List Char → Bool) : Parser Bool := do
  wideGap
  let cs ← rest
  if cs = [] || isOver cs then pure false
  else
    push (← self .statement)
    pure true

/-- A closing brace comes first. -/
def closesBlock (cs : List Char) : Bool := cs.head? = some '\x7d'

/-- Statements between braces. Comments up to the end of the line belong to the block. -/
def block (v : Variant) (self : Grammar) (afterOperand : Bool) : Parser Node := node .block do
  mark "\x7b"
  loop (statementStep self closesBlock)
  mark "\x7d"
  softEnd v afterOperand

/-! ### Methods -/

/-- Words that may stand before the name of a method. -/
def methodModifiers (v : Variant) : List String :=
  if v.typed then memberModifiers else ["static", "async", "get", "set"]

/-- A word is a modifier here: the name of a member, or a star, follows it. -/
def isModifier (v : Variant) (cs : List Char) : Bool :=
  let next := afterWord cs
  wordOf cs ∈ methodModifiers v && (startsName next || next.head? = some '*')

/-- Appends the modifiers of a method. In a class body a line end may follow a name that looks like
one. -/
def modifierStep (v : Variant) (inClass : Bool) : Parser Bool := do
  let cs ← ahead
  if isModifier v cs && !(inClass && endsSoon v false false (cs.drop (wordLength cs))) then
    keyword (wordOf cs)
    pure true
  else pure false

/-- Appends the rest of a method after its name. -/
def methodTail (v : Variant) (self : Grammar) : Parser Unit := do
  if v.typed then optionalMark "?"
  signature v self true
  add (block v self false)

/-- The parameters of a method come next. -/
def seesParameters (v : Variant) : Parser Bool := do
  let cs ← ahead
  return cs.head? = some '(' || (v.typed && cs.head? = some '<') ||
    (v.typed && cs.head? = some '?' && (afterTrivia (cs.drop 1)).head? = some '(') ||
    (v.typed && cs.head? = some '?' && (afterTrivia (cs.drop 1)).head? = some '<')

/-- A method of an object literal that starts with a modifier or a star. -/
def modifiedMethod (v : Variant) (self : Grammar) : Parser Node := node .methodDefinition do
  loop (modifierStep v false)
  optionalMark "*"
  field .name (propertyName self)
  methodTail v self

/-- A member that starts with its name. -/
def namedMember (v : Variant) (self : Grammar) : Parser Node := do
  let name ← propertyName self
  if ← sees ":" then
    node .pair do
      push (name.inRole .key)
      mark ":"
      field .value (inner self)
  else if ← seesParameters v then
    node .methodDefinition do
      push (name.inRole .name)
      methodTail v self
  else
    require (name.is .propertyIdentifier)
    pure { name with label := .named .shorthandPropertyIdentifier }

/-- A member of an object literal. -/
def member (v : Variant) (self : Grammar) : Parser Unit := do
  let cs ← rest
  if ← sees "..." then spreadOr self
  else if isModifier v cs || cs.head? = some '*' then push (← modifiedMethod v self)
  else push (← namedMember v self)

/-- An object literal. -/
def object (v : Variant) (self : Grammar) : Parser Node :=
  node .object (bracketed "\x7b" "\x7d" true (member v self))

/-! ### Classes -/

/-- Appends the rest of a class member after its name. -/
def classMemberTail (v : Variant) (self : Grammar) : Parser Unit := do
  if ← seesParameters v then
    if v.typed then optionalMark "?"
    signature v self true
    if ← sees "\x7b" then add (block v self false)
    else
      require v.typed
      if ← sees "," then mark "," else semicolon v false
  else
    if v.typed then
      if ← sees "?" then mark "?" else optionalMark "!"
    optionalColonType v self true
    let initialized ← seesAssign
    optionalInitializer self true
    if v.typed && (← sees ",") then mark "," else semicolon v initialized

/-- A block that runs when the class is made. -/
def seesStaticBlock : Parser Bool := do
  let cs ← ahead
  return wordOf cs = "static" && (afterWord cs).head? = some '\x7b'

/-- A member of a class. -/
def classMember (v : Variant) (self : Grammar) : Parser Node := node .clause do
  decorators v self
  if ← seesStaticBlock then
    keyword "static"
    add (block v self false)
  else
    loop (modifierStep v true)
    optionalMark "*"
    let typedIndex : Parser Unit := do
      require v.typed
      indexSignature self
      optionalColonType v self true
      if ← sees "," then mark "," else semicolon v false
    let named : Parser Unit := do
      add (propertyName self)
      classMemberTail v self
    if v.typed && (← sees "[") then orElse typedIndex named else named

/-- One member of a class body. -/
def classStep (v : Variant) (self : Grammar) : Parser Bool := do
  wideGap
  if ← sees "\x7d" then pure false
  else if ← sees ";" then
    mark ";"
    pure true
  else
    add (classMember v self)
    pure true

/-- The body of a class. -/
def classBody (v : Variant) (self : Grammar) : Parser Node := node .classBody do
  mark "\x7b"
  loop (classStep v self)
  mark "\x7d"

/-- Appends what a class extends and implements. -/
def heritage (v : Variant) (self : Grammar) : Parser Unit := do
  if ← seesWord "extends" then
    keyword "extends"
    let parent : Parser Unit :=
      add (self (.expression { beforeBody := true }))
    if v.typed then commaSeparated parent else parent
  if v.typed && (← seesWord "implements") then
    keyword "implements"
    commaSeparated (add (self (.type false false)))

/-- Appends a class from its word on. -/
def classTail (v : Variant) (self : Grammar) : Parser Unit := do
  keyword "class"
  let cs ← ahead
  if startsWord cs && wordOf cs ≠ "extends" && !(v.typed && wordOf cs = "implements") then
    field .name (word .identifier)
  optionalTypeParameters v self
  heritage v self
  add (classBody v self)

/-- A class as a value. -/
def classExpression (v : Variant) (self : Grammar) : Parser Node := node .classExpression do
  decorators v self
  classTail v self

/-! ### Functions -/

/-- Appends a function from its first word on. -/
def functionTail (v : Variant) (self : Grammar) (afterOperand : Bool) : Parser Unit := do
  optionalWord "async"
  keyword "function"
  optionalMark "*"
  if startsWord (← ahead) then field .name (word .identifier)
  signature v self false
  add (block v self afterOperand)

/-- The text after the words that open a function. -/
def afterFunctionWords (cs : List Char) : List Char :=
  if wordOf cs = "async" then afterWord (afterWord cs) else afterWord cs

/-- A function as a value. -/
def functionExpression (v : Variant) (self : Grammar) : Parser Node := do
  let kind := if (afterFunctionWords (← ahead)).head? = some '*' then Kind.generatorFunction
    else Kind.functionExpression
  node kind (functionTail v self true)

end StoryManifest.Source.Grammar
