import StoryManifest.Source.Grammar.Parameter

/-!
Types. Their inner structure matters to nothing but where they end, so every type is a node of one
kind.
-/

namespace StoryManifest.Source.Grammar

open StoryManifest.Source.Parser

/-- The type operator comes next, and not a longer operator that starts like it. -/
def seesJoin : Parser Bool := do
  let op := operatorOf (← ahead)
  return op = "|" || op = "&"

/-- A type may start here. -/
def startsType (cs : List Char) : Bool :=
  match cs with
  | [] => false
  | c :: _ =>
    startsWord cs || isDigit c ||
      c ∈ ['(', '[', '\x7b', '<', '"', '\'', '\x60', '-']

/-- Words after which no operand of a type operator follows. -/
def typeJoints : List String := ["is", "extends", "in", "as"]

/-- The names of a path of modules, with the types given to the last one. -/
def typePath (self : Grammar) (step : Parser Bool) : Parser Unit := do
  add (word .identifier)
  loop step
  if ← sees "<" then optional (add (typeArguments self))

/-- A further name of a path. -/
def pathStep : Parser Bool := do
  if ← sees "." then
    mark "."
    add (word .identifier)
    pure true
  else pure false

/-- A further member of a value, which may be a private or an optional one. -/
def memberStep : Parser Bool := do
  if (← sees ".") || (← sees "?.") then
    mark (if ← sees "." then "." else "?.")
    add (if ← sees "#" then privateName else word .identifier)
    pure true
  else pure false

/-- Appends the type of a value. -/
def typeQuery (self : Grammar) : Parser Unit := do
  keyword "typeof"
  if ← seesWord "import" then
    keyword "import"
    add (arguments self)
    loop memberStep
    if ← sees "<" then optional (add (typeArguments self))
  else typePath self memberStep

/-- Appends a function type: its parameters, an arrow and its result. -/
def functionType (v : Variant) (self : Grammar) (ends afterOperand : Bool) : Parser Unit := do
  optionalTypeParameters v self
  add (parameters v self)
  mark "=>"
  add (self (.type ends afterOperand))

/-- One member of a tuple type. -/
def tupleMember (self : Grammar) : Parser Unit := do
  optionalMark "..."
  orElse
    (do
      add (word .identifier)
      optionalMark "?"
      add (colonType self false))
    (do
      add (self (.type false false))
      optionalMark "?")

/-- Words that may stand before a member of an object type or of a class. -/
def memberModifiers : List String :=
  ["public", "private", "protected", "declare", "static", "override", "readonly", "abstract", "async",
    "get", "set", "accessor"]

/-- Appends a modifier: a word before the name of a member. -/
def typeMemberModifier (v : Variant) : Parser Bool := do
  let cs ← ahead
  let next := afterWord cs
  if wordOf cs ∈ memberModifiers && startsName next &&
      !endsSoon v false false (cs.drop (wordLength cs)) then
    keyword (wordOf cs)
    pure true
  else pure false

/-- Appends a name in brackets that stands for the keys of a type. -/
def indexSignature (self : Grammar) : Parser Unit := do
  mark "["
  add (word .identifier)
  if ← seesWord "in" then
    keyword "in"
    add (self (.type false false))
    if ← seesWord "as" then
      keyword "as"
      add (self (.type false false))
  else add (colonType self false)
  mark "]"
  if ← sees "+?" then mark "+?"
  else if ← sees "-?" then mark "-?"
  else optionalMark "?"

/-- The name of a member. -/
def propertyName (self : Grammar) : Parser Node := do
  match ← rest with
  | [] => fail
  | c :: more =>
    if c = '"' || c = '\'' then string
    else if isDigit c || c = '.' && (more.head?.map isDigit).getD false then number
    else if c = '[' then
      node .computedPropertyName do
        mark "["
        add (inner self)
        mark "]"
    else if c = '#' then privateName
    else word .propertyIdentifier

/-- One member of an object type. -/
def objectTypeMember (v : Variant) (self : Grammar) : Parser Node := node .clause do
  loop (typeMemberModifier v)
  let cs ← ahead
  let signed := cs.head? = some '+' || cs.head? = some '-'
  if signed then
    if cs.head? = some '+' then mark "+" else mark "-"
    keyword "readonly"
  if ← sees "[" then
    orElse
      (do
        indexSignature self
        optionalColonType v self true)
      (do
        add (propertyName self)
        optionalMark "?"
        if (← sees "(") || (← sees "<") then signature v self true
        else optionalColonType v self true)
  else if (← sees "(") || (← sees "<") then signature v self true
  else if (← seesWord "new") && ["(".toList, "<".toList].any (·.isPrefixOf (afterWord (← ahead))) then
    keyword "new"
    signature v self true
  else
    add (propertyName self)
    optionalMark "?"
    if (← sees "(") || (← sees "<") then signature v self true
    else optionalColonType v self true

/-- One member of an object type and the separator after it. -/
def objectTypeStep (v : Variant) (self : Grammar) : Parser Bool := do
  wideGap
  if (← sees "\x7d") || (← sees "|\x7d") then pure false
  else
    add (objectTypeMember v self)
    if ← sees "," then
      mark ","
      pure true
    else if ← sees ";" then
      mark ";"
      pure true
    else return endsSoon v false false (← rest)

/-- The members of an object type between braces. -/
def objectType (v : Variant) (self : Grammar) : Parser Node := node .type do
  let flow ← sees "\x7b|"
  mark (if flow then "\x7b|" else "\x7b")
  if ← sees "," then mark ","
  else optionalMark ";"
  loop (objectTypeStep v self)
  mark (if flow then "|\x7d" else "\x7d")

/-- Appends a type that starts with a word. -/
def wordType (v : Variant) (self : Grammar) (ends afterOperand : Bool) : Parser Unit := do
  let cs ← ahead
  let w := wordOf cs
  let next := afterWord cs
  let goesOn := startsType next && wordOf next ∉ typeJoints &&
    !(ends && endsSoon v afterOperand false (cs.drop (wordLength cs)))
  if w = "typeof" then typeQuery self
  else if w = "keyof" then
    keyword w
    add (self (.type ends afterOperand))
  else if w = "new" then
    keyword w
    functionType v self ends afterOperand
  else if w = "abstract" && wordOf next = "new" then
    keyword w
    keyword "new"
    functionType v self ends afterOperand
  else if w = "infer" && startsWord next then
    keyword w
    add (word .identifier)
    if ends && endsSoon v afterOperand false (← rest) then pure ()
    else if ← seesWord "extends" then
      keyword "extends"
      add (self (.type ends afterOperand))
  else if w = "readonly" && goesOn then
    keyword w
    add (self (.type ends afterOperand))
  else if (w = "unique" || w = "asserts") && goesOn && startsWord next then
    keyword w
    add (self (.type ends afterOperand))
  else typePath self pathStep

/-- Appends a type without operators. -/
def plainType (v : Variant) (self : Grammar) (ends afterOperand : Bool) : Parser Unit := do
  wideGap
  match ← rest with
  | [] => fail
  | c :: more =>
    if c = '\x7b' then add (objectType v self)
    else if c = '[' then bracketed "[" "]" false (tupleMember self)
    else if c = '(' then
      orElse (functionType v self ends afterOperand) do
        mark "("
        add (self (.type false false))
        mark ")"
    else if c = '<' then functionType v self ends afterOperand
    else if c = '"' || c = '\'' then add string
    else if c = '\x60' then add (template (self (.type false false)))
    else if c = '-' || c = '+' then
      mark (String.singleton c)
      add number
    else if c = '*' then mark "*"
    else if c = '?' then
      mark "?"
      add (self (.type ends afterOperand))
    else if isDigit c || c = '.' && (more.head?.map isDigit).getD false then add number
    else wordType v self ends afterOperand

/-- Brackets after a type: an array of it, or the type of one of its members. -/
def indexStep (v : Variant) (self : Grammar) (ends afterOperand : Bool) : Parser Bool := do
  if ends && endsSoon v afterOperand false (← rest) then pure false
  else if ← sees "[" then
    mark "["
    if !(← sees "]") then add (self (.type false false))
    mark "]"
    pure true
  else pure false

/-- Appends a type with brackets after it. -/
def indexedType (v : Variant) (self : Grammar) (ends afterOperand : Bool) : Parser Unit := do
  plainType v self ends afterOperand
  loop (indexStep v self ends afterOperand)

/-- A further part of a union or an intersection. -/
def joinStep (v : Variant) (self : Grammar) (ends afterOperand : Bool) : Parser Bool := do
  if ← seesJoin then
    if ← sees "|" then mark "|" else mark "&"
    indexedType v self ends afterOperand
    pure true
  else pure false

/-- A type. -/
def type (v : Variant) (self : Grammar) (ends afterOperand : Bool) : Parser Node := node .type do
  if ← seesJoin then
    if ← sees "|" then mark "|" else mark "&"
  indexedType v self ends afterOperand
  loop (joinStep v self ends afterOperand)
  if ends && endsSoon v afterOperand false (← rest) then pure ()
  else if ← seesWord "extends" then
    optional do
      keyword "extends"
      add (self (.type false false))
      mark "?"
      add (self (.type ends afterOperand))
      mark ":"
      add (self (.type ends afterOperand))
  else if ← seesWord "is" then
    keyword "is"
    add (self (.type ends afterOperand))

end StoryManifest.Source.Grammar
