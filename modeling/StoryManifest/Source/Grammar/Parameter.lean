import StoryManifest.Source.Grammar.Rule

/-!
Parameter lists, and what goes with them: type annotations, default values and decorators.
-/

namespace StoryManifest.Source.Grammar

open StoryManifest.Source.Parser

/-- An expression between brackets of some form. -/
def inner (self : Grammar) : Parser Node := self (.expression { })

/-- A type after its colon. -/
def colonType (self : Grammar) (ends : Bool) : Parser Node := node .type do
  mark ":"
  add (self (.type ends false))

/-- Appends a type annotation when one comes next. -/
def optionalColonType (v : Variant) (self : Grammar) (ends : Bool) : Parser Unit := do
  if v.typed && (← sees ":") then add (colonType self ends)

/-- An equals sign that is no other operator comes next. -/
def seesAssign : Parser Bool := do return operatorOf (← ahead) = "="

/-- Appends a default or initial value when one comes next. -/
def optionalInitializer (self : Grammar) (ends : Bool) : Parser Unit := do
  if ← seesAssign then
    mark "="
    field .value (self (.expression { ends }))

/-- An item of an argument list or of an array: a value, or several after dots. -/
def spreadOr (self : Grammar) : Parser Unit := do
  if ← sees "..." then
    add (node .spreadElement do
      mark "..."
      add (inner self))
  else add (inner self)

/-- The arguments of a call. -/
def arguments (self : Grammar) : Parser Node :=
  node .arguments (bracketed "(" ")" true (spreadOr self))

/-- An expression or a sequence in parentheses; a typed one may have an annotation. -/
def parenthesized (v : Variant) (self : Grammar) : Parser Node := node .parenthesizedExpression do
  mark "("
  add (self (.sequence false))
  optionalColonType v self false
  mark ")"

/-- Types given to a generic name. -/
def typeArguments (self : Grammar) : Parser Node :=
  node .typeArguments (bracketedSome "<" ">" (add (self (.type false false))))

/-- A decorator. -/
def decorator (v : Variant) (self : Grammar) : Parser Node := node .clause do
  mark "@"
  if v.typed && (← sees "(") then add (parenthesized v self)
  else
    add (word .identifier)
    loop do
      if ← sees "." then
        mark "."
        add (word .propertyIdentifier)
        pure true
      else pure false
    if v.typed && (← sees "<") then add (typeArguments self)
    if ← sees "(" then add (arguments self)

/-- Appends the decorators that come next. -/
def decorators (v : Variant) (self : Grammar) : Parser Unit := loop do
  wideGap
  if ← sees "@" then
    add (decorator v self)
    pure true
  else pure false

/-- Words that may stand before a parameter of a typed function. -/
def parameterModifiers : List String :=
  ["public", "private", "protected", "override", "readonly", "declare"]

/-- Appends modifiers of a parameter: words before another word or a pattern. -/
def parameterModifier : Parser Bool := do
  let cs ← ahead
  let next := afterWord cs
  if wordOf cs ∈ parameterModifiers &&
      (startsWord next || next.head? = some '\x7b' || next.head? = some '[') then
    keyword (wordOf cs)
    pure true
  else pure false

/-- One parameter of a function. -/
def parameter (v : Variant) (self : Grammar) : Parser Node := node .clause do
  if v.typed then
    decorators v self
    loop parameterModifier
  if v.typed && (← seesWord "this") then keyword "this"
  else add (self .pattern)
  if v.typed then optionalMark "?"
  optionalColonType v self false
  optionalInitializer self false

/-- The parameters of a function. -/
def parameters (v : Variant) (self : Grammar) : Parser Node :=
  node .parameters (bracketed "(" ")" false (add (parameter v self)))

/-- One type parameter. -/
def typeParameter (self : Grammar) : Parser Node := node .clause do
  if (← seesWord "const") && startsWord (afterWord (← ahead)) then keyword "const"
  add (word .identifier)
  if ← seesWord "extends" then
    keyword "extends"
    add (self (.type false false))
  if ← seesAssign then
    mark "="
    add (self (.type false false))

/-- The type parameters of a function or a type. -/
def typeParameters (self : Grammar) : Parser Node :=
  node .clause (bracketedSome "<" ">" (add (typeParameter self)))

/-- Appends type parameters when they come next. -/
def optionalTypeParameters (v : Variant) (self : Grammar) : Parser Unit := do
  if v.typed && (← sees "<") then add (typeParameters self)

/-- Appends the parameters of a function with its type parameters and its result type. -/
def signature (v : Variant) (self : Grammar) (ends : Bool) : Parser Unit := do
  optionalTypeParameters v self
  add (parameters v self)
  optionalColonType v self ends

end StoryManifest.Source.Grammar
