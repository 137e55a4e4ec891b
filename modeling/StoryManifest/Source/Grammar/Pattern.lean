import StoryManifest.Source.Grammar.Type

/-!
Patterns: what stands to the left of an assignment, names a parameter, or is bound by a declaration.
-/

namespace StoryManifest.Source.Grammar

open StoryManifest.Source.Parser

/-- Expressions that can be assigned to. -/
def isTarget (v : Variant) (n : Node) : Bool :=
  n.is .identifier || n.is .memberExpression || n.is .subscriptExpression || n.is .undefinedWord ||
    (v.typed && n.is .nonNullExpression)

/-- An expression that can be assigned to. -/
def targetExpression (v : Variant) (self : Grammar) : Parser Node := do
  require ((← rest).head? ≠ some '(')
  let n ← self (.expression { level := Level.target, adopts := false })
  require (isTarget v n)
  pure n

/-- A pattern, and the value it takes by default. -/
def defaultedPattern (self : Grammar) : Parser Node := node .clause do
  add (self .pattern)
  optionalInitializer self false

/-- The rest of what a pattern takes apart. -/
def restPattern (self : Grammar) : Parser Node := node .clause do
  mark "..."
  add (self .pattern)

/-- An element of an array pattern. -/
def arrayPattern (self : Grammar) : Parser Node :=
  node .arrayPattern (bracketed "[" "]" true (add (defaultedPattern self)))

/-- A member of an object pattern. -/
def memberPattern (self : Grammar) : Parser Node := do
  if ← sees "..." then restPattern self
  else
    node .clause do
      let name ← propertyName self
      push name
      if ← sees ":" then
        mark ":"
        add (defaultedPattern self)
      else
        require (name.is .propertyIdentifier)
        optionalInitializer self false

/-- An object pattern. -/
def objectPattern (self : Grammar) : Parser Node :=
  node .objectPattern (bracketed "\x7b" "\x7d" true (add (memberPattern self)))

/-- A pattern. -/
def pattern (v : Variant) (self : Grammar) : Parser Node := do
  match ← rest with
  | '\x7b' :: _ => objectPattern self
  | '[' :: _ => arrayPattern self
  | '.' :: '.' :: '.' :: _ => restPattern self
  | _ => targetExpression v self

/-- What a declaration binds: a name or a pattern that takes a value apart. -/
def binding (self : Grammar) : Parser Node := do
  match ← rest with
  | '\x7b' :: _ => objectPattern self
  | '[' :: _ => arrayPattern self
  | _ => word .identifier

end StoryManifest.Source.Grammar
