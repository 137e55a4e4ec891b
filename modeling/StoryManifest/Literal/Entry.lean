import StoryManifest.Literal.Numeral

/-!
What stands behind the wrappers around an expression, and the members of an object literal in reading
order. Wrappers are parentheses, type annotations of values, and assertions that a value is there.
-/

namespace StoryManifest.Source

/-- Nodes of the kind wrap their first part. -/
def Kind.wrapsFirst (kind : Kind) : Bool :=
  kind = .parenthesizedExpression || kind = .asExpression || kind = .satisfiesExpression ||
    kind = .nonNullExpression

namespace Node

/-- The node stands for a part of the grammar and is no comment. -/
def isPart (n : Node) : Bool := n.isNamed && !n.is .comment

/-- The children that stand for parts of the grammar and are no comments. -/
def parts (n : Node) : List Node := n.children.filter isPart

mutual

/-- The node behind all wrappers. -/
def unwrap : Node → Node
  | ⟨.named kind, role, start, stop, text, children⟩ =>
    if kind.wrapsFirst then (unwrapFirst children).getD ⟨.named kind, role, start, stop, text, children⟩
    else if kind = .typeAssertion then
      (unwrapLast children).getD ⟨.named kind, role, start, stop, text, children⟩
    else ⟨.named kind, role, start, stop, text, children⟩
  | n => n

/-- The first part, unwrapped. -/
def unwrapFirst : List Node → Option Node
  | [] => none
  | n :: rest => if n.isPart then some (unwrap n) else unwrapFirst rest

/-- The last part, unwrapped. -/
def unwrapLast : List Node → Option Node
  | [] => none
  | n :: rest => (unwrapLast rest).or (if n.isPart then some (unwrap n) else none)

end

end Node

end StoryManifest.Source

namespace StoryManifest.Literal

open Source (Node)

/-- The key of a member of an object literal. -/
inductive Key where
  | named (name : String)
  | computed
  | spread
  deriving DecidableEq, Repr

/-- The name of a key that has one. -/
def Key.name? : Key → Option String
  | .named name => some name
  | _ => none

/-- A member of an object literal: its key and the node of its value, which is the member itself for
shorthands, methods and spreads. -/
structure Entry where
  key : Key
  value : Node
  deriving Repr

/-- The key that the node of a property name stands for. -/
def propertyKey (n : Node) : Key :=
  match n.label with
  | .named .propertyIdentifier => .named n.text
  | .named .privatePropertyIdentifier => .named n.text
  | .named .identifier => .named n.text
  | .named .string => .named (decodeString n)
  | .named .number =>
    match parseNumber? n.text with
    | some number => .named number.text
    | none => .computed
  | _ => .computed

/-- The member that a child of an object literal is, if it is one. -/
def entryOf? (n : Node) : Option Entry :=
  match n.label with
  | .named .pair =>
    match n.child? .key, n.child? .value with
    | some key, some value => some ⟨propertyKey key, value⟩
    | _, _ => none
  | .named .shorthandPropertyIdentifier => some ⟨.named n.text, n⟩
  | .named .methodDefinition => some ⟨((n.child? .name).map propertyKey).getD .computed, n⟩
  | .named .spreadElement => some ⟨.spread, n⟩
  | _ => none

/-- The members of an object literal in reading order. -/
def entries (n : Node) : List Entry := n.namedChildren.filterMap entryOf?

end StoryManifest.Literal
