import StoryManifest.Literal.Entry
import StoryManifest.Value

/-!
The value of an expression that is written out in literals. Nothing is run: any other expression
becomes a marker that names its kind.
-/

namespace StoryManifest.Literal

open Source (Node)

/-- Whether a comma stands where an element of an array is due, given whether one is due now. -/
def holeAfter : Bool → List Node → Bool
  | _, [] => false
  | due, n :: rest =>
    if n.isToken "[" then holeAfter true rest
    else if n.isToken "," then due || holeAfter true rest
    else if n.isToken "]" || n.is .comment then holeAfter due rest
    else holeAfter false rest

/-- An element of the array is left out. A comma at the end leaves none out. -/
def hasHole (n : Node) : Bool := holeAfter false n.children

/-- The value of a sign before an operand. -/
def signedNumber (n : Node) : Value :=
  match (n.child? .argument).map Node.unwrap with
  | none => .unsupported "unary_expression"
  | some argument =>
    if argument.is .number then
      match parseNumber? argument.text with
      | none => .unsupported "number"
      | some number =>
        match (n.child? .operator).map Node.text with
        | some "+" => .number number
        | some "-" => .number number.negate
        | _ => .unsupported "unary_expression"
    else .unsupported "unary_expression"

/-- The record of evaluated members, or the marker of the first member that has no name. -/
def recordFrom (fields : Fields Value) : List (Key × Value) → Value
  | [] => .record fields
  | (.named name, v) :: rest => recordFrom (fields.insert name v) rest
  | (.computed, _) :: _ => .unsupported "computed_property_name"
  | (.spread, _) :: _ => .unsupported "spread_element"

mutual

/-- The value of an expression. -/
def evaluate : Node → Value
  | ⟨.named kind, role, start, stop, text, children⟩ =>
    let n : Node := ⟨.named kind, role, start, stop, text, children⟩
    if kind.wrapsFirst then (evaluateFirst children).getD (.unsupported kind.name)
    else if kind = .typeAssertion then (evaluateLast children).getD (.unsupported kind.name)
    else
      match kind with
      | .string => .text (decodeString n)
      | .number =>
        match parseNumber? text with
        | some number => .number number
        | none => .unsupported "number"
      | .trueWord => .bool true
      | .falseWord => .bool false
      | .nullWord => .null
      | .unaryExpression => signedNumber n
      | .array => if hasHole n then .unsupported "array_hole" else .list (evaluateItems children)
      | .object => recordFrom [] (evaluateMembers children)
      | _ => .unsupported kind.name
  | n => .unsupported n.kindName

/-- The value of the first part. -/
def evaluateFirst : List Node → Option Value
  | [] => none
  | n :: rest => if n.isPart then some (evaluate n) else evaluateFirst rest

/-- The value of the last part. -/
def evaluateLast : List Node → Option Value
  | [] => none
  | n :: rest => (evaluateLast rest).or (if n.isPart then some (evaluate n) else none)

/-- The values of all parts. -/
def evaluateItems : List Node → List Value
  | [] => []
  | n :: rest => if n.isPart then evaluate n :: evaluateItems rest else evaluateItems rest

/-- The value of the child in the role of a value. -/
def evaluateRole : List Node → Option Value
  | [] => none
  | n :: rest => if n.role = some .value then some (evaluate n) else evaluateRole rest

/-- The keys and values of the members of an object literal. -/
def evaluateMembers : List Node → List (Key × Value)
  | [] => []
  | ⟨.named .pair, _, _, _, _, children⟩ :: rest =>
    match children.find? (·.role = some .key), evaluateRole children with
    | some key, some value => (propertyKey key, value) :: evaluateMembers rest
    | _, _ => evaluateMembers rest
  | n :: rest =>
    match entryOf? n with
    | some entry => (entry.key, evaluate n) :: evaluateMembers rest
    | none => evaluateMembers rest

end

end StoryManifest.Literal
