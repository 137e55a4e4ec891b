import StoryManifest.Value
import StoryManifest.Text.Space

/-!
The properties of a component: a name, a type of a small fixed vocabulary, and perhaps a description
and a default value.
-/

namespace StoryManifest

/-- The types that a property may have. -/
inductive PropertyType where
  | string
  | number
  | boolean
  | object
  | null
  | unknown
  deriving DecidableEq, Repr

namespace PropertyType

/-- The name of a type. -/
def name : PropertyType → String
  | .string => "string"
  | .number => "number"
  | .boolean => "boolean"
  | .object => "object"
  | .null => "null"
  | .unknown => "unknown"

/-- The types that a declaration may name; an array counts as an object. -/
def declarable : List (String × PropertyType) :=
  [("string", .string), ("number", .number), ("boolean", .boolean), ("object", .object),
    ("array", .object), ("null", .null)]

/-- All types by their names. -/
def named : List (String × PropertyType) :=
  [("string", .string), ("number", .number), ("boolean", .boolean), ("object", .object),
    ("null", .null), ("unknown", .unknown)]

/-- The letters a to z in lower case. -/
def lowered (c : Char) : Char :=
  if 'A' ≤ c ∧ c ≤ 'Z' then Char.ofNat (c.toNat + 32) else c

/-- The type that a declaration names, whatever the case and the spaces around it. -/
def ofDeclared? (text : String) : Option PropertyType :=
  declarable.lookup (String.ofList ((Text.trim text.toList).map lowered))

/-- The type that a value has; none for a value that is not static. -/
def ofValue? : Value → Option PropertyType
  | .null => some .null
  | .bool _ => some .boolean
  | .number _ => some .number
  | .text _ => some .string
  | .list _ => some .object
  | .record _ => some .object
  | .unsupported _ => none

end PropertyType

/-- A property of a component. -/
structure Property where
  name : String
  type : PropertyType
  description : Option String
  default : Option Value
  isList : Bool
  deriving Repr

namespace Property

/-- A property of which only the name and the type are known. -/
def bare (name : String) (type : PropertyType) : Property := ⟨name, type, none, none, false⟩

/-- The property as a JSON record; what it lacks is left out. -/
def toValue (p : Property) : Value :=
  .record ([("name", .text p.name), ("type", .text p.type.name)] ++
    (p.description.map fun d => ("description", Value.text d)).toList ++
    (p.default.map fun v => ("defaultValue", v)).toList ++
    [("isList", .bool p.isList)])

/-- Equality of properties, on which the order of record keys in the default value does not count. -/
def same (p q : Property) : Bool :=
  p.name == q.name && p.type == q.type && p.description == q.description && p.isList == q.isList &&
    match p.default, q.default with
    | some v, some w => v.same w
    | none, none => true
    | _, _ => false

end Property

end StoryManifest
