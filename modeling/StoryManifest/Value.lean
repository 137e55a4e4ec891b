import StoryManifest.Number.Basic

/-!
The values of story metadata: JSON values, whose records keep the order of their keys, and a marker
for source that only running it could evaluate. A value is static when no marker occurs in it.
-/

namespace StoryManifest

/-- A value of story metadata. -/
inductive Value where
  | null
  | bool (value : Bool)
  | number (value : Number)
  | text (value : String)
  | list (items : List Value)
  | record (fields : List (String × Value))
  | unsupported (kind : String)
  deriving Repr, Inhabited

/-- Key and value pairs in the order of first insertion. -/
abbrev Fields (α : Type) := List (String × α)

namespace Fields

/-- A new key goes to the end; an old one keeps its place and takes the new value. -/
def insert {α : Type} (key : String) (value : α) : Fields α → Fields α
  | [] => [(key, value)]
  | (k, v) :: rest => if k = key then (k, value) :: rest else (k, v) :: insert key value rest

/-- The value of a key. -/
def find? {α : Type} (key : String) : Fields α → Option α
  | [] => none
  | (k, v) :: rest => if k = key then some v else find? key rest

end Fields

namespace Value

mutual

/-- The kind of the first node without a static value, in reading order. -/
def unsupportedKind : Value → Option String
  | .unsupported kind => some kind
  | .list items => firstUnsupportedItem items
  | .record fields => firstUnsupportedField fields
  | _ => none

def firstUnsupportedItem : List Value → Option String
  | [] => none
  | v :: rest => (unsupportedKind v).or (firstUnsupportedItem rest)

def firstUnsupportedField : List (String × Value) → Option String
  | [] => none
  | (_, v) :: rest => (unsupportedKind v).or (firstUnsupportedField rest)

end

/-- No part of the value needs source to be run. -/
def isStatic (v : Value) : Bool := v.unsupportedKind.isNone

/-- The value is a list. -/
def isList : Value → Bool
  | .list _ => true
  | _ => false

/-- The text of a text value. -/
def asText? : Value → Option String
  | .text s => some s
  | _ => none

/-- The value of a key of a record. -/
def field? (key : String) : Value → Option Value
  | .record fields => Fields.find? key fields
  | _ => none

mutual

/-- Equality of values, on which the order of record keys does not count. -/
def same : Value → Value → Bool
  | .null, .null => true
  | .bool a, .bool b => a == b
  | .number a, .number b => a.same b
  | .text a, .text b => a == b
  | .list as, .list bs => sameItems as bs
  | .record as, .record bs => as.length == bs.length && sameFields as bs
  | .unsupported a, .unsupported b => a == b
  | _, _ => false

def sameItems : List Value → List Value → Bool
  | [], [] => true
  | a :: as, b :: bs => same a b && sameItems as bs
  | _, _ => false

/-- Every field has an equal one of the same key in the other record. -/
def sameFields : List (String × Value) → List (String × Value) → Bool
  | [], _ => true
  | (k, v) :: rest, bs =>
    (match Fields.find? k bs with
      | some w => same v w
      | none => false) && sameFields rest bs

end

end Value

end StoryManifest
