import StoryManifest.Number.Shortest

/-!
The numbers of a manifest: integers, printed without a point, and 64-bit reals, always printed with
a point or an exponent. The two never compare equal.
-/

namespace StoryManifest

/-- A number of a manifest. -/
inductive Number where
  | integer (value : Int)
  | real (value : Number.Binary64)
  deriving DecidableEq, Repr

namespace Number

/-- The largest magnitude up to which every integer is a 64-bit number. -/
def safeBound : Nat := Nat.pow 2 53

/-- A whole number within the safe bound counts as an integer, any other as a real. -/
def ofBinary64 (x : Binary64) : Number :=
  if x.isWhole ∧ x.truncated ≤ safeBound then
    .integer (if x.negative then -(x.truncated : Int) else x.truncated)
  else .real x

/-- The number with the opposite sign. The zero integer has no sign. -/
def negate : Number → Number
  | .integer n => .integer (-n)
  | .real x => .real x.neg

/-- The text of a number. -/
def text : Number → String
  | .integer n => toString n
  | .real x => x.text

/-- Equality of numbers, on which the two real zeros agree. -/
def same : Number → Number → Bool
  | .integer m, .integer n => m == n
  | .real x, .real y => x.sameValue y
  | _, _ => false

end Number

end StoryManifest
