/-!
Finite binary floating-point numbers of 64 bits, as exact data: a sign, a significand below 2^53 and
a power of two. Every operation computes the exact rational result first and rounds it once, to the
nearest number and half to even, so no machine arithmetic is involved.
-/

namespace StoryManifest.Number

/-- A finite 64-bit number: `significand * 2 ^ exponent` with a sign. -/
structure Binary64 where
  negative : Bool
  significand : Nat
  exponent : Int
  deriving DecidableEq, Repr

namespace Binary64

/-- The smallest exponent of a finite number. -/
def leastExponent : Int := -1074

/-- The largest exponent of a finite number. -/
def greatestExponent : Int := 971

/-- The number of significands below which a significand uses fewer than all 53 bits. -/
def halfRange : Nat := Nat.pow 2 52

/-- The zero of a sign. -/
def zero (negative : Bool) : Binary64 := ⟨negative, 0, leastExponent⟩

/-- The same number with the opposite sign. -/
def neg (x : Binary64) : Binary64 := { x with negative := !x.negative }

/-- A number is zero, of either sign. -/
def isZero (x : Binary64) : Bool := x.significand == 0

/-- Integer quotient rounded to the nearest integer, half to even. -/
def roundDiv (num den : Nat) : Nat :=
  let q := num / den
  let twice := 2 * (num % den)
  if twice < den then q else if den < twice then q + 1 else q + q % 2

/-- The quotient `num / (den * 2 ^ e)` as numerator and denominator. -/
def scaled (num den : Nat) (e : Int) : Nat × Nat :=
  if e < 0 then (num * Nat.pow 2 e.natAbs, den) else (num, den * Nat.pow 2 e.natAbs)

/-- The exponent that gives `num / den` a significand of 53 bits, unless that is too small. -/
def exponentFor (num den : Nat) : Int :=
  let guess : Int := (num.log2 : Int) - (den.log2 : Int) - 53
  let (n, d) := scaled num den guess
  max leastExponent (if Nat.pow 2 53 ≤ n / d then guess + 1 else guess)

/-- The number nearest to `num / den`, half to even; none when it is too large to be finite. -/
def ofRatio (negative : Bool) (num den : Nat) : Option Binary64 :=
  if num = 0 then some (zero negative)
  else
    let e := exponentFor num den
    let (n, d) := scaled num den e
    let m := roundDiv n d
    let (m, e) := if m = Nat.pow 2 53 then (halfRange, e + 1) else (m, e)
    if greatestExponent < e then none else some ⟨negative, m, e⟩

/-- The number nearest to an integer. -/
def ofInt (n : Int) : Option Binary64 := ofRatio (n < 0) n.natAbs 1

/-- The number of decimal digits of a natural number, at least one. -/
def digitCount (n : Nat) : Nat := (Nat.toDigits 10 n).length

/-- The number nearest to `digits * 10 ^ exponent`; none when it is too large to be finite.
Powers far outside the finite range are settled without computing them. -/
def ofDecimal (negative : Bool) (digits : Nat) (exponent : Int) : Option Binary64 :=
  if digits = 0 then some (zero negative)
  else
    let magnitude := exponent + digitCount digits
    if 310 < magnitude then none
    else if magnitude < -326 then some (zero negative)
    else if exponent < 0 then ofRatio negative digits (Nat.pow 10 exponent.natAbs)
    else ofRatio negative (digits * Nat.pow 10 exponent.natAbs) 1

/-- The product, rounded once. -/
def mul (x y : Binary64) : Option Binary64 :=
  let (n, d) := scaled (x.significand * y.significand) 1 (-(x.exponent + y.exponent))
  ofRatio (x.negative != y.negative) n d

/-- The quotient by a nonzero number, rounded once. -/
def div (x y : Binary64) : Option Binary64 :=
  let (n, d) := scaled x.significand y.significand (y.exponent - x.exponent)
  ofRatio (x.negative != y.negative) n d

/-- The value is a whole number. -/
def isWhole (x : Binary64) : Bool :=
  0 ≤ x.exponent || x.significand % Nat.pow 2 x.exponent.natAbs == 0

/-- The magnitude without its fraction. -/
def truncated (x : Binary64) : Nat :=
  if x.exponent < 0 then x.significand / Nat.pow 2 x.exponent.natAbs
  else x.significand * Nat.pow 2 x.exponent.natAbs

/-- Numbers with the same value; the two zeros are equal. -/
def sameValue (x y : Binary64) : Bool := x == y || (x.isZero && y.isZero)

end Binary64

end StoryManifest.Number
