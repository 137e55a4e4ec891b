import StoryManifest.Number.Binary64

/-!
The shortest decimal text of a 64-bit number. Every number is the rounding of a whole interval of
reals; among the decimals inside it the text shows one with the fewest digits, and of those the one
nearest to the number itself, an exact tie going to the even digit.
-/

namespace StoryManifest.Number.Binary64

/-- A positive decimal: `digits * 10 ^ exponent`. -/
structure Decimal where
  digits : Nat
  exponent : Int
  deriving DecidableEq, Repr

/-- The reals that round to a positive number, scaled to integers over one common denominator:
the number itself, the distance to each end and whether the ends still round to it. -/
structure Interval where
  middle : Nat
  below : Nat
  above : Nat
  den : Nat
  closed : Bool

/-- The rounding interval of a positive number. Its lower half is narrower where the exponent
changes. -/
def interval (x : Binary64) : Interval :=
  let narrow := x.significand == halfRange && leastExponent < x.exponent
  let (unit, den) := scaled 1 4 (-x.exponent)
  ⟨4 * x.significand * unit, if narrow then unit else 2 * unit, 2 * unit, den,
    x.significand % 2 == 0⟩

/-- The decimal `digits * 10 ^ exponent` lies in the interval. -/
def Interval.holds (i : Interval) (digits : Nat) (exponent : Int) : Bool :=
  let (n, d) :=
    if exponent < 0 then (digits * i.den, Nat.pow 10 exponent.natAbs)
    else (digits * Nat.pow 10 exponent.natAbs * i.den, 1)
  let low := (i.middle - i.below) * d
  let high := (i.middle + i.above) * d
  if i.closed then low ≤ n && n ≤ high else low < n && n < high

/-- The two neighbours of the number on the grid of multiples of `10 ^ exponent`, the first not
above it, and how twice the remainder compares with a grid step. -/
def Interval.neighbours (i : Interval) (exponent : Int) : Nat × Ordering :=
  let (n, d) :=
    if exponent < 0 then (i.middle * Nat.pow 10 exponent.natAbs, i.den)
    else (i.middle, i.den * Nat.pow 10 exponent.natAbs)
  (n / d, compare (2 * (n % d)) d)

/-- The decimal on a grid that lies in the interval and is nearest to the number, if any. -/
def Interval.onGrid (i : Interval) (exponent : Int) : Option Decimal :=
  let (low, side) := i.neighbours exponent
  let lowIn := 0 < low && i.holds low exponent
  let highIn := i.holds (low + 1) exponent
  let preferLow := side == .lt || (side == .eq && low % 2 == 0)
  if lowIn && (preferLow || !highIn) then some ⟨low, exponent⟩
  else if highIn then some ⟨low + 1, exponent⟩
  else none

/-- The first grid, from coarse to fine, that has a decimal in the interval. -/
def Interval.search (i : Interval) : Nat → Int → Option Decimal
  | 0, _ => none
  | tries + 1, exponent =>
    match i.onGrid exponent with
    | some found => some found
    | none => i.search tries (exponent - 1)

/-- An exponent above that of the first decimal digit. -/
def leadingGuess (x : Binary64) : Int :=
  let bits : Int := x.exponent + (x.significand.log2 : Int)
  bits * 30103 / 100000 + 2

/-- The digits without trailing zeros. -/
def Decimal.trim : Nat → Decimal → Decimal
  | 0, d => d
  | fuel + 1, d =>
    if d.digits ≠ 0 ∧ d.digits % 10 = 0 then trim fuel ⟨d.digits / 10, d.exponent + 1⟩ else d

/-- The shortest decimal that reads back as a positive number. -/
def shortest (x : Binary64) : Decimal :=
  match (interval x).search 24 (leadingGuess x) with
  | some d => d.trim 20
  | none => ⟨x.significand, 0⟩

/-- Where the text of a number changes from positional to exponent notation: the decimal exponent
of the first digit runs from `least` to `greatest` in positional notation. -/
structure Layout where
  least : Int
  greatest : Int

/-- Positional notation covers 0.00001 up to below 10^16. -/
def manifestLayout : Layout := ⟨-5, 15⟩

/-- The digits of an exponent, always with a sign. -/
def exponentText (e : Int) : String :=
  (if e < 0 then "-" else "+") ++ toString e.natAbs

/-- The text of a positive decimal. -/
def Decimal.text (layout : Layout) (d : Decimal) : String :=
  let ds := Nat.toDigits 10 d.digits
  let lead : Int := d.exponent + ds.length - 1
  if layout.least ≤ lead ∧ lead ≤ layout.greatest then
    if 0 ≤ d.exponent then
      String.ofList (ds ++ List.replicate d.exponent.natAbs '0') ++ ".0"
    else if 0 ≤ lead then
      let whole := lead.natAbs + 1
      String.ofList (ds.take whole) ++ "." ++ String.ofList (ds.drop whole)
    else
      "0." ++ String.ofList (List.replicate (lead.natAbs - 1) '0' ++ ds)
  else
    let mantissa :=
      match ds with
      | [] => "0"
      | [one] => String.ofList [one]
      | first :: rest => String.ofList [first] ++ "." ++ String.ofList rest
    mantissa ++ "e" ++ exponentText lead

/-- The text of a number. -/
def text (x : Binary64) : String :=
  (if x.negative then "-" else "") ++
    (if x.isZero then "0.0" else (shortest x).text manifestLayout)

end StoryManifest.Number.Binary64
