import StoryManifest.Literal.Text
import StoryManifest.Number.Basic

/-!
The number that a numeric literal stands for. Whole numbers up to 2^53 are integers, in whatever base
and with or without a fraction they are written.
-/

namespace StoryManifest.Literal

/-- The bound of numbers in bases other than ten. -/
def wordBound : Nat := Nat.pow 2 64

/-- A lower-case letter for an upper-case one. -/
def lowered (c : Char) : Char :=
  if 'A' ≤ c ∧ c ≤ 'Z' then Char.ofNat (c.toNat + 32) else c

/-- The base that a literal starts with, and the digits after it. -/
def radix? : List Char → Option (Nat × List Char)
  | '0' :: 'x' :: rest => some (16, rest)
  | '0' :: 'o' :: rest => some (8, rest)
  | '0' :: 'b' :: rest => some (2, rest)
  | _ => none

/-- The number with an integer value. One whose nearest real exceeds 2^53 is that real. -/
def ofNatural (n : Nat) : Option Number :=
  match Number.Binary64.ofInt n with
  | none => none
  | some x =>
    if x.isWhole && x.truncated ≤ Number.safeBound then some (.integer n)
    else some (.ofBinary64 x)

/-- The exponent after its letter, with a sign or without. -/
def exponent? (cs : List Char) : Option Int :=
  match cs with
  | '-' :: rest => (digits? 10 rest).map fun n => -(n : Int)
  | '+' :: rest => (digits? 10 rest).map fun n => (n : Int)
  | _ => (digits? 10 cs).map fun n => (n : Int)

/-- The real number that a decimal literal is nearest to. -/
def decimal? (cs : List Char) : Option Number.Binary64 :=
  let whole := cs.takeWhile Char.isDigit
  let rest := cs.drop whole.length
  let fraction := match rest with
    | '.' :: more => more.takeWhile Char.isDigit
    | _ => []
  let rest := match rest with
    | '.' :: more => more.drop fraction.length
    | _ => rest
  let exponent := match rest with
    | [] => some 0
    | 'e' :: more => exponent? more
    | _ => none
  match digits? 10 (whole ++ fraction), exponent with
  | some digits, some e => Number.Binary64.ofDecimal false digits (e - fraction.length)
  | _, _ => none

/-- The number of a numeric literal; none for big integers and for numbers out of range. -/
def parseNumber? (text : String) : Option Number :=
  let cs := text.toList.filter (· ≠ '_')
  if cs.getLast? = some 'n' then none
  else
    let cs := cs.map lowered
    match radix? cs with
    | some (base, digits) => (digitsBelow? wordBound base digits).bind ofNatural
    | none => (decimal? cs).map Number.ofBinary64

end StoryManifest.Literal
