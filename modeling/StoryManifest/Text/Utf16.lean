/-!
Text as UTF-16 code units. A character outside the basic plane takes two units, a surrogate pair;
reading units back turns every unpaired surrogate into the replacement character, so only text that
came from characters survives the way back unchanged.
-/

namespace StoryManifest.Text.Utf16

/-- The character that stands for a unit no character has. -/
def replacement : Char := '\uFFFD'

/-- The units of one character. -/
def unitsOf (c : Char) : List Nat :=
  if c.toNat < 0x10000 then [c.toNat]
  else [0xD800 + (c.toNat - 0x10000) / 0x400, 0xDC00 + (c.toNat - 0x10000) % 0x400]

/-- The units of a text, in order. -/
def units : List Char → List Nat
  | [] => []
  | c :: rest => unitsOf c ++ units rest

/-- A unit that opens a surrogate pair. -/
def isHigh (u : Nat) : Bool := 0xD800 ≤ u && u < 0xDC00

/-- A unit that closes a surrogate pair. -/
def isLow (u : Nat) : Bool := 0xDC00 ≤ u && u < 0xE000

/-- The character of a surrogate pair. -/
def ofPair (high low : Nat) : Char :=
  Char.ofNat (0x10000 + (high - 0xD800) * 0x400 + (low - 0xDC00))

/-- The text that a row of units stands for; an unpaired surrogate becomes `replacement`. -/
def ofUnits : List Nat → List Char
  | [] => []
  | [u] => if isHigh u || isLow u then [replacement] else [Char.ofNat u]
  | u :: v :: rest =>
    if isHigh u then
      if isLow v then ofPair u v :: ofUnits rest else replacement :: ofUnits (v :: rest)
    else if isLow u then replacement :: ofUnits (v :: rest)
    else Char.ofNat u :: ofUnits (v :: rest)

end StoryManifest.Text.Utf16
