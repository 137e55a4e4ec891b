import StoryManifest.Source.Cursor
import StoryManifest.Text.Utf16

/-!
The text that a string literal stands for. Its pieces are turned into UTF-16 units first, because an
escape may stand for half of a surrogate pair; halves without a partner become the replacement
character.
-/

namespace StoryManifest.Literal

open Source (Node)

/-- The value of a digit of either case, in bases up to sixteen. -/
def digitValue? (c : Char) : Option Nat :=
  if '0' ≤ c ∧ c ≤ '9' then some (c.toNat - '0'.toNat)
  else if 'a' ≤ c ∧ c ≤ 'f' then some (c.toNat - 'a'.toNat + 10)
  else if 'A' ≤ c ∧ c ≤ 'F' then some (c.toNat - 'A'.toNat + 10)
  else none

/-- The number that digits form after those that were read; none when a character is no digit of the
base. -/
def digitsFrom (base : Nat) : Nat → List Char → Option Nat
  | n, [] => some n
  | n, c :: rest =>
    match digitValue? c with
    | some d => if d < base then digitsFrom base (n * base + d) rest else none
    | none => none

/-- The number that one or more digits form. -/
def digits? (base : Nat) (cs : List Char) : Option Nat :=
  if cs = [] then none else digitsFrom base 0 cs

/-- The number that digits form, if it is below a bound. -/
def digitsBelow? (bound base : Nat) (cs : List Char) : Option Nat :=
  (digits? base cs).filter (· < bound)

/-- The unit of an escape that names it by number; a number too large has none. -/
def numberedUnit (base : Nat) (cs : List Char) : List Nat := (digitsBelow? 0x10000 base cs).toList

/-- The units of an escape that names a character by number; a number of no character has none. -/
def numberedCharacter (cs : List Char) : List Nat :=
  match digits? 16 cs with
  | some n => if n.isValidChar then Text.Utf16.unitsOf (Char.ofNat n) else []
  | none => []

/-- Escapes of one letter, with the units that they stand for. -/
def letterEscapes : List (Char × Nat) :=
  [('n', 10), ('t', 9), ('r', 13), ('b', 8), ('f', 12), ('v', 11)]

/-- The units of an escape, given the text after its backslash. -/
def escapeUnits (body : List Char) : List Nat :=
  match body with
  | [] => []
  | c :: rest =>
    match letterEscapes.lookup c with
    | some u => [u]
    | none =>
      if Source.isLineEndOrReturn c then []
      else if c = 'x' then numberedUnit 16 rest
      else if c = 'u' then
        match rest with
        | '\x7b' :: inner =>
          if inner.getLast? = some '\x7d' then numberedCharacter inner.dropLast
          else numberedUnit 16 rest
        | _ => numberedUnit 16 rest
      else if '0' ≤ c ∧ c ≤ '7' then numberedUnit 8 body
      else Text.Utf16.unitsOf c

/-- The units of a piece of a string literal. -/
def pieceUnits (n : Node) : List Nat :=
  if n.is .stringFragment then Text.Utf16.units n.text.toList
  else if n.is .escapeSequence then escapeUnits (n.text.toList.drop 1)
  else []

/-- The text that a string literal stands for. -/
def decodeString (n : Node) : String :=
  String.ofList (Text.Utf16.ofUnits (n.children.flatMap pieceUnits))

end StoryManifest.Literal
