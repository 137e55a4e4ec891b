import StoryManifest.Value

/-!
Values written as JSON, on one line or with one item per line and two spaces of indentation. A value
that is not static has no JSON text.
-/

namespace StoryManifest.Json

/-- A lower-case hexadecimal digit. -/
def hexDigit (n : Nat) : Char := Nat.digitChar n

/-- One character inside quotes. Quotes, backslashes and controls are escaped, all else stands for
itself. -/
def escape (c : Char) : List Char :=
  if c = '"' then ['\\', '"']
  else if c = '\\' then ['\\', '\\']
  else if c = '\x08' then ['\\', 'b']
  else if c = '\t' then ['\\', 't']
  else if c = '\n' then ['\\', 'n']
  else if c = '\x0c' then ['\\', 'f']
  else if c = '\r' then ['\\', 'r']
  else if c.toNat < 0x20 then ['\\', 'u', '0', '0', hexDigit (c.toNat / 16), hexDigit (c.toNat % 16)]
  else [c]

/-- A text in quotes. -/
def quote (s : String) : String :=
  String.ofList ('"' :: s.toList.flatMap escape ++ ['"'])

/-- How items are separated. -/
inductive Spacing where
  | compact
  | indented
  deriving DecidableEq

/-- What stands before an item at a depth. -/
def Spacing.lead : Spacing → Nat → String
  | .compact, _ => ""
  | .indented, depth => "\n" ++ String.ofList (List.replicate (2 * depth) ' ')

/-- What stands between a key and its value. -/
def Spacing.colon : Spacing → String
  | .compact => ":"
  | .indented => ": "

/-- Items between brackets; no space inside empty brackets. -/
def bracketed (spacing : Spacing) (depth : Nat) (opening closing : String) : List String → String
  | [] => opening ++ closing
  | items =>
    opening ++ String.intercalate "," (items.map (spacing.lead (depth + 1) ++ ·)) ++
      spacing.lead depth ++ closing

mutual

/-- The text of a value that starts at a depth. -/
def write (spacing : Spacing) (depth : Nat) : Value → Option String
  | .null => some "null"
  | .bool b => some (if b then "true" else "false")
  | .number n => some n.text
  | .text s => some (quote s)
  | .list items => (writeItems spacing (depth + 1) items).map (bracketed spacing depth "[" "]")
  | .record fields =>
    (writeFields spacing (depth + 1) fields).map (bracketed spacing depth "\x7b" "\x7d")
  | .unsupported _ => none

def writeItems (spacing : Spacing) (depth : Nat) : List Value → Option (List String)
  | [] => some []
  | v :: rest => do
    let first ← write spacing depth v
    let others ← writeItems spacing depth rest
    return first :: others

def writeFields (spacing : Spacing) (depth : Nat) :
    List (String × Value) → Option (List String)
  | [] => some []
  | (k, v) :: rest => do
    let first ← write spacing depth v
    let others ← writeFields spacing depth rest
    return (quote k ++ spacing.colon ++ first) :: others

end

/-- The text of a value on one line. -/
def compact (v : Value) : Option String := write .compact 0 v

/-- The text of a value with one item per line. -/
def pretty (v : Value) : Option String := write .indented 0 v

end StoryManifest.Json
