import StoryManifest.Source.Node

/-!
A cursor is the rest of the text with the place where it starts. Characters fall into three classes:
blanks, which separate tokens, characters that form words, and punctuation.
-/

namespace StoryManifest.Source

/-- The text from a place on. -/
structure Cursor where
  rest : List Char
  place : Place
  deriving Repr, Inhabited

namespace Place

/-- The place after a character. -/
def after (p : Place) (c : Char) : Place :=
  if c = '\n' then ⟨p.byte + c.utf8Size, p.row + 1, 0⟩
  else ⟨p.byte + c.utf8Size, p.row, p.column + c.utf8Size⟩

end Place

namespace Cursor

/-- The start of a text. -/
def ofText (text : List Char) : Cursor := ⟨text, .origin⟩

/-- The cursor after so many characters. -/
def advance : Nat → Cursor → Cursor
  | 0, c => c
  | _ + 1, ⟨[], p⟩ => ⟨[], p⟩
  | n + 1, ⟨x :: xs, p⟩ => advance n ⟨xs, p.after x⟩

/-- The later of two places. -/
def furthest (a b : Place) : Place := if a.byte < b.byte then b else a

end Cursor

/-! ### Characters -/

/-- A line end, in the widest sense. -/
def isLineEnd (c : Char) : Bool := c = '\n' || c = '\u2028' || c = '\u2029'

/-- A line end or a carriage return. -/
def isLineEndOrReturn (c : Char) : Bool := isLineEnd c || c = '\r'

/-- A blank of the basic set. -/
def isPlainBlank (c : Char) : Bool := c = ' ' || ('\t' ≤ c && c ≤ '\r')

/-- A space separator outside the basic set. -/
def isWideBlank (c : Char) : Bool :=
  c = '\u00A0' || c = '\u1680' || ('\u2000' ≤ c && c ≤ '\u200A') || c = '\u202F' || c = '\u205F' ||
    c = '\u3000'

/-- A blank that takes no room. -/
def isThinBlank (c : Char) : Bool := c = '\u200B' || c = '\u2060' || c = '\uFEFF'

/-- A character that separates tokens. -/
def isBlank (c : Char) : Bool :=
  isPlainBlank c || isWideBlank c || isThinBlank c || c = '\u2028' || c = '\u2029'

/-- A punctuation character. -/
def isPunctuation (c : Char) : Bool := c ∈ ":;\x60\"'@#.,|^&<=>+-*/\\%?!~()[]\x7b\x7d".toList

/-- A decimal digit. -/
def isDigit (c : Char) : Bool := '0' ≤ c && c ≤ '9'

/-- A hexadecimal digit of either case. -/
def isHexDigit (c : Char) : Bool := isDigit c || ('a' ≤ c && c ≤ 'f') || ('A' ≤ c && c ≤ 'F')

/-- A letter from a to z of either case. -/
def isPlainLetter (c : Char) : Bool := ('a' ≤ c && c ≤ 'z') || ('A' ≤ c && c ≤ 'Z')

/-- A character of a word after its first one. -/
def isWordPart (c : Char) : Bool := ' ' < c && !isBlank c && !isPunctuation c

/-- The first character of a word. -/
def isWordStart (c : Char) : Bool := isWordPart c && !isDigit c

end StoryManifest.Source
