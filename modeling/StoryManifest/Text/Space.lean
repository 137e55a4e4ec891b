/-!
Whitespace in the sense of the Unicode property White_Space, and text without it at either end.
-/

namespace StoryManifest.Text

/-- A character with the property White_Space. -/
def isSpace (c : Char) : Bool :=
  ('\t' ≤ c && c ≤ '\r') || c = ' ' || c = '\u0085' || c = '\u00A0' || c = '\u1680' ||
    ('\u2000' ≤ c && c ≤ '\u200A') || c = '\u2028' || c = '\u2029' || c = '\u202F' ||
    c = '\u205F' || c = '\u3000'

/-- The text from its first character that is no space. -/
def trimStart (cs : List Char) : List Char := cs.dropWhile isSpace

/-- The text up to its last character that is no space. -/
def trimEnd (cs : List Char) : List Char := (cs.reverse.dropWhile isSpace).reverse

/-- The text without spaces at its ends. -/
def trim (cs : List Char) : List Char := trimEnd (trimStart cs)

end StoryManifest.Text
