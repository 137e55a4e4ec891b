import StoryManifest.Source.Trivia

/-!
Tokens that are more than a fixed text: words, numbers, strings, regular expressions. Each is measured
on the characters first, by a function from the rest of the text to a length, and then read as a leaf;
length zero, or none, means that no such token starts here.
-/

namespace StoryManifest.Source

/-! ### Words -/

/-- How many hexadecimal digits come first. -/
def hexLength (cs : List Char) : Nat := (cs.takeWhile isHexDigit).length

/-- The length of an escape for a character by its number, after the backslash and the `u`. -/
def unicodeTailLength? (cs : List Char) : Option Nat :=
  match cs with
  | '\x7b' :: rest =>
    let digits := hexLength rest
    if digits ≠ 0 ∧ (rest.drop digits).head? = some '\x7d' then some (digits + 2) else none
  | _ => if 4 ≤ hexLength cs then some 4 else none

/-- The length of the next character of a word, escapes included; zero when the word is over. -/
def wordPartLength (start : Bool) : List Char → Nat
  | '\\' :: 'u' :: rest => ((unicodeTailLength? rest).map (· + 2)).getD 0
  | c :: _ => if (if start then isWordStart c else isWordPart c) then 1 else 0
  | [] => 0

/-- The length of the rest of a word, of at most so many characters. -/
def wordTailLength : Nat → List Char → Nat
  | 0, _ => 0
  | n + 1, cs =>
    match wordPartLength false cs with
    | 0 => 0
    | k => k + wordTailLength n (cs.drop k)

/-- The length of the word that starts here. -/
def wordLength (cs : List Char) : Nat :=
  match wordPartLength true cs with
  | 0 => 0
  | k => k + wordTailLength cs.length (cs.drop k)

/-- The word that starts here. -/
def wordOf (cs : List Char) : String := String.ofList (cs.take (wordLength cs))

/-- A word starts here. -/
def startsWord (cs : List Char) : Bool := wordLength cs ≠ 0

/-- The text after the word that starts here, from the next token on. -/
def afterWord (cs : List Char) : List Char := afterTrivia (cs.drop (wordLength cs))

/-! ### Numbers -/

/-- After a digit: the length of the digits that follow, each of which one underscore may precede. -/
def moreDigitsLength (digit : Char → Bool) : List Char → Nat
  | c :: rest =>
    if digit c then 1 + moreDigitsLength digit rest
    else if c = '_' && (rest.head?.map digit).getD false then 1 + moreDigitsLength digit rest
    else 0
  | [] => 0

/-- The length of digits that single underscores may separate. -/
def groupedLength (digit : Char → Bool) : List Char → Nat
  | c :: rest => if digit c then 1 + moreDigitsLength digit rest else 0
  | [] => 0

/-- A binary digit. -/
def isBinaryDigit (c : Char) : Bool := c = '0' || c = '1'

/-- An octal digit. -/
def isOctalDigit (c : Char) : Bool := '0' ≤ c && c ≤ '7'

/-- The length of a number written in a base other than ten. -/
def radixLength : List Char → Nat
  | '0' :: letter :: rest =>
    let digits :=
      if letter = 'x' || letter = 'X' then groupedLength isHexDigit rest
      else if letter = 'o' || letter = 'O' then groupedLength isOctalDigit rest
      else if letter = 'b' || letter = 'B' then groupedLength isBinaryDigit rest
      else 0
    if digits = 0 then 0 else digits + 2
  | _ => 0

/-- The length of an exponent. -/
def exponentLength : List Char → Nat
  | e :: rest =>
    if e = 'e' || e = 'E' then
      match rest with
      | sign :: more =>
        if sign = '+' || sign = '-' then
          match groupedLength isDigit more with
          | 0 => 0
          | k => k + 2
        else
          match groupedLength isDigit rest with
          | 0 => 0
          | k => k + 1
      | [] => 0
    else 0
  | [] => 0

/-- The length of digits that do not start with a zero. -/
def nonZeroLength (cs : List Char) : Nat :=
  if cs.head? = some '0' then 0 else groupedLength isDigit cs

/-- The length of digits that may stand before a point; one zero may come first. -/
def integerLength : List Char → Nat
  | '0' :: rest => 1 + nonZeroLength rest
  | cs => nonZeroLength cs

/-- The length of a number with a point or an exponent. -/
def fractionLength (cs : List Char) : Nat :=
  match cs with
  | '.' :: rest =>
    match groupedLength isDigit rest with
    | 0 => 0
    | k => 1 + k + exponentLength (rest.drop k)
  | _ =>
    match integerLength cs with
    | 0 => 0
    | k =>
      match cs.drop k with
      | '.' :: rest =>
        let digits := groupedLength isDigit rest
        k + 1 + digits + exponentLength (rest.drop digits)
      | rest =>
        match exponentLength rest with
        | 0 => 0
        | e => k + e

/-- The same length, or one more when the letter of big integers follows. -/
def withBigMark (length : Nat) (cs : List Char) : Nat :=
  if length ≠ 0 ∧ (cs.drop length).head? = some 'n' then length + 1 else length

/-- The length of the number that starts here. -/
def numberLength (cs : List Char) : Nat :=
  max (withBigMark (radixLength cs) cs)
    (max (withBigMark (groupedLength isDigit cs) cs) (fractionLength cs))

/-! ### Escapes and regular expressions -/

/-- The length of the escape that starts here with a backslash. -/
def escapeLength? : List Char → Option Nat
  | '\\' :: 'x' :: rest => if 2 ≤ hexLength (rest.take 2) then some 4 else none
  | '\\' :: 'u' :: rest => (unicodeTailLength? rest).map (· + 2)
  | '\\' :: c :: rest =>
    if isOctalDigit c then some (2 + ((rest.take 2).takeWhile isOctalDigit).length)
    else if (c = '\r' || c = '?') && (rest.head?.map isLineEnd).getD false then some 3
    else some 2
  | _ => none

/-- The length of a character class of a regular expression, after its opening bracket. -/
def regexClassLength? : List Char → Option Nat
  | ']' :: _ => some 1
  | '\\' :: c :: rest => if c = '\n' then none else (regexClassLength? rest).map (· + 2)
  | c :: rest => if c = '\n' || c = '\\' then none else (regexClassLength? rest).map (· + 1)
  | [] => none

/-- The length of the pattern of a regular expression up to its closing slash, reading at most so many
pieces. -/
def regexPatternLength? : Nat → List Char → Option Nat
  | 0, _ => none
  | n + 1, cs =>
    match cs with
    | '/' :: _ => some 0
    | '\\' :: c :: rest => if c = '\n' then none else (regexPatternLength? n rest).map (· + 2)
    | '[' :: rest =>
      match regexClassLength? rest with
      | some k => (regexPatternLength? n (rest.drop k)).map (· + (k + 1))
      | none => none
    | c :: rest => if c = '\n' || c = '\\' then none else (regexPatternLength? n rest).map (· + 1)
    | [] => none

/-- The length of the regular expression that starts here. -/
def regexLength? : List Char → Option Nat
  | '/' :: rest =>
    match regexPatternLength? (rest.length + 1) rest with
    | some 0 => none
    | some k =>
      some (k + 2 + ((rest.drop (k + 1)).takeWhile (fun c => 'a' ≤ c && c ≤ 'z')).length)
    | none => none
  | _ => none

namespace Parser

/-! ### Leaves -/

/-- Reads a word as a leaf of a kind. -/
def word (kind : Kind) : Parser Node := do
  let length := wordLength (← rest)
  require (length ≠ 0)
  take (.named kind) length

/-- Reads a name after a number sign. -/
def privateName : Parser Node := do
  match ← rest with
  | '#' :: cs =>
    require (startsWord cs)
    take (.named .privatePropertyIdentifier) (1 + wordLength cs)
  | _ => fail

/-- Reads exactly one word. -/
def keywordToken (text : String) : Parser Node := do
  require (wordOf (← rest) = text)
  take (.token text) text.length

/-- Appends exactly one word. -/
def keyword (text : String) : Parser Unit := do
  gap
  push (← keywordToken text)

/-- The word comes next. -/
def seesWord (text : String) : Parser Bool := do return wordOf (← ahead) = text

/-- Reads a number. -/
def number : Parser Node := do
  let length := numberLength (← rest)
  require (length ≠ 0)
  take (.named .number) length

/-- Reads a regular expression. -/
def regex : Parser Node := do
  match regexLength? (← rest) with
  | some length => take (.named .regex) length
  | none => fail

/-- One piece of a string between its quotes. A line end may only stand before the closing quote or a
comment. -/
def stringStep (quote : Char) : Parser Bool := do
  let cs ← rest
  match cs with
  | [] => fail
  | c :: _ =>
    if c = quote then pure false
    else if c = '\\' then
      match escapeLength? cs with
      | some length =>
        push (← take (.named .escapeSequence) length)
        pure true
      | none => fail
    else if c = '\n' || c = '\r' then gapStep false
    else
      push (← take (.named .stringFragment)
        (cs.takeWhile (fun c => c ≠ quote && c ≠ '\\' && c ≠ '\n' && c ≠ '\r')).length)
      pure true

/-- Reads a string in a kind of quotes. -/
def quoted (quote : Char) : Parser Node := node .string do
  push (← exactly (String.singleton quote))
  loop (stringStep quote)
  push (← exactly (String.singleton quote))

/-- Reads a string. -/
def string : Parser Node := do
  match ← rest with
  | '"' :: _ => quoted '"'
  | '\'' :: _ => quoted '\''
  | _ => fail

/-- How many characters of a template come before its end, an escape or an inserted expression. -/
def templateLength : List Char → Nat
  | '$' :: '\x7b' :: _ => 0
  | c :: rest => if c = '\x60' || c = '\\' then 0 else templateLength rest + 1
  | [] => 0

/-- One piece of a template, with a parser for an inserted part. -/
def templateStep (insertion : Parser Node) : Parser Bool := do
  let cs ← rest
  match cs with
  | [] => fail
  | '\x60' :: _ => pure false
  | '\\' :: _ =>
    match escapeLength? cs with
    | some length =>
      push (← take (.named .escapeSequence) length)
      pure true
    | none => fail
  | '$' :: '\x7b' :: _ =>
    push (← node .templateSubstitution do
      push (← exactly "$\x7b")
      wideGap
      push (← insertion)
      mark "\x7d")
    pure true
  | _ =>
    push (← take (.named .stringFragment) (templateLength cs))
    pure true

/-- Reads a template with a parser for its inserted parts. -/
def template (insertion : Parser Node) : Parser Node := node .templateString do
  push (← exactly "\x60")
  loop (templateStep insertion)
  push (← exactly "\x60")

end Parser

end StoryManifest.Source
