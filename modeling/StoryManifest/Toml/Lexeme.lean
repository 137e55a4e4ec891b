import StoryManifest.Number.Binary64

/-!
The small pieces of a settings file: blanks and comments, quoted text in its four forms, numbers, dates
and times. A reader returns what it read with the rest of the text, or none where the piece is not well
formed.
-/

namespace StoryManifest.Toml

/-- Reads a piece of the text. -/
abbrev Reader (α : Type) := List Char → Option (α × List Char)

/-! ### Blanks -/

/-- A blank within a line. -/
def isBlank (c : Char) : Bool := c = ' ' || c = '\t'

/-- The rest of a line from its next piece. -/
def skipBlanks (cs : List Char) : List Char := cs.dropWhile isBlank

/-- The text after a line end, if one comes first. -/
def lineEnd? : List Char → Option (List Char)
  | '\n' :: rest => some rest
  | '\x0d' :: '\n' :: rest => some rest
  | _ => none

/-- A character that may stand within a line: a tab, or one that controls nothing. -/
def isPlain (c : Char) : Bool := c = '\t' || (' ' ≤ c && c ≠ '\x7f')

/-- The text after a comment, if one comes first. -/
def skipComment : List Char → List Char
  | '#' :: rest => rest.dropWhile isPlain
  | cs => cs

/-- The text after the end of a line that holds no more than blanks and a comment. -/
def finishLine (cs : List Char) : Option (List Char) :=
  match skipComment (skipBlanks cs) with
  | [] => some []
  | rest => lineEnd? rest

/-- The text after blanks, comments and line ends, of which there may be so many. -/
def skipLines : Nat → List Char → List Char
  | 0, cs => cs
  | n + 1, cs =>
    let cs := skipBlanks cs
    match lineEnd? (skipComment cs) with
    | some rest => skipLines n rest
    | none => cs

/-! ### Quoted text -/

/-- The value of a hexadecimal digit. -/
def hexValue? (c : Char) : Option Nat :=
  if '0' ≤ c ∧ c ≤ '9' then some (c.toNat - '0'.toNat)
  else if 'a' ≤ c ∧ c ≤ 'f' then some (c.toNat - 'a'.toNat + 10)
  else if 'A' ≤ c ∧ c ≤ 'F' then some (c.toNat - 'A'.toNat + 10)
  else none

/-- The value of so many hexadecimal digits. -/
def readHex : Nat → Nat → Reader Nat
  | 0, value, cs => some (value, cs)
  | n + 1, value, c :: cs =>
    match hexValue? c with
    | some digit => readHex n (value * 16 + digit) cs
    | none => none
  | _ + 1, _, [] => none

/-- The character of a code point. -/
def charOf? (code : Nat) : Option Char :=
  if h : code.isValidChar then some (Char.ofNatAux code h) else none

/-- The character of a code point with so many hexadecimal digits. -/
def readCode (digits : Nat) : Reader Char := fun cs =>
  match readHex digits 0 cs with
  | some (code, rest) => (charOf? code).map (·, rest)
  | none => none

/-- The character that an escape stands for, after the backslash. -/
def readEscape : Reader Char
  | 'b' :: rest => some ('\x08', rest)
  | 't' :: rest => some ('\t', rest)
  | 'n' :: rest => some ('\n', rest)
  | 'f' :: rest => some ('\x0c', rest)
  | 'r' :: rest => some ('\x0d', rest)
  | '"' :: rest => some ('"', rest)
  | '\\' :: rest => some ('\\', rest)
  | 'u' :: rest => readCode 4 rest
  | 'U' :: rest => readCode 8 rest
  | _ => none

/-- Text on one line up to its closing quote, given what was read, the last character first, and how
many characters there may be. -/
def readLineText (quote : Char) (escapes : Bool) : Nat → List Char → Reader String
  | 0, _, _ => none
  | _ + 1, _, [] => none
  | n + 1, done, c :: rest =>
    if c = quote then some (String.ofList done.reverse, rest)
    else if c = '\\' ∧ escapes then
      match readEscape rest with
      | some (c, rest) => readLineText quote escapes n (c :: done) rest
      | none => none
    else if isPlain c then readLineText quote escapes n (c :: done) rest
    else none

/-- The text after a backslash at the end of a line and all blanks and line ends that follow. -/
def skipFold (cs : List Char) : Option (List Char) :=
  (lineEnd? (skipBlanks cs)).map fun rest =>
    rest.dropWhile fun c => isBlank c || c = '\n' || c = '\x0d'

/-- Text on several lines up to its three closing quotes. One or two more quotes before these belong
to the text. -/
def readLongText (quote : Char) (escapes : Bool) : Nat → List Char → Reader String
  | 0, _, _ => none
  | _ + 1, _, [] => none
  | n + 1, done, c :: rest =>
    if c = quote then
      let quotes := min 5 (1 + (rest.takeWhile (· = quote)).length)
      if 3 ≤ quotes then
        some (String.ofList (List.replicate (quotes - 3) quote ++ done).reverse, rest.drop (quotes - 1))
      else readLongText quote escapes n (c :: done) rest
    else if c = '\\' ∧ escapes then
      match skipFold rest with
      | some rest => readLongText quote escapes n done rest
      | none =>
        match readEscape rest with
        | some (c, rest) => readLongText quote escapes n (c :: done) rest
        | none => none
    else
      match lineEnd? (c :: rest) with
      | some rest => readLongText quote escapes n ('\n' :: done) rest
      | none => if isPlain c then readLongText quote escapes n (c :: done) rest else none

/-- Text in quotes. A line end right behind three opening quotes does not count. -/
def readText : Reader String := fun cs =>
  let readLong (quote : Char) (escapes : Bool) (rest : List Char) :=
    readLongText quote escapes (rest.length + 1) [] ((lineEnd? rest).getD rest)
  match cs with
  | '"' :: '"' :: '"' :: rest => readLong '"' true rest
  | '\'' :: '\'' :: '\'' :: rest => readLong '\'' false rest
  | '"' :: rest => readLineText '"' true (rest.length + 1) [] rest
  | '\'' :: rest => readLineText '\'' false (rest.length + 1) [] rest
  | _ => none

/-! ### Numbers -/

/-- A decimal digit. -/
def isDigit (c : Char) : Bool := '0' ≤ c && c ≤ '9'

/-- Digits of a kind; a single low line may stand between two of them. -/
def readDigits (test : Char → Bool) : Nat → Reader (List Char)
  | 0, _ => none
  | _ + 1, [] => none
  | n + 1, c :: rest =>
    if test c then
      match rest with
      | '_' :: rest => (readDigits test n rest).map fun (digits, rest) => (c :: digits, rest)
      | d :: _ =>
        if test d then (readDigits test n rest).map fun (digits, rest) => (c :: digits, rest)
        else some ([c], rest)
      | [] => some ([c], [])
    else none

/-- Digits of a kind, as many as there are. -/
def digitsOf (test : Char → Bool) : Reader (List Char) := fun cs => readDigits test (cs.length + 1) cs

/-- The value of digits. -/
def valueOf (base : Nat) (digits : List Char) : Nat :=
  digits.foldl (fun n c => n * base + (hexValue? c).getD 0) 0

/-- The sign of a number: whether it is negative. -/
def readSign : List Char → Bool × List Char
  | '-' :: rest => (true, rest)
  | '+' :: rest => (false, rest)
  | cs => (false, cs)

/-- The digits of a whole number: a zero, or digits that start with no zero. -/
def readWhole : Reader (List Char) := fun cs =>
  match cs with
  | '0' :: rest => some (['0'], rest)
  | _ => digitsOf isDigit cs

/-- The largest whole number. -/
def greatest : Nat := Nat.pow 2 63 - 1

/-- A whole number in a base other than ten. -/
def readBased (base : Nat) (test : Char → Bool) (cs : List Char) : Option (List Char) :=
  match digitsOf test cs with
  | some (digits, rest) => if valueOf base digits ≤ greatest then some rest else none
  | none => none

/-- A whole number of 64 bits. -/
def skipInteger (cs : List Char) : Option (List Char) :=
  match cs with
  | '0' :: 'x' :: rest => readBased 16 (fun c => (hexValue? c).isSome) rest
  | '0' :: 'o' :: rest => readBased 8 (fun c => '0' ≤ c && c ≤ '7') rest
  | '0' :: 'b' :: rest => readBased 2 (fun c => c = '0' || c = '1') rest
  | _ =>
    let (negative, rest) := readSign cs
    match readWhole rest with
    | some (digits, rest) =>
      if valueOf 10 digits ≤ (if negative then greatest + 1 else greatest) then some rest else none
    | none => none

/-- The exponent of a number. -/
def readExponent (cs : List Char) : Option (Int × List Char) :=
  let (negative, rest) := readSign cs
  (digitsOf isDigit rest).map fun (digits, rest) =>
    let n : Int := valueOf 10 digits
    (if negative then -n else n, rest)

/-- The exponent of a number, if it has one. -/
def readExponentPart : Reader Int
  | 'e' :: rest => readExponent rest
  | 'E' :: rest => readExponent rest
  | cs => some (0, cs)

/-- The exponents that numbers are computed with. -/
def boundedExponent (e : Int) : Int := max (-100000) (min 100000 e)

/-- The number is not too large to be finite. Below zero none is. -/
def inRange (negative : Bool) (digits : List Char) (exponent : Int) : Bool :=
  negative ||
    (Number.Binary64.ofDecimal false (valueOf 10 digits) (boundedExponent exponent)).isSome

/-- The rest of a number from its point or its exponent on. -/
def skipFraction (negative : Bool) (whole : List Char) (cs : List Char) : Option (List Char) :=
  match cs with
  | '.' :: rest =>
    match digitsOf isDigit rest with
    | some (fraction, rest) =>
      match readExponentPart rest with
      | some (e, rest) =>
        if inRange negative (whole ++ fraction) (e - fraction.length) then some rest else none
      | none => none
    | none => none
  | _ =>
    match readExponentPart cs with
    | some (e, rest) => if inRange negative whole e then some rest else none
    | none => none

/-- The text after a word, if it comes first. -/
def skipWord? (word : String) (cs : List Char) : Option (List Char) :=
  if word.toList.isPrefixOf cs then some (cs.drop word.length) else none

/-- A number with a point or an exponent, or one that is not finite; none where a number is neither. -/
def skipReal (cs : List Char) : Option (Option (List Char)) :=
  let (negative, rest) := readSign cs
  match (skipWord? "inf" rest).or (skipWord? "nan" rest) with
  | some rest => some (some rest)
  | none =>
    match readWhole rest with
    | some (whole, rest) =>
      match rest with
      | '.' :: _ => some (skipFraction negative whole rest)
      | 'e' :: _ => some (skipFraction negative whole rest)
      | 'E' :: _ => some (skipFraction negative whole rest)
      | _ => none
    | none => none

/-! ### Dates and times -/

/-- The value of so many digits. -/
def readFixed (count : Nat) : Reader Nat := fun cs =>
  let digits := cs.take count
  if digits.length = count ∧ digits.all isDigit then some (valueOf 10 digits, cs.drop count) else none

/-- The value of two digits up to a bound. -/
def readPair (least greatest : Nat) : Reader Nat := fun cs =>
  match readFixed 2 cs with
  | some (n, rest) => if least ≤ n ∧ n ≤ greatest then some (n, rest) else none
  | none => none

/-- The year has a 29th of February. -/
def isLeapYear (year : Nat) : Bool := year % 4 = 0 && (year % 100 ≠ 0 || year % 400 = 0)

/-- How many days a month has. -/
def daysIn (year month : Nat) : Nat :=
  if month = 2 then if isLeapYear year then 29 else 28
  else if month ∈ [4, 6, 9, 11] then 30
  else 31

/-- A character that must come next. -/
def skipChar (c : Char) : List Char → Option (List Char)
  | d :: rest => if d = c then some rest else none
  | [] => none

/-- A date. -/
def skipDate (cs : List Char) : Option (List Char) := do
  let (year, rest) ← readFixed 4 cs
  let (month, rest) ← readPair 1 12 (← skipChar '-' rest)
  let (_, rest) ← readPair 1 (daysIn year month) (← skipChar '-' rest)
  return rest

/-- The fraction of a second, if there is one. -/
def skipSecondFraction (cs : List Char) : List Char :=
  match cs with
  | '.' :: d :: rest => if isDigit d then rest.dropWhile isDigit else cs
  | _ => cs

/-- The time of a day. -/
def skipTime (cs : List Char) : Option (List Char) := do
  let (_, rest) ← readPair 0 23 cs
  let (_, rest) ← readPair 0 59 (← skipChar ':' rest)
  let (_, rest) ← readPair 0 60 (← skipChar ':' rest)
  return skipSecondFraction rest

/-- How far a time is from the common one, if that is given. -/
def skipOffset (cs : List Char) : Option (List Char) :=
  let skipDistance (rest : List Char) : Option (List Char) := do
    let (_, rest) ← readPair 0 23 rest
    let (_, rest) ← readPair 0 59 (← skipChar ':' rest)
    return rest
  match cs with
  | 'Z' :: rest => some rest
  | 'z' :: rest => some rest
  | '+' :: rest => skipDistance rest
  | '-' :: rest => skipDistance rest
  | _ => some cs

/-- A time may follow this character of a date. -/
def startsTime (c : Char) : Bool := c = 'T' || c = 't' || c = ' '

/-- A date with a time or without, or a time alone; the outer option tells whether it is one at all. -/
def skipMoment (cs : List Char) : Option (Option (List Char)) :=
  match readFixed 4 cs with
  | some (_, '-' :: _) =>
    match skipDate cs with
    | none => some none
    | some (c :: rest) =>
      if startsTime c && (readFixed 2 rest).isSome then some ((skipTime rest).bind skipOffset)
      else some (some (c :: rest))
    | some [] => some (some [])
  | _ =>
    match readFixed 2 cs with
    | some (_, ':' :: _) => some (skipTime cs)
    | _ => none

/-- A number, a date or a time. -/
def skipScalar (cs : List Char) : Option (List Char) :=
  match skipMoment cs with
  | some outcome => outcome
  | none =>
    match skipReal cs with
    | some outcome => outcome
    | none => skipInteger cs

end StoryManifest.Toml
