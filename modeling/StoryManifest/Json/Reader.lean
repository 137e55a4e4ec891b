import StoryManifest.Value
import StoryManifest.Text.Utf16

/-!
Reading JSON text piece by piece. A reader takes the rest of the text and either returns what it read
with the rest after it, or fails with the first fault it meets: the text is not JSON, it ends too
early, or it is JSON of the wrong shape. Nested brackets are limited to 127 levels, except inside
skipped members.
-/

namespace StoryManifest.Json

/-- Why reading failed. -/
inductive Fault where
  | notJson
  | endOfText
  | wrongShape
  deriving DecidableEq, Repr

/-- Reads a piece of the text. -/
abbrev Reader (α : Type) := List Char → Except Fault (α × List Char)

/-- How many brackets may be open at once. -/
def depthLimit : Nat := 127

/-- Blanks between tokens. -/
def isBlank (c : Char) : Bool := c = ' ' || c = '\n' || c = '\t' || c = '\r'

/-- The rest of the text from the next token. -/
def skipBlanks (cs : List Char) : List Char := cs.dropWhile isBlank

/-- The given letters of a word, in order. -/
def readWord : List Char → Reader Unit
  | [], cs => .ok ((), cs)
  | _ :: _, [] => .error .endOfText
  | w :: ws, c :: cs => if c = w then readWord ws cs else .error .notJson

/-! ### Numbers -/

/-- The largest integer that fits 64 bits. -/
def wordBound : Nat := Nat.pow 2 64 - 1

/-- A decimal digit. -/
def isDigit (c : Char) : Bool := '0' ≤ c && c ≤ '9'

/-- The value of a decimal digit. -/
def digitOf (c : Char) : Nat := c.toNat - '0'.toNat

/-- Reads digits while the number they form fits 64 bits. -/
def takeDigits (bound : Nat) : Nat → Nat → List Char → Nat × Nat × List Char
  | n, count, c :: cs =>
    if isDigit c then
      if n * 10 + digitOf c ≤ bound then takeDigits bound (n * 10 + digitOf c) (count + 1) cs
      else (n, count, c :: cs)
    else (n, count, c :: cs)
  | n, count, [] => (n, count, [])

/-- The power of ten as a 64-bit number; at most 10^308. -/
def powerOfTen (k : Nat) : Option Number.Binary64 := Number.Binary64.ofDecimal false 1 k

/-- Scales a significand to `significand * 10 ^ exponent` by one product or quotient of 64-bit
numbers; far below the range by several quotients. Too large a result is no JSON number. -/
def scale : Nat → Number.Binary64 → Int → Option Number.Binary64
  | 0, _, _ => none
  | fuel + 1, x, exponent =>
    if exponent.natAbs ≤ 308 then
      match powerOfTen exponent.natAbs with
      | none => none
      | some p => if 0 ≤ exponent then x.mul p else x.div p
    else if x.isZero then some x
    else if 0 ≤ exponent then none
    else
      match powerOfTen 308 with
      | none => none
      | some p =>
        match x.div p with
        | none => none
        | some y => scale fuel y (exponent + 308)

/-- The real with a significand, a decimal exponent and a sign. -/
def realOf (negative : Bool) (significand : Nat) (exponent : Int) : Except Fault Number :=
  match Number.Binary64.ofInt significand with
  | none => .error .notJson
  | some x =>
    match scale 8 x (max exponent (-2000)) with
    | none => .error .notJson
    | some y => .ok (.real (if negative then y.neg else y))

/-- The largest exponent that is computed with. -/
def exponentBound : Nat := Nat.pow 2 31 - 1

/-- The rest of a number from its exponent sign on. -/
def readExponent (negative : Bool) (significand : Nat) (start : Int) : Reader Number := fun cs =>
  let (positive, cs) :=
    match cs with
    | '+' :: rest => (true, rest)
    | '-' :: rest => (false, rest)
    | _ => (true, cs)
  match cs with
  | [] => .error .endOfText
  | c :: _ =>
    if isDigit c then
      let (e, _, rest) := takeDigits exponentBound 0 0 cs
      match rest with
      | d :: after =>
        if isDigit d then
          if significand ≠ 0 ∧ positive then .error .notJson
          else .ok (.real (.zero negative), after.dropWhile isDigit)
        else (realOf negative significand (if positive then start + e else start - e)).map (·, rest)
      | [] => (realOf negative significand (if positive then start + e else start - e)).map (·, rest)
    else .error .notJson

/-- The rest of a number after its digits before the exponent. -/
def readTail (negative : Bool) (significand : Nat) (exponent : Int) : Reader Number := fun cs =>
  match cs with
  | 'e' :: rest => readExponent negative significand exponent rest
  | 'E' :: rest => readExponent negative significand exponent rest
  | _ => (realOf negative significand exponent).map (·, cs)

/-- The rest of a number after its point. Digits that no longer fit are dropped. -/
def readFraction (negative : Bool) (significand : Nat) (exponent : Int) : Reader Number := fun cs =>
  let (n, count, rest) := takeDigits wordBound significand 0 cs
  match rest with
  | d :: _ =>
    if isDigit d then readTail negative n (exponent - count) (rest.dropWhile isDigit)
    else if count = 0 then .error .notJson
    else readTail negative n (exponent - count) rest
  | [] => if count = 0 then .error .endOfText else readTail negative n (exponent - count) rest

/-- The integer of a sign and a magnitude of 64 bits. A negative zero, or one below the range, is a
real. -/
def wholeOf (negative : Bool) (n : Nat) : Except Fault Number :=
  if negative then
    if n = 0 ∨ Nat.pow 2 63 < n then realOf true n 0 else .ok (.integer (-(n : Int)))
  else .ok (.integer n)

/-- A number after its sign. -/
def readMagnitude (negative : Bool) : Reader Number := fun cs =>
  match cs with
  | [] => .error .endOfText
  | c :: after =>
    if c = '0' then
      match after with
      | '.' :: rest => readFraction negative 0 0 rest
      | 'e' :: rest => readExponent negative 0 0 rest
      | 'E' :: rest => readExponent negative 0 0 rest
      | d :: _ => if isDigit d then .error .notJson else (wholeOf negative 0).map (·, after)
      | [] => (wholeOf negative 0).map (·, after)
    else if isDigit c then
      let (n, _, rest) := takeDigits wordBound 0 0 cs
      let dropped := (rest.takeWhile isDigit).length
      match rest.dropWhile isDigit with
      | '.' :: tail => readFraction negative n dropped tail
      | 'e' :: tail => readExponent negative n dropped tail
      | 'E' :: tail => readExponent negative n dropped tail
      | tail =>
        if dropped = 0 then (wholeOf negative n).map (·, tail)
        else (realOf negative n dropped).map (·, tail)
    else .error .notJson

/-! ### Strings -/

/-- The value of a hexadecimal digit of either case. -/
def hexValue? (c : Char) : Option Nat :=
  if isDigit c then some (digitOf c)
  else if 'a' ≤ c ∧ c ≤ 'f' then some (c.toNat - 'a'.toNat + 10)
  else if 'A' ≤ c ∧ c ≤ 'F' then some (c.toNat - 'A'.toNat + 10)
  else none

/-- The text has at least so many bytes. -/
def hasBytes : Nat → List Char → Bool
  | 0, _ => true
  | _ + 1, [] => false
  | n + 1, c :: cs => hasBytes (n + 1 - c.utf8Size) cs

/-- Four hexadecimal digits. -/
def readHex4 : Reader Nat := fun cs =>
  if !hasBytes 4 cs then .error .endOfText
  else
    match cs with
    | a :: b :: c :: d :: rest =>
      match hexValue? a, hexValue? b, hexValue? c, hexValue? d with
      | some a, some b, some c, some d => .ok (a * 4096 + b * 256 + c * 16 + d, rest)
      | _, _, _, _ => .error .notJson
    | _ => .error .notJson

/-- The character of a `u` escape after its letter. A surrogate must be one of a pair. -/
def readUnicode : Reader Char := fun cs => do
  let (u, rest) ← readHex4 cs
  if Text.Utf16.isLow u then .error .notJson
  else if Text.Utf16.isHigh u then
    match rest with
    | [] => .error .endOfText
    | '\\' :: [] => .error .endOfText
    | '\\' :: 'u' :: rest => do
      let (v, rest) ← readHex4 rest
      if Text.Utf16.isLow v then .ok (Text.Utf16.ofPair u v, rest) else .error .notJson
    | _ => .error .notJson
  else .ok (Char.ofNat u, rest)

/-- The character of an escape of one letter. -/
def shortEscape? (c : Char) : Option Char :=
  if c = '"' ∨ c = '\\' ∨ c = '/' then some c
  else if c = 'b' then some '\x08'
  else if c = 'f' then some '\x0c'
  else if c = 'n' then some '\n'
  else if c = 'r' then some '\r'
  else if c = 't' then some '\t'
  else none

/-- A string after its opening quote; the fuel is the length of the text. -/
def readQuoted : Nat → List Char → Reader (List Char)
  | 0, _, _ => .error .endOfText
  | _ + 1, _, [] => .error .endOfText
  | fuel + 1, acc, c :: cs =>
    if c = '"' then .ok (acc.reverse, cs)
    else if c = '\\' then
      match cs with
      | [] => .error .endOfText
      | 'u' :: rest => do
        let (d, rest) ← readUnicode rest
        readQuoted fuel (d :: acc) rest
      | e :: rest =>
        match shortEscape? e with
        | some d => readQuoted fuel (d :: acc) rest
        | none => .error .notJson
    else if c.toNat < 0x20 then .error .notJson
    else readQuoted fuel (c :: acc) cs

/-- A string after its opening quote. -/
def readStringBody : Reader String := fun cs => do
  let (s, rest) ← readQuoted (cs.length + 1) [] cs
  return (String.ofList s, rest)

/-! ### Values of the wrong shape -/

/-- The fault of a value that is not of the expected shape: a scalar is read first, so that its own
faults count. -/
def misfit : List Char → Fault := fun cs =>
  let after (r : Except Fault Unit) : Fault :=
    match r with
    | .ok _ => .wrongShape
    | .error f => f
  match cs with
  | [] => .endOfText
  | 'n' :: rest => after ((readWord ['u', 'l', 'l'] rest).map fun _ => ())
  | 't' :: rest => after ((readWord ['r', 'u', 'e'] rest).map fun _ => ())
  | 'f' :: rest => after ((readWord ['a', 'l', 's', 'e'] rest).map fun _ => ())
  | '-' :: rest => after ((readMagnitude true rest).map fun _ => ())
  | '"' :: rest => after ((readStringBody rest).map fun _ => ())
  | '[' :: _ => .wrongShape
  | '\x7b' :: _ => .wrongShape
  | c :: rest =>
    if isDigit c then after ((readMagnitude false (c :: rest)).map fun _ => ()) else .notJson

/-- A string. -/
def readString : Reader String := fun cs =>
  match skipBlanks cs with
  | '"' :: rest => readStringBody rest
  | other => .error (misfit other)

/-- A truth value. -/
def readBool : Reader Bool := fun cs =>
  match skipBlanks cs with
  | 't' :: rest => (readWord ['r', 'u', 'e'] rest).map fun (_, rest) => (true, rest)
  | 'f' :: rest => (readWord ['a', 'l', 's', 'e'] rest).map fun (_, rest) => (false, rest)
  | other => .error (misfit other)

/-- Nothing but `null`. -/
def readNull : Reader Unit := fun cs =>
  match skipBlanks cs with
  | 'n' :: rest => readWord ['u', 'l', 'l'] rest
  | other => .error (misfit other)

/-- A value of a shape, or `null`. -/
def readNullable {α : Type} (read : Reader α) : Reader (Option α) := fun cs =>
  match skipBlanks cs with
  | 'n' :: rest => (readWord ['u', 'l', 'l'] rest).map fun (_, rest) => (none, rest)
  | other => (read other).map fun (a, rest) => (some a, rest)

/-! ### Brackets -/

/-- The closing bracket of a list. -/
def closeList : Reader Unit := fun cs =>
  match skipBlanks cs with
  | ']' :: rest => .ok ((), rest)
  | [] => .error .endOfText
  | _ => .error .notJson

/-- The closing brace of a record. -/
def closeRecord : Reader Unit := fun cs =>
  match skipBlanks cs with
  | '\x7d' :: rest => .ok ((), rest)
  | [] => .error .endOfText
  | _ => .error .notJson

/-- Moves to the next item of a list, or reports that the closing bracket comes next. -/
def nextItem (first : Bool) : Reader Bool := fun cs =>
  match skipBlanks cs with
  | [] => .error .endOfText
  | ']' :: rest => .ok (false, ']' :: rest)
  | c :: rest =>
    if first then .ok (true, c :: rest)
    else if c = ',' then
      match skipBlanks rest with
      | [] => .error .endOfText
      | ']' :: _ => .error .notJson
      | other => .ok (true, other)
    else .error .notJson

/-- Moves behind the opening quote of the next key, or reports that the closing brace comes next. -/
def nextKey (first : Bool) : Reader Bool := fun cs =>
  match skipBlanks cs with
  | [] => .error .endOfText
  | '\x7d' :: rest => .ok (false, '\x7d' :: rest)
  | c :: rest =>
    if first then
      if c = '"' then .ok (true, rest) else .error .notJson
    else if c = ',' then
      match skipBlanks rest with
      | [] => .error .endOfText
      | '"' :: after => .ok (true, after)
      | _ => .error .notJson
    else .error .notJson

/-- The colon between a key and its value. -/
def readColon : Reader Unit := fun cs =>
  match skipBlanks cs with
  | ':' :: rest => .ok ((), rest)
  | [] => .error .endOfText
  | _ => .error .notJson

/-- The items of a list up to its closing bracket. -/
def readItems {α : Type} (item : Reader α) : Nat → Bool → List α → Reader (List α)
  | 0, _, _, _ => .error .endOfText
  | fuel + 1, first, acc, cs => do
    let (more, rest) ← nextItem first cs
    if more then
      let (a, rest) ← item rest
      readItems item fuel false (a :: acc) rest
    else return (acc.reverse, rest)

/-- The members of a record up to its closing brace, each handled by its key. -/
def readMembers {σ : Type} (member : String → σ → Reader σ) : Nat → Bool → σ → Reader σ
  | 0, _, _, _ => .error .endOfText
  | fuel + 1, first, state, cs => do
    let (more, rest) ← nextKey first cs
    if more then
      let (key, rest) ← readStringBody rest
      let (state, rest) ← member key state rest
      readMembers member fuel false state rest
    else return (state, rest)

/-- A list whose items are read by `item`, which gets the depth that is left. -/
def readList {α : Type} (item : Nat → Reader α) (depth : Nat) : Reader (List α) := fun cs =>
  match skipBlanks cs with
  | '[' :: rest =>
    match depth with
    | 0 => .error .notJson
    | inner + 1 => do
      let (items, rest) ← readItems (item inner) (rest.length + 1) true [] rest
      let (_, rest) ← closeList rest
      return (items, rest)
  | other => .error (misfit other)

/-! ### Values -/

/-- The word, number or string at the start of the text. -/
def readScalar : Reader Value := fun cs =>
  match cs with
  | 'n' :: rest => (readWord ['u', 'l', 'l'] rest).map fun (_, rest) => (.null, rest)
  | 't' :: rest => (readWord ['r', 'u', 'e'] rest).map fun (_, rest) => (.bool true, rest)
  | 'f' :: rest => (readWord ['a', 'l', 's', 'e'] rest).map fun (_, rest) => (.bool false, rest)
  | '-' :: rest => (readMagnitude true rest).map fun (n, rest) => (.number n, rest)
  | '"' :: rest => (readStringBody rest).map fun (s, rest) => (.text s, rest)
  | c :: rest =>
    if isDigit c then (readMagnitude false (c :: rest)).map fun (n, rest) => (.number n, rest)
    else .error .notJson
  | [] => .error .endOfText

/-- One member of a record of values. -/
def readField (value : Reader Value) (key : String) (fields : Fields Value) :
    Reader (Fields Value) := fun cs => do
  let (_, rest) ← readColon cs
  let (v, rest) ← value rest
  return (fields.insert key v, rest)

/-- Any value, with so many brackets left to open. -/
def readValue : Nat → Reader Value
  | 0, cs =>
    match skipBlanks cs with
    | '[' :: _ => .error .notJson
    | '\x7b' :: _ => .error .notJson
    | other => readScalar other
  | depth + 1, cs =>
    match skipBlanks cs with
    | '[' :: rest => do
      let (items, rest) ← readItems (readValue depth) (rest.length + 1) true [] rest
      let (_, rest) ← closeList rest
      return (.list items, rest)
    | '\x7b' :: rest => do
      let (fields, rest) ← readMembers (readField (readValue depth)) (rest.length + 1) true [] rest
      let (_, rest) ← closeRecord rest
      return (.record fields, rest)
    | other => readScalar other

/-! ### Skipped members -/

/-- Skips a string after its opening quote; its escapes need only be well formed. -/
def skipQuoted : Nat → Reader Unit
  | 0, _ => .error .endOfText
  | _ + 1, [] => .error .endOfText
  | fuel + 1, c :: cs =>
    if c = '"' then .ok ((), cs)
    else if c = '\\' then
      match cs with
      | [] => .error .endOfText
      | 'u' :: rest => do
        let (_, rest) ← readHex4 rest
        skipQuoted fuel rest
      | e :: rest => if (shortEscape? e).isSome then skipQuoted fuel rest else .error .notJson
    else if c.toNat < 0x20 then .error .notJson
    else skipQuoted fuel cs

/-- Skips digits, of which there must be one. -/
def skipDigits : Reader Unit := fun cs =>
  match cs with
  | [] => .error .endOfText
  | c :: rest => if isDigit c then .ok ((), rest.dropWhile isDigit) else .error .notJson

/-- Skips an exponent, if there is one. -/
def skipExponent : Reader Unit := fun cs =>
  let signed (rest : List Char) : Except Fault (Unit × List Char) :=
    match rest with
    | '+' :: after => skipDigits after
    | '-' :: after => skipDigits after
    | _ => skipDigits rest
  match cs with
  | 'e' :: rest => signed rest
  | 'E' :: rest => signed rest
  | _ => .ok ((), cs)

/-- Skips a number after its sign, whatever its range. -/
def skipMagnitude : Reader Unit := fun cs =>
  let tail (rest : List Char) : Except Fault (Unit × List Char) :=
    match rest with
    | '.' :: after => do
      let (_, after) ← skipDigits after
      skipExponent after
    | _ => skipExponent rest
  match cs with
  | [] => .error .endOfText
  | '0' :: d :: rest => if isDigit d then .error .notJson else tail (d :: rest)
  | c :: rest => if isDigit c then tail (rest.dropWhile isDigit) else .error .notJson

/-- Skips a scalar. -/
def skipScalar : Reader Unit := fun cs =>
  match cs with
  | 'n' :: rest => readWord ['u', 'l', 'l'] rest
  | 't' :: rest => readWord ['r', 'u', 'e'] rest
  | 'f' :: rest => readWord ['a', 'l', 's', 'e'] rest
  | '-' :: rest => skipMagnitude rest
  | '"' :: rest => skipQuoted (rest.length + 1) rest
  | c :: rest => if isDigit c then skipMagnitude (c :: rest) else .error .notJson
  | [] => .error .endOfText

/-- An open bracket of a skipped value. -/
inductive Frame where
  | list
  | record
  deriving DecidableEq

/-- Skips the key and colon in front of a value of a record. -/
def skipKey : Frame → Reader Unit
  | .list, cs => .ok ((), cs)
  | .record, cs =>
    match skipBlanks cs with
    | '"' :: rest => do
      let (_, rest) ← skipQuoted (rest.length + 1) rest
      readColon rest
    | [] => .error .endOfText
    | _ => .error .notJson

/-- Skips what follows a value inside open brackets, up to the start of the next value. -/
def skipClosings : Nat → Bool → List Frame → Reader (List Frame)
  | 0, _, _, _ => .error .endOfText
  | _ + 1, _, [], cs => .ok ([], cs)
  | fuel + 1, comma, frame :: outer, cs =>
    match skipBlanks cs with
    | [] => .error .endOfText
    | c :: rest =>
      if comma ∧ c = ',' then (skipKey frame rest).map fun (_, rest) => (frame :: outer, rest)
      else if (c = ']' ∧ frame = .list) ∨ (c = '\x7d' ∧ frame = .record) then
        skipClosings fuel true outer rest
      else if comma then .error .notJson
      else (skipKey frame (c :: rest)).map fun (_, rest) => (frame :: outer, rest)

/-- Skips one value of any depth; the open brackets are kept in a list. -/
def skipValue : Nat → List Frame → Reader Unit
  | 0, _, _ => .error .endOfText
  | fuel + 1, frames, cs =>
    match skipBlanks cs with
    | [] => .error .endOfText
    | c :: rest => do
      let (comma, frames, rest) ←
        if c = '[' then .ok (false, .list :: frames, rest)
        else if c = '\x7b' then .ok (false, .record :: frames, rest)
        else (skipScalar (c :: rest)).map fun (_, rest) => (true, frames, rest)
      let (frames, rest) ← skipClosings (rest.length + 1) comma frames rest
      match frames with
      | [] => return ((), rest)
      | _ => skipValue fuel frames rest

/-- Skips the colon and value of a member. -/
def skipMember : Reader Unit := fun cs => do
  let (_, rest) ← readColon cs
  skipValue (rest.length + 1) [] rest

/-! ### Whole texts -/

/-- Reads a whole text: nothing but blanks may follow. -/
def readWhole {α : Type} (read : Reader α) (text : String) : Except Fault α := do
  let (a, rest) ← read text.toList
  match skipBlanks rest with
  | [] => return a
  | _ => .error .notJson

/-- The value of a JSON text. -/
def parse (text : String) : Except Fault Value := readWhole (readValue depthLimit) text

end StoryManifest.Json
