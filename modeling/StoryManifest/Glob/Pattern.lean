/-!
Glob patterns. A pattern is read character by character into a row of parts; groups in braces hold
branches, each a row of parts of its own. Characters stand for their bytes in UTF-8, and so do ranges
of characters in brackets: a range of longer characters ranges over their neighbouring bytes.
-/

namespace StoryManifest.Glob

/-- A range of bytes, both ends included. -/
structure ByteRange where
  low : UInt8
  high : UInt8
  deriving DecidableEq, Repr

/-- A part of a pattern. -/
inductive Part where
  /-- This byte. -/
  | byte (value : UInt8)
  /-- One byte. -/
  | any
  /-- Any bytes. -/
  | star
  /-- Any directories before a path, or none. -/
  | leading
  /-- All that is in a directory. -/
  | trailing
  /-- Any directories between two parts of a path, or none. -/
  | between
  /-- One byte of some ranges, or one of none of them. -/
  | set (negated : Bool) (ranges : List ByteRange)
  /-- One of several branches. -/
  | choice (branches : List (List Part))
  deriving Repr

/-- The bytes of a character. -/
def bytesOf (c : Char) : List UInt8 := String.utf8EncodeChar c

/-! ### Sets in brackets -/

/-- Why brackets hold no set. -/
inductive SetFault where
  | unclosed
  | reversed
  deriving DecidableEq, Repr

/-- The ranges of a set up to the closing bracket, given whether this is the first character and
whether a dash asks for the end of a range. A bracket at the start and a dash at the start or the end
stand for themselves. -/
def readRanges : Bool → Bool → List (Char × Char) → List Char →
    Except SetFault (List (Char × Char) × List Char)
  | _, _, _, [] => .error .unclosed
  | first, ranged, ranges, c :: rest =>
    if c = ']' ∧ !first then
      .ok ((if ranged then ('-', '-') :: ranges else ranges).reverse, rest)
    else if c = '-' ∧ !first ∧ !ranged then readRanges false true ranges rest
    else
      match ranged, ranges with
      | true, (low, _) :: ranges =>
        if c < low then .error .reversed else readRanges false false ((low, c) :: ranges) rest
      | _, ranges => readRanges false false ((c, c) :: ranges) rest

/-- The ranges of bytes that a range of characters stands for. -/
def byteRanges : Char × Char → List ByteRange
  | (low, high) =>
    let single := (bytesOf low).map fun b => ⟨b, b⟩
    if low = high then single
    else
      match (bytesOf low).getLast?, bytesOf high with
      | some b, c :: rest => single.dropLast ++ ⟨b, c⟩ :: rest.map fun b => ⟨b, b⟩
      | _, _ => single

/-- The set after an opening bracket, and what follows its closing bracket. -/
def readSet (cs : List Char) : Except SetFault (Part × List Char) :=
  let negated := cs.head? = some '!' || cs.head? = some '^'
  (readRanges true false [] (if negated then cs.tail else cs)).map fun (ranges, rest) =>
    (.set negated (ranges.flatMap byteRanges), rest)

/-! ### Reading -/

/-- A group that is still open: the row in which it stands and its finished branches, the last one
first. -/
structure OpenGroup where
  row : List Part
  branches : List (List Part)

/-- A pattern while it is read: its open groups, the innermost one first; the current row, the last
part first; the last character; and whether opening brackets stand for themselves by now. -/
structure Draft where
  groups : List OpenGroup := []
  row : List Part := []
  last : Option Char := none
  plainBrackets : Bool := false

namespace Draft

/-- Adds a part. -/
def push (d : Draft) (part : Part) : Draft := { d with row := part :: d.row }

/-- Adds a character that stands for itself. -/
def pushChar (d : Draft) (c : Char) : Draft :=
  { d with row := ((bytesOf c).map .byte).reverse ++ d.row }

/-- Remembers the last character. -/
def after (d : Draft) (c : Char) : Draft := { d with last := some c }

/-- A group is open. -/
def inGroup (d : Draft) : Bool := !d.groups.isEmpty

/-- Puts directories between or after parts in the place of the last part, unless that one stands for
directories already. -/
def replaceLast (d : Draft) (part : Part) : Draft :=
  match d.row with
  | .leading :: _ => d
  | .trailing :: _ => d
  | row => { d with row := part :: row.tail }

/-- A pair of stars may stand for directories after this character. -/
def atStep (d : Draft) : Bool :=
  d.last = some '/' || d.inGroup && (d.last = some ',' || d.last = some '\x7b')

/-- Two stars, each for itself. -/
def pushStars (d : Draft) (rest : List Char) : Draft × List Char :=
  (((d.push .star).push .star).after '*', rest)

/-- Reads what follows a pair of stars, which stands for directories when it fills a step of a path. -/
def readStars (d : Draft) (rest : List Char) : Draft × List Char :=
  match d.row.isEmpty, rest with
  | true, [] => ((d.push .leading).after '*', [])
  | true, '/' :: rest => ((d.push .leading).after '/', rest)
  | true, rest => d.pushStars rest
  | false, rest =>
    if d.atStep then
      match rest with
      | [] => ((d.replaceLast .trailing).after '*', [])
      | '/' :: rest => ((d.replaceLast .between).after '/', rest)
      | c :: _ =>
        if d.inGroup && (c = ',' || c = '\x7d') then ((d.replaceLast .trailing).after '*', rest)
        else d.pushStars rest
    else d.pushStars rest

/-- Opens a group. -/
def openGroup (d : Draft) : Draft := { d with groups := ⟨d.row, []⟩ :: d.groups, row := [] }

/-- Ends a branch of the innermost group; outside of groups a comma stands for itself. -/
def endBranch (d : Draft) : Draft :=
  match d.groups with
  | [] => d.pushChar ','
  | g :: groups =>
    { d with groups := ⟨g.row, d.row.reverse :: g.branches⟩ :: groups, row := [] }

/-- Closes the innermost group, if there is one. -/
def closeGroup (d : Draft) : Option Draft :=
  match d.groups with
  | [] => none
  | g :: groups =>
    some { d with groups := groups, row := .choice (d.row.reverse :: g.branches).reverse :: g.row }

/-- Reads a set in brackets. An unclosed bracket stands for itself where that is allowed, and then so
do all later ones. -/
def readBracket (lenient : Bool) (d : Draft) (rest : List Char) : Option (Draft × List Char) :=
  match readSet rest with
  | .ok (set, rest) => some ((d.push set).after ']', rest)
  | .error .reversed => none
  | .error .unclosed =>
    if lenient then some ((({ d with plainBrackets := true } : Draft).pushChar '[').after '[', rest)
    else none

/-- Reads a character and what belongs to it. -/
def step (lenient : Bool) (d : Draft) (c : Char) (rest : List Char) : Option (Draft × List Char) :=
  match c, rest with
  | '?', rest => some ((d.push .any).after '?', rest)
  | '*', '*' :: rest => some (d.readStars rest)
  | '*', rest => some ((d.push .star).after '*', rest)
  | '\x7b', rest => some (d.openGroup.after '\x7b', rest)
  | '\x7d', rest => (d.closeGroup).map fun d => (d.after '\x7d', rest)
  | ',', rest => some (d.endBranch.after ',', rest)
  | '\\', [] => none
  | '\\', c :: rest => some ((d.pushChar c).after c, rest)
  | c, rest =>
    if c = '[' && !d.plainBrackets then d.readBracket lenient rest
    else some ((d.pushChar c).after c, rest)

/-- Reads so many characters at most. -/
def read (lenient : Bool) : Nat → Draft → List Char → Option Draft
  | _, d, [] => some d
  | 0, _, _ :: _ => none
  | n + 1, d, c :: rest =>
    match d.step lenient c rest with
    | some (d, rest) => read lenient n d rest
    | none => none

end Draft

/-- The parts of a pattern, if it is well formed: escapes are not cut off and groups are closed. Where
that is allowed an unclosed bracket stands for itself. -/
def partsOf? (lenient : Bool) (pattern : String) : Option (List Part) :=
  match Draft.read lenient pattern.length { } pattern.toList with
  | some d => if d.inGroup then none else some d.row.reverse
  | none => none

end StoryManifest.Glob
