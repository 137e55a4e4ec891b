import StoryManifest.Glob.Pattern

/-!
Matching paths with glob patterns. What a part matches at the start of some bytes is told by the bytes
that may be left over; a pattern matches a path when nothing may be left over. Where slashes separate,
neither a star nor a question mark goes across one.
-/

namespace StoryManifest.Glob

/-- The byte of a slash. -/
def slash : UInt8 := 47

/-- All that may be left over after any bytes. -/
def tails : List UInt8 → List (List UInt8)
  | [] => [[]]
  | b :: bs => (b :: bs) :: tails bs

/-- What may be left over after any bytes but slashes. -/
def tailsInStep : List UInt8 → List (List UInt8)
  | [] => [[]]
  | b :: bs => (b :: bs) :: if b = slash then [] else tailsInStep bs

/-- What may be left over after any bytes that end in a slash. -/
def tailsAfterSlash : List UInt8 → List (List UInt8)
  | [] => []
  | b :: bs => if b = slash then bs :: tailsAfterSlash bs else tailsAfterSlash bs

/-- A byte is in a range. -/
def ByteRange.holds (b : UInt8) (r : ByteRange) : Bool := r.low ≤ b && b ≤ r.high

mutual

/-- A part that matches nothing but the empty text, as a group of empty branches does. -/
def Part.isBlank : Part → Bool
  | .choice branches => blankBranches branches
  | _ => false

def blankRow : List Part → Bool
  | [] => true
  | p :: ps => p.isBlank && blankRow ps

def blankBranches : List (List Part) → Bool
  | [] => true
  | row :: rows => blankRow row && blankBranches rows

end

/-- What may be left over after one byte of a kind. -/
def afterByte (test : UInt8 → Bool) : List UInt8 → List (List UInt8)
  | [] => []
  | b :: bs => if test b then [bs] else []

mutual

/-- What may be left over after a part, given whether slashes separate. Among the branches of a group
empty ones do not count. -/
def Part.rests (separated : Bool) : Part → List UInt8 → List (List UInt8)
  | .byte value, bs => afterByte (· == value) bs
  | .any, bs => afterByte (fun b => !separated || b != slash) bs
  | .star, bs => if separated then tailsInStep bs else tails bs
  | .leading, bs => bs :: tailsAfterSlash bs
  | .trailing, bs => (afterByte (· == slash) bs).flatMap tails
  | .between, bs => (afterByte (· == slash) bs).flatMap fun bs => bs :: tailsAfterSlash bs
  | .set negated ranges, bs => afterByte (fun b => ranges.any (·.holds b) != negated) bs
  | .choice branches, bs =>
    if blankBranches branches then [bs] else branchRests separated branches bs

/-- What may be left over after a row of parts, from any of some starts. -/
def rowRests (separated : Bool) : List Part → List (List UInt8) → List (List UInt8)
  | [], starts => starts
  | p :: ps, starts => rowRests separated ps (starts.flatMap (p.rests separated)).eraseDups

/-- What may be left over after one of several rows of parts. -/
def branchRests (separated : Bool) : List (List Part) → List UInt8 → List (List UInt8)
  | [], _ => []
  | row :: rows, bs =>
    (if blankRow row then [] else rowRests separated row [bs]) ++ branchRests separated rows bs

end

/-- The bytes of a text. -/
def bytesOfText (text : String) : List UInt8 := text.toList.flatMap bytesOf

/-- A row of parts matches a whole path. Any directories alone match everything. -/
def covers (separated : Bool) (parts : List Part) (path : String) : Bool :=
  match parts with
  | [.leading] => true
  | parts => (rowRests separated parts [bytesOfText path]).contains []

end StoryManifest.Glob
