/-!
Paths as text, with slashes between their steps. Slashes at the end, repeated slashes and steps to
the same directory (a single dot, other than at the start) do not count; two paths agree when their
steps do.
-/

namespace StoryManifest

/-- The text of a path. -/
abbrev Path := String

namespace Path

/-- A step of a path. -/
inductive Step where
  | root
  | here
  | up
  | name (name : String)
  deriving DecidableEq, Repr

/-- The pieces of a text between slashes. -/
def splitSlash : List Char → List (List Char)
  | [] => [[]]
  | c :: rest =>
    if c = '/' then [] :: splitSlash rest
    else
      match splitSlash rest with
      | piece :: pieces => (c :: piece) :: pieces
      | [] => [[c]]

/-- The piece does not count as a step. -/
def isIdle (piece : List Char) : Bool := piece = [] || piece = ['.']

/-- The step of a piece after the first one, if it counts. -/
def stepOf? (piece : List Char) : Option Step :=
  if isIdle piece then none
  else if piece = ['.', '.'] then some .up
  else some (.name (String.ofList piece))

/-- The step of the first piece; more pieces after an empty one make the path start at the root. -/
def firstStep? (piece : List Char) (more : Bool) : Option Step :=
  if piece = [] then if more then some .root else none
  else if piece = ['.'] then some .here
  else stepOf? piece

/-- The steps of pieces. -/
def stepsOf : List (List Char) → List Step
  | [] => []
  | piece :: pieces => (firstStep? piece (!pieces.isEmpty)).toList ++ pieces.filterMap stepOf?

/-- The steps of a path. -/
def steps (p : Path) : List Step := stepsOf (splitSlash p.toList)

/-- The path starts at the root. -/
def isAbsolute (p : Path) : Bool := p.toList.head? = some '/'

/-- The text of a step. -/
def Step.text : Step → String
  | .root => "/"
  | .here => "."
  | .up => ".."
  | .name text => text

/-- The last step, when it is a name. -/
def fileName? (p : Path) : Option String :=
  match (steps p).getLast? with
  | some (.name name) => some name
  | _ => none

/-- The pieces up to the last one that counts. The first one stays. -/
def trimPieces : List (List Char) → List (List Char)
  | [] => []
  | first :: rest =>
    first :: (rest.reverse.dropWhile isIdle).reverse

/-- The text of pieces. -/
def joinPieces (pieces : List (List Char)) : Path :=
  if pieces = [[]] then "/"
  else String.ofList (List.intercalate ['/'] pieces)

/-- The path without its last step; none when it has none to lose. -/
def parent? (p : Path) : Option Path :=
  match trimPieces (splitSlash p.toList) with
  | [] => none
  | [first] => if first = [] then none else some ""
  | pieces => some (joinPieces (trimPieces pieces.dropLast))

/-- A path inside another one; an absolute path stays as it is. -/
def join (base inner : Path) : Path :=
  if isAbsolute inner then inner
  else if base = "" || base.toList.getLast? = some '/' then base ++ inner
  else base ++ "/" ++ inner

/-- The path without repeated slashes and without single dots at its start. -/
def tidy (p : Path) : Path :=
  let pieces := (splitSlash p.toList).filter (· ≠ [])
  if isAbsolute p then String.ofList ('/' :: List.intercalate ['/'] pieces)
  else String.ofList (List.intercalate ['/'] (pieces.dropWhile (· = ['.'])))

/-- Both paths have the same steps. -/
def same (p q : Path) : Bool := steps p = steps q

/-- The pieces after so many steps, given whether the first piece comes first. -/
def dropSteps : Nat → Bool → List (List Char) → List (List Char)
  | 0, _, pieces => pieces
  | _ + 1, _, [] => []
  | n + 1, first, piece :: pieces =>
    let step := if first then firstStep? piece (!pieces.isEmpty) else stepOf? piece
    dropSteps (if step.isSome then n else n + 1) false pieces

/-- The rest of a path below another one. -/
def below? (base p : Path) : Option Path :=
  if (steps base).isPrefixOf (steps p) then
    let pieces := splitSlash p.toList
    match (steps base).length with
    | 0 => some (joinPieces (trimPieces pieces))
    | count =>
      let rest := (dropSteps count true pieces).dropWhile isIdle
      some (String.ofList (List.intercalate ['/'] (trimPieces rest)))
  else none

/-- Splits a file name at its last dot. A dot at the start does not count. -/
def splitName (name : String) : String × Option String :=
  let back := name.toList.reverse
  let ending := back.takeWhile (· ≠ '.')
  if ending.length + 1 < back.length then
    (String.ofList (back.drop (ending.length + 1)).reverse, some (String.ofList ending.reverse))
  else (name, none)

/-- The extension of the file name. -/
def extension? (p : Path) : Option String := (fileName? p).bind fun name => (splitName name).2

/-! ### Order -/

/-- The place of a kind of step in the order of steps. -/
def Step.rank : Step → Nat
  | .root => 0
  | .here => 1
  | .up => 2
  | .name _ => 3

/-- Steps of names are ordered by their names. -/
def Step.compare (a b : Step) : Ordering :=
  match a, b with
  | .name m, .name n => Ord.compare m n
  | a, b => Ord.compare a.rank b.rank

/-- The order of rows of steps, step by step. -/
def compareSteps : List Step → List Step → Ordering
  | [], [] => .eq
  | [], _ :: _ => .lt
  | _ :: _, [] => .gt
  | a :: as, b :: bs => (Step.compare a b).then (compareSteps as bs)

/-- One path comes no later than another one, step by step. -/
def le (p q : Path) : Bool := (compareSteps (steps p) (steps q)).isLE

/-- Paths in order. -/
def sort (paths : List Path) : List Path := paths.mergeSort le

end Path

end StoryManifest
