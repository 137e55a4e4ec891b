import StoryManifest.Path

/-!
Files and directories. A tree holds a node for each location, which is given by the names from the root
on. Paths are followed step by step: every step but the last one has to be a directory, and two dots go
back to the one above. Paths that are not absolute start at the current directory.
-/

namespace StoryManifest

/-- The names from the root on. -/
abbrev Location := List String

/-- What a file holds: text, or bytes that stop being text after some lines. -/
inductive Content where
  | text (text : String)
  | damaged (intact : String)
  deriving DecidableEq, Repr

namespace Content

/-- The text of bytes, if they are text. -/
def textOf? (bytes : List UInt8) : Option String := String.fromUTF8? ⟨bytes.toArray⟩

/-- What a file of some bytes holds. -/
def ofBytes (bytes : List UInt8) : Content :=
  match textOf? bytes with
  | some s => .text s
  | none =>
    let lines := (bytes.splitOn 10).takeWhile fun line => (textOf? line).isSome
    .damaged (String.join (lines.map fun line => (textOf? line).getD "" ++ "\n"))

end Content

/-- A file or a directory. -/
inductive FileNode where
  | directory
  | file (content : Content)
  deriving DecidableEq, Repr

/-- Files and directories. -/
structure FileTree where
  nodes : List (Location × FileNode)
  current : Location
  deriving Repr

/-- Why a file or a directory could not be used. -/
inductive FileFault where
  | notFound
  | exists
  | notDirectory
  | isDirectory
  | notText
  deriving DecidableEq, Repr

namespace FileFault

/-- What is reported of a fault. -/
def message : FileFault → String
  | .notFound => "No such file or directory (os error 2)"
  | .exists => "File exists (os error 17)"
  | .notDirectory => "Not a directory (os error 20)"
  | .isDirectory => "Is a directory (os error 21)"
  | .notText => "stream did not contain valid UTF-8"

end FileFault

namespace Location

/-- The absolute path of a location. -/
def toPath (l : Location) : Path := "/" ++ "/".intercalate l

end Location

namespace FileTree

/-! ### Nodes -/

/-- An empty tree with the root as its current directory. -/
def empty : FileTree := ⟨[], []⟩

/-- The node at a location. The root is always a directory. -/
def get? (t : FileTree) (l : Location) : Option FileNode :=
  if l = [] then some .directory else t.nodes.lookup l

/-- The nodes with a further one, which replaces an old one of the same location. -/
def putNode (l : Location) (n : FileNode) : List (Location × FileNode) → List (Location × FileNode)
  | [] => [(l, n)]
  | (k, m) :: rest => if k = l then (l, n) :: rest else (k, m) :: putNode l n rest

/-- Puts a node at a location. -/
def put (t : FileTree) (l : Location) (n : FileNode) : FileTree :=
  { t with nodes := putNode l n t.nodes }

/-- Puts directories along names from a location on, where nothing is yet. -/
def makeAlong : FileTree → Location → List String → FileTree
  | t, _, [] => t
  | t, above, name :: names =>
    let l := above ++ [name]
    makeAlong (if (t.get? l).isSome then t else t.put l .directory) l names

/-- Puts a node at a location, with the directories that it is in. -/
def plant (t : FileTree) (l : Location) (n : FileNode) : FileTree :=
  (t.makeAlong [] l.dropLast).put l n

/-- The tree without what is at a location and below it. -/
def erase (t : FileTree) (l : Location) : FileTree :=
  { t with nodes := t.nodes.filter fun (k, _) => !l.isPrefixOf k }

/-! ### Following paths -/

/-- Follows a piece of a path from a location, which has to be a directory. -/
def follow (t : FileTree) (l : Location) (piece : List Char) : Except FileFault Location :=
  match t.get? l with
  | none => .error .notFound
  | some (.file _) => .error .notDirectory
  | some .directory =>
    .ok (if Path.isIdle piece then l
      else if piece = ['.', '.'] then l.dropLast
      else l ++ [String.ofList piece])

/-- Follows pieces of a path. -/
def followAll (t : FileTree) : Location → List (List Char) → Except FileFault Location
  | l, [] => .ok l
  | l, piece :: pieces =>
    match t.follow l piece with
    | .ok l => t.followAll l pieces
    | .error e => .error e

/-- Where a path starts. -/
def startOf (t : FileTree) (p : Path) : Location := if Path.isAbsolute p then [] else t.current

/-- The location that a path leads to, whether something is there or not. -/
def locate (t : FileTree) (p : Path) : Except FileFault Location :=
  if p = "" then .error .notFound else t.followAll (t.startOf p) (Path.splitSlash p.toList)

/-- What is at a path. -/
def find? (t : FileTree) (p : Path) : Option FileNode :=
  match t.locate p with
  | .ok l => t.get? l
  | .error _ => none

/-- Something is at a path. -/
def holds (t : FileTree) (p : Path) : Bool := (t.find? p).isSome

/-- A directory is at a path. -/
def isDirectory (t : FileTree) (p : Path) : Bool := t.find? p = some .directory

/-- A file is at a path. -/
def isFile (t : FileTree) (p : Path) : Bool :=
  match t.find? p with
  | some (.file _) => true
  | _ => false

/-- The absolute path of what is at a path, without detours. -/
def canonical? (t : FileTree) (p : Path) : Option Path :=
  match t.locate p with
  | .ok l => if (t.get? l).isSome then some l.toPath else none
  | .error _ => none

/-! ### Reading -/

/-- The text in a file. -/
def readText (t : FileTree) (p : Path) : Except FileFault String :=
  match t.locate p with
  | .error e => .error e
  | .ok l =>
    match t.get? l with
    | none => .error .notFound
    | some .directory => .error .isDirectory
    | some (.file (.damaged _)) => .error .notText
    | some (.file (.text s)) => .ok s

/-- The lines of a file as far as they are text. -/
def intactText? (t : FileTree) (l : Location) : Option String :=
  match t.get? l with
  | some (.file (.text s)) => some s
  | some (.file (.damaged s)) => some s
  | _ => none

/-! ### Writing -/

/-- A path without slashes at its end. The root stays as it is. -/
def dropSlashes (p : Path) : Path :=
  if Path.steps p = [.root] then p
  else String.ofList (p.toList.reverse.dropWhile (· = '/')).reverse

/-- A path ends in a step that only a directory can take. -/
def namesDirectory (p : Path) : Bool :=
  match (Path.splitSlash p.toList).getLast? with
  | some piece => Path.isIdle piece || piece = ['.', '.']
  | none => true

/-- Makes a directory. -/
def makeDirectory (t : FileTree) (p : Path) : Except FileFault FileTree :=
  match t.locate (dropSlashes p) with
  | .error e => .error e
  | .ok l =>
    match t.get? l with
    | some _ => .error .exists
    | none => .ok (t.put l .directory)

/-- Makes a directory, unless there is one. -/
def ensureDirectory (t : FileTree) (p : Path) : Except FileFault FileTree :=
  match t.makeDirectory p with
  | .ok t => .ok t
  | .error e => if t.isDirectory p then .ok t else .error e

/-- Makes a directory with all that it is in, of which there may be so many. What was made remains,
also when something is in the way. -/
def makeDirectories : Nat → FileTree → Path → FileTree × Option FileFault
  | 0, t, _ => (t, some .notFound)
  | n + 1, t, p =>
    if p = "" then (t, none)
    else
      match t.ensureDirectory p with
      | .ok t => (t, none)
      | .error .notFound =>
        match Path.parent? p with
        | none => (t, some .notFound)
        | some parent =>
          match makeDirectories n t parent with
          | (t, some e) => (t, some e)
          | (t, none) =>
            match t.ensureDirectory p with
            | .ok t => (t, none)
            | .error e => (t, some e)
      | .error e => (t, some e)

/-- Makes a directory with all that it is in. -/
def makePath (t : FileTree) (p : Path) : FileTree × Option FileFault :=
  makeDirectories (p.length + 1) t p

/-- Writes text to a file. -/
def writeText (t : FileTree) (p : Path) (text : String) : Except FileFault FileTree :=
  match t.locate (dropSlashes p) with
  | .error e => .error e
  | .ok l =>
    if namesDirectory p then .error .isDirectory
    else
      match t.get? l with
      | some .directory => .error .isDirectory
      | _ => .ok (t.put l (.file (.text text)))

end FileTree

end StoryManifest
