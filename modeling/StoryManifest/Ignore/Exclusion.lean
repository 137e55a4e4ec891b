import StoryManifest.Ignore.Rule
import StoryManifest.FileTree

/-!
What a search for files leaves out. Directories that never hold sources and what given patterns match
are always left out; else the ignore files of the directories around a file decide, the nearest one that
says something first.
-/

namespace StoryManifest.Ignore

/-- Directories that never hold sources. -/
def generatedDirectories : List String :=
  ["node_modules", ".git", "dist", "build", "coverage", "storybook-static", ".storybook", ".next",
    ".turbo", ".cache"]

/-- The name of a directory that never holds sources. -/
def isGeneratedDirectory (name : String) : Bool := name ∈ generatedDirectories

/-- A path leads through a directory that never holds sources. -/
def inGeneratedDirectory (p : Path) : Bool :=
  (Path.steps p).any fun step => isGeneratedDirectory step.text

/-- What to leave out: patterns, and perhaps what version control leaves out. -/
structure Exclusion where
  patterns : List String := []
  versionControl : Bool := true
  deriving Repr

namespace Exclusion

/-- The patterns for directories that never hold sources. -/
def generatedPatterns : List String := generatedDirectories.flatMap fun name => [name ++ "/**", name]

/-- The rules that always hold. Patterns that are broken do not count. -/
def rules (x : Exclusion) : List Rule := (generatedPatterns ++ x.patterns).filterMap Rule.ofPattern?

/-- A path below the directory that is searched is always left out. -/
def omits (x : Exclusion) (directory : Bool) (path : String) : Bool :=
  x.rules.any (·.covers directory path)

end Exclusion

/-! ### Ignore files -/

/-- The files that hold rules for a directory. -/
inductive Source where
  | ignoreFile
  | versionControlFile
  | repositoryFile
  deriving DecidableEq, Repr

/-- Where a file with rules for a directory is. -/
def Source.location (directory : Location) : Source → Location
  | .ignoreFile => directory ++ [".ignore"]
  | .versionControlFile => directory ++ [".gitignore"]
  | .repositoryFile => directory ++ [".git", "info", "exclude"]

/-- The files with rules that count, those that go before the others first. -/
def Exclusion.sources (x : Exclusion) : List Source :=
  .ignoreFile :: if x.versionControl then [.versionControlFile, .repositoryFile] else []

/-- The rules for a directory in one of its files. -/
def rulesAt (t : FileTree) (s : Source) (directory : Location) : List Rule :=
  match t.intactText? (s.location directory) with
  | some text => rulesOf text
  | none => []

/-- What the rules of a directory say about a location below it, which is given by the names from the
directory on. -/
def verdictAt? (t : FileTree) (s : Source) (isDirectory : Bool) (directory : Location)
    (names : List String) : Option Verdict :=
  Ignore.verdict? (rulesAt t s directory) isDirectory ("/".intercalate names)

/-- What the rules around a location say about it: those of the nearest directory that say something.
The directory comes as its names from the innermost one out, and the names below it follow. -/
def nearestVerdict? (t : FileTree) (s : Source) (isDirectory : Bool) :
    List String → List String → Option Verdict
  | [], names => verdictAt? t s isDirectory [] names
  | name :: outer, names =>
    (verdictAt? t s isDirectory (name :: outer).reverse names).or
      (nearestVerdict? t s isDirectory outer (name :: names))

/-- Files with rules leave a location out. -/
def ignores (t : FileTree) (x : Exclusion) (isDirectory : Bool) (l : Location) : Bool :=
  let verdict := x.sources.findSome? fun s =>
    match l.reverse with
    | [] => none
    | name :: outer => nearestVerdict? t s isDirectory outer [name]
  verdict = some .ignored

/-! ### Searching -/

/-- A step of a search goes to a name below the directory that is searched. -/
def enters (t : FileTree) (x : Exclusion) (base : Location) (isDirectory : Bool)
    (names : List String) : Bool :=
  !x.omits isDirectory ("/".intercalate names) && !ignores t x isDirectory (base ++ names)

/-- A search goes from the directory that is searched to a file, and through all between them. -/
def reaches (t : FileTree) (x : Exclusion) (base : Location) : List String → List String → Bool
  | _, [] => true
  | above, name :: names =>
    enters t x base (!names.isEmpty) (above ++ [name]) && reaches t x base (above ++ [name]) names

/-- The files below a directory, by their names from the directory on. -/
def filesBelow (t : FileTree) (base : Location) : List (List String) :=
  t.nodes.filterMap fun (l, node) =>
    match node with
    | .directory => none
    | .file _ => if base.isPrefixOf l then some (l.drop base.length) else none

end StoryManifest.Ignore
