import StoryManifest.Glob.Matching
import StoryManifest.Text.Space

/-!
Rules about which files to leave out, one on a line. A rule has a glob pattern for paths, relative to
the directory that the rules are for; a pattern that names no directory fits at any depth. A rule with
an exclamation mark keeps what it matches, and one with a slash at the end is about directories only.
The last rule that matches decides.
-/

namespace StoryManifest.Ignore

/-- A rule. -/
structure Rule where
  keeps : Bool
  directoriesOnly : Bool
  parts : List Glob.Part
  deriving Repr

/-- What rules say about a path. -/
inductive Verdict where
  | ignored
  | kept
  deriving DecidableEq, Repr

namespace Rule

/-- The body of a rule without the slash that ties it to directories. -/
def dropDirectoryMark (body : List Char) : List Char :=
  match body.reverse with
  | '/' :: '\\' :: back => back.reverse
  | '/' :: back => back.reverse
  | _ => body

/-- The pattern of a rule that names no directory fits at any depth. -/
def atAnyDepth (anchored : Bool) (body : List Char) : List Char :=
  if anchored || '/' ∈ body || body = ['*', '*'] then body else '*' :: '*' :: '/' :: body

/-- All in a directory does not include the directory. -/
def insideOnly (pattern : List Char) : List Char :=
  if ['/', '*', '*'].isSuffixOf pattern then pattern ++ ['/', '*'] else pattern

/-- The rule of a body. A slash at its start ties the pattern to the top. -/
def ofBody? (lenient keeps : Bool) (body : List Char) : Option Rule :=
  let anchored := body.head? = some '/'
  let body := if anchored then body.tail else body
  let pattern := insideOnly (atAnyDepth anchored (dropDirectoryMark body))
  (Glob.partsOf? lenient (String.ofList pattern)).map (⟨keeps, body.getLast? = some '/', ·⟩)

/-- The line without the blanks at its end; a blank behind a backslash protects them. -/
def trimLine (line : List Char) : List Char :=
  if ['\\', ' '].isSuffixOf line then line else Text.trimEnd line

/-- The rule on a line. Empty lines and comments hold none, nor does a line with a broken pattern. -/
def ofLine? (line : List Char) : Option Rule :=
  match trimLine line with
  | [] => none
  | '#' :: _ => none
  | '\\' :: '#' :: body => ofBody? true false ('#' :: body)
  | '\\' :: '!' :: body => ofBody? true false ('!' :: body)
  | '!' :: body => ofBody? true true body
  | body => ofBody? true false body

/-- The rule of a pattern for what to leave out. -/
def ofPattern? (pattern : String) : Option Rule :=
  ofBody? false false (trimLine pattern.toList)

/-- A rule matches a path. -/
def covers (r : Rule) (directory : Bool) (path : String) : Bool :=
  (directory || !r.directoriesOnly) && Glob.covers true r.parts path

end Rule

/-! ### Rows of rules -/

/-- The lines of a text. A mark of the byte order at its start does not count. -/
def linesOf (text : String) : List (List Char) :=
  let lines := text.toList.dropWhile (· = '\uFEFF')
  (lines.splitOn '\n').map fun line =>
    if line.getLast? = some '\x0d' then line.dropLast else line

/-- The rules in a text. -/
def rulesOf (text : String) : List Rule := (linesOf text).filterMap Rule.ofLine?

/-- What rules say about a path: the last one that matches decides. -/
def verdict? (rules : List Rule) (directory : Bool) (path : String) : Option Verdict :=
  (rules.reverse.find? (·.covers directory path)).map fun r => if r.keeps then .kept else .ignored

end StoryManifest.Ignore
