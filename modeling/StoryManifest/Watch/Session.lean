import StoryManifest.Command.Generate
import StoryManifest.Watch.Filter

/-!
Watching a project. Changes are collected until the manifest is built anew; of the changes to one file
the last one counts, but a file that was created stays so when it is modified.
-/

namespace StoryManifest.Watch

/-- What happened to a file. -/
inductive Change where
  | created
  | modified
  | deleted
  deriving DecidableEq, Repr

namespace Change

/-- The name of a change. -/
def label : Change → String
  | .created => "Created"
  | .modified => "Modified"
  | .deleted => "Deleted"

/-- A change after another one. -/
def after (earlier later : Change) : Change :=
  match earlier, later with
  | .created, .modified => .created
  | _, later => later

end Change

/-- The changes that wait, by their files. -/
abbrev Pending := List (Path × Change)

namespace Pending

/-- Adds a change to a file. -/
def record (change : Change) (p : Path) : Pending → Pending
  | [] => [(p, change)]
  | (q, earlier) :: rest =>
    if Path.same q p then (q, Change.after earlier change) :: rest
    else (q, earlier) :: record change p rest

/-- The changes in the order of their files. -/
def sorted (w : Pending) : Pending := w.mergeSort fun a b => Path.le a.1 b.1

end Pending

/-- What is reported to have happened to files; some reports do not tell of changes. -/
structure Event where
  change : Option Change
  paths : List Path
  deriving Repr

/-- Collects the changes of an event that matter. -/
def Pending.add (f : Filter) (w : Pending) (e : Event) : Pending :=
  match e.change with
  | some change => (e.paths.filter f.isRelevant).foldl (fun w p => w.record change p) w
  | none => w

/-- An event tells of a change that matters. -/
def Event.matters (f : Filter) (e : Event) : Bool :=
  e.change.isSome && e.paths.any f.isRelevant

/-! ### Building anew -/

/-- The line for a change, with the path from the root on. -/
def changeLine (root : Path) (p : Path) (change : Change) : String :=
  Command.line (change.label ++ ": " ++ (Path.below? root p).getD p)

/-- The lines for changes in the order of their files. -/
def changeText (root : Path) (w : Pending) : String :=
  String.join (w.sorted.map fun (p, change) => changeLine root p change)

/-- Builds the manifest anew after changes, with the settings as they are by now. A failure prints
nothing. -/
def rebuild (t : FileTree) (root : Path) (o : CommandLine.CommonOptions) (w : Pending) :
    Command.Outcome :=
  let outcome := Command.generate t root false false o
  { outcome with printed := changeText root w ++ outcome.printed }

/-! ### Starting -/

/-- The root that is watched: an absolute path without detours, if there is one. -/
def watchedRoot (t : FileTree) (root : Path) : Path := (t.canonical? root).getD root

/-- Builds the manifest for the first time. -/
def start (t : FileTree) (root : Path) (o : CommandLine.CommonOptions) : Command.Outcome :=
  let outcome := Command.generate t (watchedRoot t root) false false o
  { outcome with printed := Command.line "Running initial generation..." ++ outcome.printed }

/-! ### Running -/

/-- A watch that runs: the files as they were seen last and the changes that wait. Which changes matter is
settled at its start. -/
structure Session where
  root : Path
  options : CommandLine.CommonOptions
  filter : Filter
  tree : FileTree
  pending : Pending := []

namespace Session

/-- A watch after its first build, with the files that this has left. The settings are those from before. -/
def opening (t : FileTree) (root : Path) (o : CommandLine.CommonOptions) (built : FileTree) : Session :=
  let root := watchedRoot t root
  { root, options := o, filter := .ofOptions root o (Configuration.load t root), tree := built }

/-- Collects the changes of an event that matter. -/
def add (s : Session) (e : Event) : Session := { s with pending := s.pending.add s.filter e }

/-- Builds the manifest anew after the changes that wait. -/
def rebuild (s : Session) : Command.Outcome := Watch.rebuild s.tree s.root s.options s.pending

end Session

end StoryManifest.Watch
