import StoryManifest.Command.Run
import StoryManifest.CommandLine.Help
import StoryManifest.Watch.Observation

/-!
The command line. The files that a command may look at are observed first; the command runs on what was
observed, and what it changed there is then written.
-/

namespace StoryManifest.Program

/-! ### Observing files -/

/-- The names of the current directory. -/
def currentLocation : IO Location := do
  return (Path.steps (← IO.currentDir).toString).filterMap fun
    | .name name => some name
    | _ => none

/-- The content of a file. -/
def contentAt (p : Path) : IO Content := do
  return .ofBytes (← IO.FS.readBinFile p).toList

/-- What is at a location. The content of a file is read if it is needed. -/
def nodeAt? (l : Location) (content : Bool) : IO (Option FileNode) := do
  let file := (← IO.currentDir) / l.toPath
  try
    match (← file.metadata).type with
    | .dir => return some .directory
    | _ => return some (.file (← if content then contentAt l.toPath else pure (.text "")))
  catch _ => return none

/-- Observes a location. -/
def observe (t : FileTree) (l : Location) (content : Bool) : IO FileTree := do
  match ← nodeAt? l content with
  | some node => return t.put l node
  | none => return t

/-- Observes a location and all that it is in. -/
def observeAlong (t : FileTree) (l : Location) : IO FileTree := do
  let mut t := t
  for count in [1 : l.length + 1] do
    t ← observe t (l.take count) (count = l.length)
  return t

/-- The locations that a path leads through. -/
def locationsOf (start : Location) (p : Path) : List Location :=
  let pieces := Path.splitSlash p.toList
  let first := if Path.isAbsolute p then [] else start
  (pieces.foldl (fun (found, l) piece =>
    let l := if Path.isIdle piece then l
      else if piece = ['.', '.'] then l.dropLast
      else l ++ [String.ofList piece]
    (found ++ [l], l)) ([first], first)).1

/-- Observes all that a path leads through. -/
def observePath (t : FileTree) (p : Path) : IO FileTree := do
  let mut t := t
  for l in locationsOf t.current p do
    t ← observeAlong t l
  return t

/-- Observes the files with rules for a directory. -/
def observeRules (t : FileTree) (l : Location) : IO FileTree := do
  let mut t := t
  for source in [Ignore.Source.ignoreFile, .versionControlFile, .repositoryFile] do
    t ← observeAlong t (source.location l)
  return t

/-- Observes the files below a directory. Only the content of stories is read. -/
partial def observeBelow (t : FileTree) (l : Location) : IO FileTree := do
  let directory := (← IO.currentDir) / l.toPath
  let mut t ← observeRules t l
  for entry in ← directory.readDir do
    let inner := l ++ [entry.fileName]
    match (← entry.path.symlinkMetadata).type with
    | .dir =>
      t := t.put inner .directory
      if !Ignore.isGeneratedDirectory entry.fileName then t ← observeBelow t inner
    | .file =>
      if (t.get? inner).isNone then t ← observe t inner (Story.isStoryName entry.fileName)
    | _ => pure ()
  return t

/-- Observes the directory of components, if there is one. -/
def observeComponents (t : FileTree) (p : Path) : IO FileTree := do
  let mut t ← observePath t p
  match t.locate p with
  | .error _ => return t
  | .ok base =>
    if t.get? base = some .directory then
      for count in [0 : base.length] do
        t ← observeRules t (base.take count)
      observeBelow t base
    else return t

/-- Observes what a build looks at. -/
def observeProject (t : FileTree) (root : Path) (o : CommandLine.CommonOptions) : IO FileTree := do
  let t ← observePath t (Path.join root Configuration.fileName)
  let c := Configuration.load t root
  let t ← observeComponents t (o.settings root c).directory
  observePath t (o.outputPath root c)

/-- Observes what a command looks at. -/
def observeFor (i : CommandLine.Invocation) : IO FileTree := do
  let t : FileTree := { FileTree.empty with current := ← currentLocation }
  let t ← observeAlong t t.current
  let root := Command.rootOf t i
  match i.command with
  | .generate _ _ o => observeProject t root o
  | .check _ o => observeProject t root o
  | .inspect story => observePath t (Path.join root story)
  | .watch _ _ o =>
    let t ← observePath t root
    observeProject t (Watch.watchedRoot t root) o

/-! ### Acting -/

/-- Writes a node. -/
def write (entry : Location × FileNode) : IO Unit :=
  match entry with
  | (l, .directory) => IO.FS.createDirAll l.toPath
  | (l, .file (.text s)) => IO.FS.writeFile l.toPath s
  | (_, .file (.damaged _)) => pure ()

/-- Writes what a command changed and prints what it has to say. -/
def carryOut (earlier : FileTree) (quiet : Bool) (o : Command.Outcome) : IO Unit := do
  for entry in Watch.news earlier o.tree do
    write entry
  IO.print o.printed
  (← IO.getStdout).flush
  if !quiet then
    for warning in o.warnings do
      IO.eprintln ("WARN " ++ warning)
  IO.eprint (o.notes ++ o.report)

/-! ### Watching -/

/-- Moves to the top of an empty screen. -/
def clearScreen : String := "\x1b[2J\x1b[1;1H"

/-- How long to wait between observations, in milliseconds. -/
def pollInterval : UInt32 := 50

/-- Watches for changes for ever. What a build has changed is seen like any other change. -/
partial def watch (debounce : Nat) (clear quiet : Bool) (s : Watch.Session) (last : Nat) : IO Unit := do
  IO.sleep pollInterval
  let start : FileTree := { FileTree.empty with current := s.tree.current }
  let later ← observeProject start s.root s.options
  let later ← observeComponents later s.filter.directory
  let now ← IO.monoMsNow
  let last := if (Watch.eventsBetween s.tree later).any (·.matters s.filter) then now else last
  let s := s.observe later
  if !s.pending.isEmpty && debounce ≤ now - last then
    if clear then IO.print clearScreen
    carryOut s.tree quiet s.rebuild
    watch debounce clear quiet { s with pending := [] } last
  else watch debounce clear quiet s last

/-- Watches after a first build that succeeded, given the files before and after it. -/
def watchOn (i : CommandLine.Invocation) (t built : FileTree) : IO Unit := do
  match i.command with
  | .watch debounce clear o =>
    IO.println "Watching for changes... (press Ctrl+C to stop)"
    (← IO.getStdout).flush
    watch debounce clear i.quiet (.opening t (Command.rootOf t i) o built) (← IO.monoMsNow)
  | _ => pure ()

/-- Runs a command line. -/
def runArguments (arguments : List String) : IO UInt32 := do
  match CommandLine.parse arguments with
  | .error fault =>
    if fault.exitCode = 0 then IO.print fault.answer else IO.eprint fault.answer
    return fault.exitCode.toUInt32
  | .ok i =>
    let t ← observeFor i
    let o := Command.run t i
    carryOut t i.quiet o
    if o.succeeds then watchOn i t o.tree
    return o.exitCode.toUInt32

end StoryManifest.Program

/-- The program. -/
def main (arguments : List String) : IO UInt32 := StoryManifest.Program.runArguments arguments
