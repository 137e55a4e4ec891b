import StoryManifest.CommandLine.Invocation
import StoryManifest.Glob.Matching

/-!
Which changed files matter. The manifest itself never does, and the settings of the project always do;
else stories, implementations and directories among the components matter, unless they are left out.
-/

namespace StoryManifest.Watch

/-- Patterns for paths to leave out, in which stars go across slashes. -/
def excludedParts (patterns : List String) : List (List Glob.Part) :=
  patterns.filterMap (Glob.partsOf? false)

/-- A path matches one of the patterns. -/
def isExcluded (patterns : List String) (path : String) : Bool :=
  (excludedParts patterns).any fun parts => Glob.covers false parts path

/-- What is watched. -/
structure Filter where
  directory : Path
  settings : Path
  output : Path
  patterns : List String
  deriving Repr

namespace Filter

/-- What is watched for a project. -/
def ofOptions (root : Path) (o : CommandLine.CommonOptions) (c : Configuration) : Filter :=
  let s := o.settings root c
  { directory := s.directory
    settings := Path.join root Configuration.fileName
    output := o.outputPath root c
    patterns := s.exclusion.patterns }

/-- A changed file among the components matters. -/
def admits (f : Filter) (p : Path) (rest : Path) : Bool :=
  !Ignore.inGeneratedDirectory rest && !isExcluded f.patterns rest &&
    (Story.isStoryFile p || Story.isSourceFile p || (Path.extension? p).isNone)

/-- A changed file matters. -/
def isRelevant (f : Filter) (p : Path) : Bool :=
  if Path.same p f.output then false
  else if Path.same p f.settings then true
  else
    match Path.below? f.directory p with
    | some rest => f.admits p rest
    | none => false

end Filter

end StoryManifest.Watch
