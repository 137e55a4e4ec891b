import StoryManifest.Component

/-!
Building a manifest from all the stories below a directory. Only a missing directory ends the work;
stories that cannot be used are skipped.
-/

namespace StoryManifest

/-- A manifest with what was noted while it was made. -/
structure Build where
  manifest : Manifest := .empty
  skipped : Nat := 0
  diagnostics : List Diagnostic := []
  repeated : List String := []
  deriving Repr

namespace Build

/-- Adds the component of a story, or the reason for which it is skipped. -/
def add (b : Build) (story : Path) : Except SkipReason (ComponentRecord × List Diagnostic) → Build
  | .ok (record, diagnostics) =>
    { b with
      manifest := b.manifest.push record
      diagnostics := b.diagnostics ++ diagnostics
      repeated := b.repeated ++ if (b.manifest.get? record.name).isSome then [record.name] else [] }
  | .error reason =>
    { b with
      skipped := b.skipped + 1
      diagnostics := b.diagnostics ++ [reason.diagnostic story] }

/-- Builds a manifest from stories. -/
def ofStories (t : FileTree) (s : BuildSettings) (stories : List Path) : Build :=
  stories.foldl (fun b story => b.add story (Component.assemble t s story)) { }

/-- Builds a manifest; none without a directory of components. -/
def of? (t : FileTree) (s : BuildSettings) : Option Build :=
  (discover? t s.exclusion s.directory).map (ofStories t s)

/-- How many diagnostics do not tell of a skipped component. -/
def warningCount (b : Build) : Nat :=
  (b.diagnostics.filter fun d => !d.kind.skipsComponent).length

/-- The line that sums up a build. -/
def summary (b : Build) : String :=
  "Components: " ++ toString b.manifest.components.length ++ ", Skipped: " ++ toString b.skipped ++
    ", Warnings: " ++ toString b.warningCount

/-- The warning for a name that several components have. -/
def repeatWarning (name : String) : String :=
  "several story files share a component name component=" ++ name

/-- The warnings of a build, repeated names first. -/
def warnings (b : Build) : List String :=
  b.repeated.map repeatWarning ++ b.diagnostics.map Diagnostic.text

end Build

end StoryManifest
