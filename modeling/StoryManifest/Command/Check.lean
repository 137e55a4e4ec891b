import StoryManifest.Command.Outcome
import StoryManifest.CommandLine.Invocation
import StoryManifest.Manifest.Comparison
import StoryManifest.Manifest.Reader

/-!
Checking whether a manifest is up to date: its text has to be the one that would be written now. Where
it is not, the differences are printed component by component.
-/

namespace StoryManifest.Command

/-- One line for each name. -/
def nameLines (label : String) (names : List String) : String :=
  String.join (names.map fun name => line (label ++ ": " ++ name))

/-- The differences of manifests, as text. Where no component differs, order or format does. -/
def comparisonText (c : Comparison) : String :=
  nameLines "added" c.added ++ nameLines "removed" c.removed ++ nameLines "changed" c.changed ++
    if c.isEmpty then line "changed: component order or formatting" else ""

/-- How the text of a manifest file differs from what is expected. -/
def differenceText (file : Path) (text expected : String) (m : Manifest) : String :=
  if text = expected then ""
  else
    match Manifest.ofText text with
    | .ok current => comparisonText (Comparison.of current m)
    | .error _ => line ("changed: " ++ file ++ " is not a valid manifest")

/-- Compares a manifest file with a build. -/
def checkFile (t : FileTree) (output : Path) (strict : Bool) (b : Build) (expected : String) :
    Outcome :=
  if !t.holds output then { tree := t, warnings := b.warnings, fault := some (.noManifest output) }
  else
    match t.readText output with
    | .error fault => { tree := t, warnings := b.warnings, fault := some (.cannotRead output fault) }
    | .ok text =>
      let fault := if text = expected then strictFault strict b else some (.stale output)
      { tree := t
        printed := differenceText output text expected b.manifest ++ line b.summary ++
          if fault.isNone then line "Manifest is up to date" else ""
        warnings := b.warnings
        fault }

/-- Checks the manifest of a project. -/
def check (t : FileTree) (root : Path) (strict : Bool) (o : CommandLine.CommonOptions) : Outcome :=
  let c := Configuration.load t root
  match builtText t (o.settings root c) with
  | .error fault => { tree := t, fault := some fault }
  | .ok (b, expected) => checkFile t (o.outputPath root c) strict b expected

end StoryManifest.Command
