import StoryManifest.Command.Outcome
import StoryManifest.CommandLine.Invocation

/-!
Generating a manifest. It is written as a whole once all stories were looked at, together with the
directories it is in; a dry run prints it instead.
-/

namespace StoryManifest.Command

/-- Writes a file, with the directories it is in. -/
def writeFile (t : FileTree) (file : Path) (text : String) : FileTree × Option Fault :=
  let parent := (Path.parent? file).getD ""
  match t.makePath parent with
  | (t, some fault) => (t, some (.cannotCreate parent fault))
  | (t, none) =>
    match t.writeText file text with
    | .ok t => (t, none)
    | .error fault => (t, some (.cannotWrite file fault))

/-- Builds a manifest and writes it. What is printed follows the warnings and the file. -/
def writeManifest (t : FileTree) (s : BuildSettings) (output : Path) (strict : Bool) : Outcome :=
  match builtText t s with
  | .error fault => { tree := t, fault := some fault }
  | .ok (b, text) =>
    match writeFile t output text with
    | (t, some fault) => { tree := t, warnings := b.warnings, fault := some fault }
    | (t, none) =>
      { tree := t
        printed := line b.summary
        warnings := b.warnings
        fault := strictFault strict b }

/-- Builds a manifest and prints it. -/
def printManifest (t : FileTree) (s : BuildSettings) (strict : Bool) : Outcome :=
  match builtText t s with
  | .error fault => { tree := t, fault := some fault }
  | .ok (b, text) =>
    { tree := t
      printed := text
      warnings := b.warnings
      notes := line b.summary
      fault := strictFault strict b }

/-- Generates the manifest of a project. -/
def generate (t : FileTree) (root : Path) (dryRun strict : Bool) (o : CommandLine.CommonOptions) :
    Outcome :=
  let c := Configuration.load t root
  if dryRun then printManifest t (o.settings root c) strict
  else writeManifest t (o.settings root c) (o.outputPath root c) strict

end StoryManifest.Command
