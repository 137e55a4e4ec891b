import StoryManifest.Command.Check
import StoryManifest.Command.Generate
import StoryManifest.Command.Inspect
import StoryManifest.Watch.Session

/-!
Running a command on the files of a project.
-/

namespace StoryManifest.Command

/-- The root of the project: the one that was given, else the current directory. -/
def rootOf (t : FileTree) (i : CommandLine.Invocation) : Path := i.root.getD t.current.toPath

/-- Runs a command; of watching, only the start. -/
def run (t : FileTree) (i : CommandLine.Invocation) : Outcome :=
  let root := rootOf t i
  match i.command with
  | .generate dryRun strict common => generate t root dryRun strict common
  | .inspect story => inspect t root story
  | .check strict common => check t root strict common
  | .watch _ _ common => Watch.start t root common

end StoryManifest.Command
