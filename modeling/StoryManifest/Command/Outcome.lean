import StoryManifest.Build

/-!
What a command leaves behind: the files, the text it prints, warnings and notes, and the fault that
ended it, if one did.
-/

namespace StoryManifest.Command

/-- Why a command failed. -/
inductive Fault where
  | noComponents (directory : Path)
  | notStatic
  | cannotCreate (directory : Path) (fault : FileFault)
  | cannotWrite (file : Path) (fault : FileFault)
  | cannotRead (file : Path) (fault : FileFault)
  | cannotExtract (story : Path) (fault : Story.StoryFault)
  | noManifest (file : Path)
  | stale (file : Path)
  | skipped (count : Nat)
  deriving DecidableEq, Repr

namespace Fault

/-- What is reported when the directory of components is missing. -/
def missingDirectory (directory : Path) : String := "Components directory not found: " ++ directory

/-- What is reported of a fault. -/
def message : Fault → String
  | .noComponents directory => "Failed to build manifest: " ++ missingDirectory directory
  | .notStatic => "Failed to serialize manifest"
  | .cannotCreate directory fault => "Failed to create " ++ directory ++ ": " ++ fault.message
  | .cannotWrite file fault => "Failed to write " ++ file ++ ": " ++ fault.message
  | .cannotRead file fault => "Failed to read " ++ file ++ ": " ++ fault.message
  | .cannotExtract story fault => "Failed to extract " ++ story ++ ": " ++ fault.fullMessage
  | .noManifest file => "Manifest not found at " ++ file ++ "; run \x60prefab-manifest generate\x60"
  | .stale file => "Manifest is stale: " ++ file
  | .skipped count => toString count ++ " components were skipped"

end Fault

/-- What a command leaves behind. Notes go where warnings and faults go. -/
structure Outcome where
  tree : FileTree
  printed : String := ""
  warnings : List String := []
  notes : String := ""
  fault : Option Fault := none
  deriving Repr

namespace Outcome

/-- The command succeeded. -/
def succeeds (o : Outcome) : Bool := o.fault.isNone

/-- The exit code. -/
def exitCode (o : Outcome) : Nat := if o.succeeds then 0 else 1

/-- The report of the fault. -/
def report (o : Outcome) : String :=
  match o.fault with
  | some fault => "Error: " ++ fault.message ++ "\n"
  | none => ""

end Outcome

/-- Text as a line. -/
def line (text : String) : String := text ++ "\n"

/-- The fault of a strict command when components were skipped. -/
def strictFault (strict : Bool) (b : Build) : Option Fault :=
  if strict ∧ 0 < b.skipped then some (.skipped b.skipped) else none

/-- A build with the text of its manifest. -/
def builtText (t : FileTree) (s : BuildSettings) : Except Fault (Build × String) :=
  match Build.of? t s with
  | none => .error (.noComponents s.directory)
  | some b =>
    match b.manifest.text? with
    | some text => .ok (b, text)
    | none => .error .notStatic

end StoryManifest.Command
