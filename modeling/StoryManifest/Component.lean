import StoryManifest.Discovery
import StoryManifest.Manifest.Record
import StoryManifest.Story.Reading

/-!
Components. A component is a directory with a story in it and an implementation that has the name of
the directory. A component whose story cannot be read or that has no implementation is skipped, with a
diagnostic that says why.
-/

namespace StoryManifest

/-- What the components of a manifest are made from. -/
structure BuildSettings where
  directory : Path
  version : String := "1.0.0"
  baseDir : String := "./components"
  exclusion : Ignore.Exclusion := { }
  deriving Repr

/-- Why a component is skipped. -/
inductive SkipReason where
  | missingSource (expected : String)
  | unreadable (fault : FileFault)
  | unusable (fault : Story.StoryFault)
  deriving DecidableEq, Repr

namespace SkipReason

/-- What is reported when the component of a story was asked for. -/
def message (story : Path) : SkipReason → String
  | .missingSource expected => "No implementation file " ++ expected ++ " next to " ++ story
  | .unreadable fault => "Failed to read " ++ story ++ ": " ++ fault.message
  | .unusable fault => story ++ ": " ++ fault.message

/-- The diagnostic without its file. -/
def bareDiagnostic : SkipReason → Diagnostic
  | .missingSource expected =>
    ⟨.missingSibling, none, none, "no implementation file " ++ expected⟩
  | .unreadable fault => ⟨.readError, none, none, fault.message⟩
  | .unusable (.broken fault) =>
    ⟨.syntaxError, none, some fault.line, "column " ++ toString fault.column ++ ": " ++ fault.detail⟩
  | .unusable (.unreadable fault) => ⟨.readError, none, none, fault.message⟩
  | .unusable (.unknownExtension extension) =>
    ⟨.syntaxError, none, none, (Story.StoryFault.unknownExtension extension).message⟩

/-- The diagnostic for a skipped story. -/
def diagnostic (story : Path) (reason : SkipReason) : Diagnostic := reason.bareDiagnostic.inFile story

end SkipReason

namespace Component

/-! ### The implementation -/

/-- The directory of a story. -/
def directoryOf (story : Path) : Path := (Path.parent? story).getD ""

/-- The name of the directory of a story; empty where it has none. -/
def nameOf (story : Path) : String := (Path.fileName? (directoryOf story)).getD ""

/-- The names that the implementation may have. -/
def expectedSource (name : String) : String :=
  name ++ ".\x7b" ++ ",".intercalate Story.sourceExtensions ++ "\x7d"

/-- The implementation of a component next to a story. -/
def source? (t : FileTree) (story : Path) : Option Path :=
  let name := nameOf story
  if name = "" then none
  else
    let directory := Path.tidy (directoryOf story)
    (Story.sourceExtensions.map fun extension => Path.join directory (name ++ "." ++ extension)).find?
      t.isFile

/-- The implementation of a component, which must not be missing. -/
def source (t : FileTree) (story : Path) : Except SkipReason Path :=
  match source? t story with
  | some p => .ok p
  | none => .error (.missingSource (expectedSource (nameOf story)))

/-- The path of a file as the manifest shows it: from the directory of components on. -/
def includePath (directory file : Path) : String :=
  "./" ++ "/".intercalate ((Path.steps ((Path.below? directory file).getD file)).map Path.Step.text)

/-! ### The record -/

/-- The module reference for a file. -/
def moduleReference (file : String) : String := "require('" ++ file ++ "').default"

/-- The record of a component with a name, an implementation and properties. -/
def recordOf (s : BuildSettings) (name : String) (file : Path) (props : List Property) :
    ComponentRecord :=
  let shown := includePath s.directory file
  { name := componentName name
    version := s.version
    displayName := displayName name
    baseDir := s.baseDir
    module := moduleReference shown
    files := [shown]
    props := props
    packages := [] }

/-- The record of the component of a story, with the diagnostics for the story. -/
def assemble (t : FileTree) (s : BuildSettings) (story : Path) :
    Except SkipReason (ComponentRecord × List Diagnostic) := do
  let file ← source t story
  let v ← (Story.variantOf story).mapError .unusable
  let text ← (t.readText story).mapError .unreadable
  let program ← (Story.programOf v text).mapError .unusable
  let extraction := Story.extractIn story program
  return (recordOf s (nameOf story) file extraction.properties, extraction.diagnostics)

end Component

end StoryManifest
