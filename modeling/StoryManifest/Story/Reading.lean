import StoryManifest.Story.Merge
import StoryManifest.FileTree

/-!
Reading stories from files. The extension of a file says in which variant its source is written.
-/

namespace StoryManifest.Story

/-- Why a story could not be read. -/
inductive StoryFault where
  | unknownExtension (extension : String)
  | unreadable (fault : FileFault)
  | broken (fault : Source.SyntaxFault)
  deriving DecidableEq, Repr

namespace StoryFault

/-- What is reported of a fault. -/
def message : StoryFault → String
  | .unknownExtension extension => "Unsupported story extension: " ++ extension
  | .unreadable fault => "Failed to read file: " ++ fault.message
  | .broken fault => fault.message

/-- What is reported of a fault together with its cause. -/
def fullMessage : StoryFault → String
  | .unreadable fault => message (.unreadable fault) ++ ": " ++ fault.message
  | fault => fault.message

end StoryFault

/-- The variant in which a file is written. -/
def variantOf (p : Path) : Except StoryFault Source.Variant :=
  let extension := (Path.extension? p).getD ""
  match Source.Variant.ofExtension? extension with
  | some v => .ok v
  | none => .error (.unknownExtension extension)

/-- The program in a text. -/
def programOf (v : Source.Variant) (text : String) : Except StoryFault Source.Program :=
  (Source.Program.ofText v text).mapError .broken

/-- The program in a file. -/
def readProgram (t : FileTree) (p : Path) : Except StoryFault Source.Program := do
  let v ← variantOf p
  let text ← (t.readText p).mapError .unreadable
  programOf v text

/-- What a story declares, with diagnostics that name its file. -/
def extractIn (p : Path) (program : Source.Program) : Extraction :=
  let e := extract program
  { e with diagnostics := e.diagnostics.map (·.inFile p) }

/-- What the story in a file declares. -/
def extractFile (t : FileTree) (p : Path) : Except StoryFault Extraction :=
  (readProgram t p).map (extractIn p)

end StoryManifest.Story
