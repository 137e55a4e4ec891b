import StoryManifest.FileTree
import StoryManifest.Toml.Reader

/-!
The settings of a project. A settings file may give any of them; what it does not give has a default.
A file that cannot be read, or that gives a setting of the wrong type, does not count.
-/

namespace StoryManifest

/-- The settings of a project. -/
structure Configuration where
  componentsDir : Path := "components"
  output : Path := "wmprefab.config.json"
  version : String := "1.0.0"
  baseDir : String := "./components"
  exclude : List String := []
  deriving DecidableEq, Repr

namespace Configuration

/-- The name of the settings file. -/
def fileName : String := "prefab.toml"

/-- A text, if it is one. -/
def textOf? : Toml.Item → Option String
  | .text s => some s
  | _ => none

/-- A list of texts, if it is one. -/
def textsOf? : Toml.Item → Option (List String)
  | .list items => items.mapM textOf?
  | _ => none

/-- A setting of a table, read by its type; the default where there is none. -/
def setting? {α : Type} (t : Toml.Table) (key : String) (read : Toml.Item → Option α) (default : α) :
    Option α :=
  match t.find? key with
  | some item => read item
  | none => some default

/-- The settings in a table. -/
def ofTable? (t : Toml.Table) : Option Configuration := do
  let d : Configuration := { }
  return {
    componentsDir := ← setting? t "components_dir" textOf? d.componentsDir
    output := ← setting? t "output" textOf? d.output
    version := ← setting? t "version" textOf? d.version
    baseDir := ← setting? t "base_dir" textOf? d.baseDir
    exclude := ← setting? t "exclude" textsOf? d.exclude }

/-- The settings in a text. -/
def ofText (text : String) : Configuration := ((Toml.parse? text).bind ofTable?).getD { }

/-- The settings of a project with a root. -/
def load (t : FileTree) (root : Path) : Configuration :=
  match t.readText (Path.join root fileName) with
  | .ok text => ofText text
  | .error _ => { }

end Configuration

end StoryManifest
