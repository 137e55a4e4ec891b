import StoryManifest.Command.Outcome

/-!
Inspecting one story: its properties are printed, whether it belongs to a component or not.
-/

namespace StoryManifest.Command

/-- Prints the properties of a story. -/
def inspect (t : FileTree) (root story : Path) : Outcome :=
  let file := Path.join root story
  match Story.extractFile t file with
  | .error fault => { tree := t, fault := some (.cannotExtract file fault) }
  | .ok e =>
    let warnings := e.diagnostics.map Diagnostic.text
    match Json.pretty (.list (e.properties.map Property.toValue)) with
    | some text => { tree := t, printed := line text, warnings }
    | none => { tree := t, warnings, fault := some .notStatic }

end StoryManifest.Command
