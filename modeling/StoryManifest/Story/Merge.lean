import StoryManifest.Story.Candidate
import StoryManifest.Property

/-!
Merging candidates into properties. A name keeps the place where it occurred first; each of its fields
takes the last value that any entry gave for it. A default value of the first part of metadata goes
before one of the second, a declared type before one inferred from the default value.
-/

namespace StoryManifest.Story

/-- What is known of a property so far. -/
structure Gathered where
  declaredType : Option PropertyType := none
  description : Option String := none
  argsDefault : Option Value := none
  argTypesDefault : Option Value := none

namespace Gathered

/-- The default value of the property. -/
def default (g : Gathered) : Option Value := g.argsDefault.or g.argTypesDefault

/-- The property with a name. -/
def toProperty (name : String) (g : Gathered) : Property :=
  { name
    type := (g.declaredType.or (g.default.bind PropertyType.ofValue?)).getD .unknown
    description := g.description
    default := g.default
    isList := (g.default.map Value.isList).getD false }

end Gathered

/-- The properties gathered so far, by name, and the diagnostics. -/
structure Merged where
  gathered : Fields Gathered := []
  diagnostics : List Diagnostic := []

/-- The diagnostic for a default value that could not be evaluated. -/
def omittedDefault (declaration : String) (e : CandidateEntry) (kind : String) : Diagnostic :=
  .unsupported e.line (declaration ++ "." ++ e.name ++ ": default value omitted, \x60" ++ kind ++
    "\x60 cannot be evaluated statically")

/-- A value as a default value, or the diagnostic for why it cannot be one. -/
def staticDefault (declaration : String) (e : CandidateEntry) (v : Value) :
    Option Value × List Diagnostic :=
  match v.unsupportedKind with
  | none => (some v, [])
  | some kind => (none, [omittedDefault declaration e kind])

/-- The type that a value declares: its text, or the text of its name. -/
def declaredType? : Value → Option PropertyType
  | .text name => PropertyType.ofDeclared? name
  | .record fields => ((Fields.find? "name" fields).bind Value.asText?).bind PropertyType.ofDeclared?
  | _ => none

/-- What messages call the shape of a value. -/
def shapeOf : Value → String
  | .unsupported kind => kind
  | v => ((PropertyType.ofValue? v).map PropertyType.name).getD "unknown"

/-- A later value replaces an earlier one; none leaves it. -/
def orKeep {α : Type} (later earlier : Option α) : Option α := later.or earlier

/-- What an entry adds to the property of its name, and the diagnostics for what it cannot add. -/
def update (part : Part) (declaration : String) (e : CandidateEntry) (g : Gathered) :
    Gathered × List Diagnostic :=
  match part with
  | .args =>
    let (default, diagnostics) := staticDefault declaration e e.value
    ({ g with argsDefault := orKeep default g.argsDefault }, diagnostics)
  | .argTypes =>
    match e.value with
    | .record fields =>
      let (default, diagnostics) :=
        match Fields.find? "defaultValue" fields with
        | some v => staticDefault declaration e v
        | none => (none, [])
      ({ g with
          declaredType := orKeep ((Fields.find? "type" fields).bind declaredType?) g.declaredType
          description :=
            orKeep ((Fields.find? "description" fields).bind Value.asText?) g.description
          argTypesDefault := orKeep default g.argTypesDefault }, diagnostics)
    | v => (g, [.unsupported e.line
        (declaration ++ "." ++ e.name ++ " is not an object literal (" ++ shapeOf v ++ ")")])

/-- Adds an entry of a candidate. -/
def Merged.addEntry (part : Part) (declaration : String) (m : Merged) (e : CandidateEntry) : Merged :=
  let (g, diagnostics) := update part declaration e ((m.gathered.find? e.name).getD { })
  ⟨m.gathered.insert e.name g, m.diagnostics ++ diagnostics⟩

/-- Adds a candidate. -/
def Merged.add (m : Merged) (c : Candidate) : Merged :=
  c.entries.foldl (Merged.addEntry c.part c.declaration) m

/-- The properties that were gathered. -/
def Merged.properties (m : Merged) : List Property :=
  m.gathered.map fun (name, g) => g.toProperty name

/-- Merges candidates. -/
def merge (candidates : List Candidate) : Merged := candidates.foldl Merged.add { }

/-! ### Extraction -/

/-- The properties of a story, with the diagnostics in the order of their lines. -/
structure Extraction where
  properties : List Property
  diagnostics : List Diagnostic

/-- Extracts the properties of a program. -/
def extract (p : Source.Program) : Extraction :=
  let located := locate p
  let merged := merge located.candidates
  ⟨merged.properties, Diagnostic.sortByLine (located.diagnostics ++ merged.diagnostics)⟩

end StoryManifest.Story
