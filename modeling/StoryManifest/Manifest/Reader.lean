import StoryManifest.Manifest.Record
import StoryManifest.Json.Reader

/-!
Reading a manifest from JSON text. A record may be written as an object, whose unknown members are
skipped, or as a list of its fields in order. What is known of a record while it is read is a draft, in
which a field is absent until it was read; no field may be read twice.
-/

namespace StoryManifest

namespace Json

/-- A field of a record that is read into a draft, given how many brackets may still be opened. -/
structure DraftField (σ : Type) where
  name : String
  read : Nat → σ → Reader σ
  present : σ → Bool
  required : Bool

/-- One member of a record that is read into a draft. -/
def readDraftMember {σ : Type} (fields : List (DraftField σ)) (depth : Nat) (key : String) (draft : σ) :
    Reader σ := fun cs =>
  match fields.find? (·.name == key) with
  | none => (skipMember cs).map fun (_, rest) => (draft, rest)
  | some field =>
    if field.present draft then .error .wrongShape
    else do
      let (_, rest) ← readColon cs
      field.read depth draft rest

/-- The fields of a record that is written as a list. Fields that are not required may be missing at
the end. -/
def readDraftItems {σ : Type} (depth : Nat) : Bool → List (DraftField σ) → σ → Reader σ
  | _, [], draft, cs => .ok (draft, cs)
  | first, field :: fields, draft, cs => do
    let (more, rest) ← nextItem first cs
    if more then
      let (draft, rest) ← field.read depth draft rest
      readDraftItems depth false fields draft rest
    else if field.required then .error .wrongShape
    else readDraftItems depth first fields draft rest

/-- A record that is read into a draft. -/
def readDraft {σ : Type} (fields : List (DraftField σ)) (empty : σ) (depth : Nat) : Reader σ := fun cs =>
  match skipBlanks cs with
  | '\x7b' :: rest =>
    match depth with
    | 0 => .error .notJson
    | inner + 1 => do
      let (draft, rest) ←
        readMembers (readDraftMember fields inner) (rest.length + 1) true empty rest
      if fields.all fun f => !f.required || f.present draft then
        let (_, rest) ← closeRecord rest
        return (draft, rest)
      else .error .wrongShape
  | '[' :: rest =>
    match depth with
    | 0 => .error .notJson
    | inner + 1 => do
      let (draft, rest) ← readDraftItems inner true fields empty rest
      let (_, rest) ← closeList rest
      return (draft, rest)
  | other => .error (misfit other)

/-- A record whose draft must hold all that it needs. -/
def readRecord {σ α : Type} (fields : List (DraftField σ)) (empty : σ) (finish : σ → Option α)
    (depth : Nat) : Reader α := fun cs => do
  let (draft, rest) ← readDraft fields empty depth cs
  match finish draft with
  | some a => return (a, rest)
  | none => .error .wrongShape

/-- A field that is read by a reader and put into the draft. -/
def DraftField.of {σ α : Type} (name : String) (required : Bool) (read : Nat → Reader α)
    (get : σ → Option α) (put : σ → α → σ) : DraftField σ :=
  { name, required
    read := fun depth draft cs => (read depth cs).map fun (a, rest) => (put draft a, rest)
    present := fun draft => (get draft).isSome }

end Json

open Json (Reader DraftField)

/-! ### Properties -/

/-- The type of a name, for readers. -/
def PropertyType.read (name : String) : Except Json.Fault PropertyType :=
  match PropertyType.named.lookup name with
  | some type => .ok type
  | none => .error .wrongShape

/-- A type: its name, or its name as the only key of a record that holds nothing. -/
def PropertyType.reader (depth : Nat) : Reader PropertyType := fun cs =>
  match Json.skipBlanks cs with
  | '"' :: rest => do
    let (name, rest) ← Json.readStringBody rest
    return (← PropertyType.read name, rest)
  | '\x7b' :: rest =>
    match depth with
    | 0 => .error .notJson
    | _ + 1 => do
      let (name, rest) ← Json.readString rest
      let type ← PropertyType.read name
      let (_, rest) ← Json.readColon rest
      let (_, rest) ← Json.readNull rest
      let (_, rest) ← Json.closeRecord rest
      return (type, rest)
  | [] => .error .endOfText
  | _ => .error .notJson

/-- What is known of a property while it is read. -/
structure PropertyDraft where
  name : Option String := none
  type : Option PropertyType := none
  description : Option (Option String) := none
  default : Option Value := none
  isList : Option Bool := none

/-- The fields of a property. -/
def PropertyDraft.fields : List (DraftField PropertyDraft) :=
  [.of "name" true (fun _ => Json.readString) (·.name) fun d a => { d with name := some a },
    .of "type" true PropertyType.reader (·.type) fun d a => { d with type := some a },
    .of "description" false (fun _ => Json.readNullable Json.readString) (·.description)
      fun d a => { d with description := some a },
    .of "defaultValue" false Json.readValue (·.default) fun d a => { d with default := some a },
    .of "isList" true (fun _ => Json.readBool) (·.isList) fun d a => { d with isList := some a }]

/-- The property that was read. -/
def PropertyDraft.finish (d : PropertyDraft) : Option Property := do
  return ⟨← d.name, ← d.type, d.description.join, d.default, ← d.isList⟩

/-- A property. -/
def Property.reader (depth : Nat) : Reader Property :=
  Json.readRecord PropertyDraft.fields { } PropertyDraft.finish depth

/-! ### Components -/

/-- What is known of a component while it is read. -/
structure ComponentDraft where
  name : Option String := none
  version : Option String := none
  displayName : Option String := none
  baseDir : Option String := none
  module : Option String := none
  files : Option (List String) := none
  props : Option (List Property) := none
  packages : Option (List String) := none

/-- A list of strings. -/
def readTexts (depth : Nat) : Reader (List String) := Json.readList (fun _ => Json.readString) depth

/-- The fields of a component. -/
def ComponentDraft.fields : List (DraftField ComponentDraft) :=
  [.of "name" true (fun _ => Json.readString) (·.name) fun d a => { d with name := some a },
    .of "version" true (fun _ => Json.readString) (·.version) fun d a => { d with version := some a },
    .of "displayName" true (fun _ => Json.readString) (·.displayName)
      fun d a => { d with displayName := some a },
    .of "baseDir" true (fun _ => Json.readString) (·.baseDir) fun d a => { d with baseDir := some a },
    .of "module" true (fun _ => Json.readString) (·.module) fun d a => { d with module := some a },
    .of "include" true readTexts (·.files) fun d a => { d with files := some a },
    .of "props" true (Json.readList Property.reader) (·.props) fun d a => { d with props := some a },
    .of "packages" false readTexts (·.packages) fun d a => { d with packages := some a }]

/-- The component that was read. -/
def ComponentDraft.finish (d : ComponentDraft) : Option ComponentRecord := do
  return ⟨← d.name, ← d.version, ← d.displayName, ← d.baseDir, ← d.module, ← d.files, ← d.props,
    d.packages.getD []⟩

/-- A component. -/
def ComponentRecord.reader (depth : Nat) : Reader ComponentRecord :=
  Json.readRecord ComponentDraft.fields { } ComponentDraft.finish depth

/-! ### Manifests -/

/-- The fields of a manifest. -/
def Manifest.fields : List (DraftField (Option (List ComponentRecord))) :=
  [.of "components" true (Json.readList ComponentRecord.reader) id fun _ a => some a]

/-- A manifest. -/
def Manifest.reader (depth : Nat) : Reader Manifest :=
  Json.readRecord Manifest.fields none (·.map Manifest.mk) depth

/-- The manifest that a JSON text holds. -/
def Manifest.ofText (text : String) : Except Json.Fault Manifest :=
  Json.readWhole (Manifest.reader Json.depthLimit) text

end StoryManifest
