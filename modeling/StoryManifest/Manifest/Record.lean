import StoryManifest.Property
import StoryManifest.Json.Writer
import StoryManifest.Text.Capital

/-!
The manifest document: one record for each component, with its names, its implementation file and its
properties.
-/

namespace StoryManifest

/-- The record of one component. -/
structure ComponentRecord where
  name : String
  version : String
  displayName : String
  baseDir : String
  module : String
  files : List String
  props : List Property
  packages : List String
  deriving Repr

/-- A manifest. -/
structure Manifest where
  components : List ComponentRecord
  deriving Repr

/-- Texts as a list value. -/
def Value.ofTexts (texts : List String) : Value := .list (texts.map .text)

namespace ComponentRecord

/-- The record as a JSON value. -/
def toValue (r : ComponentRecord) : Value :=
  .record
    [("name", .text r.name), ("version", .text r.version), ("displayName", .text r.displayName),
      ("baseDir", .text r.baseDir), ("module", .text r.module), ("include", .ofTexts r.files),
      ("props", .list (r.props.map Property.toValue)), ("packages", .ofTexts r.packages)]

/-- Equality of lists of properties, one by one. -/
def sameProps : List Property → List Property → Bool
  | [], [] => true
  | p :: ps, q :: qs => p.same q && sameProps ps qs
  | _, _ => false

/-- Equality of records, on which the order of record keys in default values does not count. -/
def same (a b : ComponentRecord) : Bool :=
  a.name == b.name && a.version == b.version && a.displayName == b.displayName &&
    a.baseDir == b.baseDir && a.module == b.module && a.files == b.files &&
    sameProps a.props b.props && a.packages == b.packages

end ComponentRecord

namespace Manifest

/-- A manifest without components. -/
def empty : Manifest := ⟨[]⟩

/-- The manifest with a further component at its end. -/
def push (m : Manifest) (r : ComponentRecord) : Manifest := ⟨m.components ++ [r]⟩

/-- The first component of a name. -/
def get? (m : Manifest) (name : String) : Option ComponentRecord :=
  m.components.find? (·.name == name)

/-- The manifest as a JSON value. -/
def toValue (m : Manifest) : Value :=
  .record [("components", .list (m.components.map ComponentRecord.toValue))]

/-- The text of a manifest: indented JSON and a line end. None when a default value is not static. -/
def text? (m : Manifest) : Option String := (Json.pretty m.toValue).map (· ++ "\n")

/-- Equality of lists of records, one by one. -/
def sameRecords : List ComponentRecord → List ComponentRecord → Bool
  | [], [] => true
  | a :: as, b :: bs => a.same b && sameRecords as bs
  | _, _ => false

/-- Equality of manifests. -/
def same (m n : Manifest) : Bool := sameRecords m.components n.components

end Manifest

/-! ### Names of components -/

/-- The lower case of a character as far as it matters to a name: beyond the letters A to Z only two
characters have one that begins with a letter a to z. -/
def nameCase (c : Char) : List Char :=
  if 'A' ≤ c ∧ c ≤ 'Z' then [Char.ofNat (c.toNat + 32)]
  else if c = '\u212A' then ['k']
  else if c = '\u0130' then ['i', '\u0307']
  else [c]

/-- A character that a name may hold. -/
def isNameChar (c : Char) : Bool :=
  ('a' ≤ c && c ≤ 'z') || ('0' ≤ c && c ≤ '9') || c = '.' || c = '_' || c = '-'

/-- The name of the component in a directory: lower case, with dashes for all but plain characters. -/
def componentName (directory : String) : String :=
  String.ofList ((directory.toList.flatMap nameCase).map fun c => if isNameChar c then c else '-')

/-- The name of the component in a directory as people read it: upper case, with spaces for dashes. -/
def displayName (directory : String) : String :=
  String.ofList (Text.upper (directory.toList.map fun c => if c = '-' then ' ' else c))

end StoryManifest
