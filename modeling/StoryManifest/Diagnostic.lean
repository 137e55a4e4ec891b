/-!
What went wrong while a manifest was made, without ending the work: a story that had to be skipped, or
a value that could not be evaluated.
-/

namespace StoryManifest

/-- What a diagnostic is about. -/
inductive DiagnosticKind where
  | syntaxError
  | missingSibling
  | readError
  | unsupportedNode
  deriving DecidableEq, Repr

namespace DiagnosticKind

/-- The component of the story is left out of the manifest. -/
def skipsComponent : DiagnosticKind → Bool
  | .unsupportedNode => false
  | _ => true

/-- The name that messages show. -/
def name : DiagnosticKind → String
  | .syntaxError => "syntax-error"
  | .missingSibling => "missing-sibling"
  | .readError => "read-error"
  | .unsupportedNode => "unsupported-node"

end DiagnosticKind

/-- A diagnostic, of a file and a line where they are known. -/
structure Diagnostic where
  kind : DiagnosticKind
  path : Option String
  line : Option Nat
  message : String
  deriving DecidableEq, Repr

namespace Diagnostic

/-- A value that could not be evaluated. -/
def unsupported (line : Nat) (message : String) : Diagnostic :=
  ⟨.unsupportedNode, none, some line, message⟩

/-- The diagnostic of a file. -/
def inFile (path : String) (d : Diagnostic) : Diagnostic := { d with path := some path }

/-- Where the diagnostic belongs, as messages show it. -/
def location (d : Diagnostic) : String :=
  match d.path, d.line with
  | some path, some line => path ++ ":" ++ toString line ++ ": "
  | some path, none => path ++ ": "
  | none, some line => "line " ++ toString line ++ ": "
  | none, none => ""

/-- The text of a diagnostic. -/
def text (d : Diagnostic) : String := d.location ++ d.kind.name ++ ": " ++ d.message

/-- No line comes before any line. -/
def lineLe (a b : Diagnostic) : Bool :=
  match a.line, b.line with
  | none, _ => true
  | some _, none => false
  | some m, some n => m ≤ n

/-- Diagnostics in the order of their lines; those of one line keep their order. -/
def sortByLine (ds : List Diagnostic) : List Diagnostic := ds.mergeSort lineLe

end Diagnostic

end StoryManifest
