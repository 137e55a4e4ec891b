/-!
The four variants of story source. A variant says which extensions of the language are read: markup
elements, type annotations, and casts in angle brackets.
-/

namespace StoryManifest.Source

/-- A variant of story source. -/
inductive Variant where
  | script
  | jsx
  | typeScript
  | tsx
  deriving DecidableEq, Repr

namespace Variant

/-- The variant of a file name extension. -/
def ofExtension? (extension : String) : Option Variant :=
  if extension ∈ ["js", "mjs", "cjs"] then some .script
  else if extension = "jsx" then some .jsx
  else if extension ∈ ["ts", "mts", "cts"] then some .typeScript
  else if extension = "tsx" then some .tsx
  else none

/-- Types may be written. -/
def typed : Variant → Bool
  | .typeScript => true
  | .tsx => true
  | _ => false

/-- An angle bracket in front of an operand opens a markup element. -/
def markup : Variant → Bool
  | .typeScript => false
  | _ => true

/-- The name of a variant. -/
def name : Variant → String
  | .script => "Script"
  | .jsx => "Jsx"
  | .typeScript => "TypeScript"
  | .tsx => "Tsx"

end Variant

end StoryManifest.Source
