import StoryManifest.Story.Declaration
import StoryManifest.Diagnostic

/-!
Candidates: the evaluated parts of the metadata that the declarations of a story hold, in the order of
the text, with a diagnostic for everything that had to be left out.
-/

namespace StoryManifest.Story

open Source (Node Program)
open Literal (Entry)

/-- An entry of a part of metadata. -/
structure CandidateEntry where
  name : String
  value : Value
  line : Nat
  deriving Repr

/-- A part of metadata. -/
structure Candidate where
  part : Part
  provenance : Provenance
  declaration : String
  position : Nat
  line : Nat
  entries : List CandidateEntry
  deriving Repr

/-- What was found in a story. -/
structure Located where
  declarations : List Declaration
  candidates : List Candidate
  diagnostics : List Diagnostic

/-- The last members for the two parts of metadata, unwrapped, in the order of the text. -/
def partsOf (object : Node) : List (Part × Node) :=
  let value (part : Part) : List (Part × Node) :=
    (((Literal.entries object).filter fun e => e.key.name?.bind Part.ofKey? = some part).getLast?.map
      fun e => (part, e.value.unwrap)).toList
  (value .args ++ value .argTypes).mergeSort fun a b => a.2.start.byte ≤ b.2.start.byte

/-- The entry that a member of a part of metadata gives. -/
def candidateEntryOf? (e : Entry) : Option CandidateEntry :=
  e.key.name?.map fun name => ⟨name, Literal.evaluate e.value, e.value.line⟩

/-- The diagnostic for a member that gives no entry. -/
def skippedOf? (p : Program) (label : String) (e : Entry) : Option Diagnostic :=
  match e.key with
  | .named _ => none
  | .spread => some (.unsupported e.value.line
      (label ++ ": spread entry \x60" ++ p.textOf e.value ++ "\x60 skipped"))
  | .computed => some (.unsupported e.value.line (label ++ ": computed key skipped"))

/-- The diagnostic for a value that should be an object literal. -/
def notAnObject (label : String) (n : Node) : Diagnostic :=
  .unsupported n.line (label ++ " is not an object literal (" ++ n.kindName ++ ")")

/-- The candidate of an object literal, or the diagnostic for another value, and the diagnostics for
what the candidate lacks. -/
def candidateOf (p : Program) (d : Declaration) (label : String) (part : Part) (n : Node) :
    List Candidate × List Diagnostic :=
  if n.is .object then
    let members := Literal.entries n
    ([⟨part, d.provenance, label, n.start.byte, n.line, members.filterMap candidateEntryOf?⟩],
      members.filterMap (skippedOf? p label))
  else ([], [notAnObject label n])

/-- The candidates of a declaration and its diagnostics. -/
def candidatesOf (p : Program) (d : Declaration) : List Candidate × List Diagnostic :=
  match d.part with
  | some part => candidateOf p d d.label part d.node
  | none =>
    if d.isObject then
      let found := (partsOf d.node).map fun (part, n) =>
        candidateOf p d (d.label ++ "." ++ part.key) part n
      (found.flatMap (·.1), found.flatMap (·.2))
    else ([], [notAnObject d.label d.node])

/-- Finds the metadata of a program. -/
def locate (p : Program) : Located :=
  let ds := declarations p.root
  let found := ds.map (candidatesOf p)
  ⟨ds, (found.flatMap (·.1)).mergeSort fun a b => a.position ≤ b.position, found.flatMap (·.2)⟩

end StoryManifest.Story
