import StoryManifest.Proofs.Correspondence

/-!
Wrappers around values do not count. Two programs are compared of which the second is the first with towers
of parentheses, type annotations and assertions put around the values in it, at any depth: initial values of
variables, values exported by default, right sides of assignments, values of members, items of arrays and
operands of signs. The rules find the same declarations in both, and these come to the same properties.
-/

namespace StoryManifest.Source

open Literal

/-! ### Trees with wrappers put in -/

mutual

/-- The second tree is the first one with wrappers put around values, at any depth. -/
inductive WrapsValues : Node → Node → Prop
  | mk {m n : Node} : m.label = n.label → m.text = n.text → WrapsValuesIn m m.children n.children →
      WrapsValues m n

/-- The second list are the first children of a node with wrappers put around values, in and below them. -/
inductive WrapsValuesIn : Node → List Node → List Node → Prop
  | nil {parent : Node} : WrapsValuesIn parent [] []
  | bare {parent c d : Node} {cs ds : List Node} : c.role = d.role → WrapsValues c d →
      WrapsValuesIn parent cs ds → WrapsValuesIn parent (c :: cs) (d :: ds)
  | wrapped {parent c d inner : Node} {cs ds : List Node} : parent.holdsValue c.role = true →
      c.role = d.role → Behind d inner → WrapsValues c inner → WrapsValuesIn parent cs ds →
      WrapsValuesIn parent (c :: cs) (d :: ds)

end

theorem forall₂_placed {parent : Node} : ∀ {cs ds : List Node}, WrapsValuesIn parent cs ds →
    List.Forall₂ (Placed WrapsValues parent) cs ds
  | _, _, .nil => .nil
  | _, _, .bare hrole h hrest => .cons (.same hrole h) (forall₂_placed hrest)
  | _, _, .wrapped hvalue hrole hbehind h hrest =>
    .cons (.behind hvalue hrole .refl hbehind h) (forall₂_placed hrest)

/-- With wrappers put around values, a tree is like it was. -/
theorem likeness_wrapsValues : Likeness WrapsValues := by
  refine likeness_of_children ?_ ?_ ?_
  · rintro m n ⟨hlabel, -, -⟩
    exact hlabel
  · rintro m n ⟨-, htext, -⟩
    exact htext
  · rintro m n ⟨-, -, hchildren⟩
    exact forall₂_placed hchildren

theorem behind_unwrap (n : Node) : Behind n n.unwrap := by
  induction n using wraps_induction with
  | hbare n hbare => rw [unwrap_of_not_wraps hbare]
  | hwraps n inner hwraps ih =>
    rw [hwraps.unwrap_eq]
    exact .head hwraps ih

mutual

/-- Whether the second tree is the first one, in which values are bare, with wrappers put around values. -/
def wrapsBareValues : Node → Node → Bool
  | ⟨label, role, start, stop, text, children⟩, n =>
    label = n.label && text = n.text &&
      wrapsBareValuesIn ⟨label, role, start, stop, text, children⟩ children n.children

def wrapsBareValuesIn (parent : Node) : List Node → List Node → Bool
  | [], [] => true
  | c :: cs, d :: ds =>
    c.role = d.role && wrapsBareValues c (if parent.holdsValue c.role then d.unwrap else d) &&
      wrapsBareValuesIn parent cs ds
  | _, _ => false

end

mutual

theorem wrapsValues_of_bare : ∀ {m n : Node}, wrapsBareValues m n = true → WrapsValues m n
  | ⟨label, role, start, stop, text, children⟩, n, h => by
    simp only [wrapsBareValues, Bool.and_eq_true, decide_eq_true_eq] at h
    exact .mk h.1.1 h.1.2 (wrapsValuesIn_of_bare h.2)

theorem wrapsValuesIn_of_bare :
    ∀ {parent : Node} {cs ds : List Node}, wrapsBareValuesIn parent cs ds = true →
    WrapsValuesIn parent cs ds
  | _, [], [], _ => .nil
  | _, c :: cs, d :: ds, h => by
    simp only [wrapsBareValuesIn, Bool.and_eq_true, decide_eq_true_eq] at h
    obtain ⟨⟨hrole, hc⟩, hrest⟩ := h
    split at hc
    · exact .wrapped ‹_› hrole (behind_unwrap d) (wrapsValues_of_bare hc) (wrapsValuesIn_of_bare hrest)
    · exact .bare hrole (wrapsValues_of_bare hc) (wrapsValuesIn_of_bare hrest)
  | _, [], _ :: _, h | _, _ :: _, [], h => by cases h

end

end StoryManifest.Source

namespace StoryManifest.Story

open Source (Program WrapsValues holdsValue_of_is likeness_wrapsValues parsed ofText_eq_parsed)

/-! ### Programs with wrappers put in -/

/-- What is told of a declaration but for its value: the rule, the name and the part of metadata. -/
def Declaration.heading (d : Declaration) : Provenance × Option String × Option Part :=
  (d.provenance, d.name, d.part)

theorem Declaration.Same.heading_eq {R : Source.Node → Source.Node → Prop} {d e : Declaration}
    (h : d.Same R e) :
    d.heading = e.heading := by
  rw [heading, heading, h.provenance, h.name, h.part]

/-- Wrappers around values do not count: with as many as there may be put into a program, the same
declarations are located, with the same contents, and they come to the same properties. -/
theorem extract_wrapped {v w : Source.Variant} {text text' : String} {p q : Program}
    (hp : Program.ofText v text = .ok p) (hq : Program.ofText w text' = .ok q)
    (h : WrapsValues p.root q.root) :
    (locate q).declarations.map Declaration.heading = (locate p).declarations.map Declaration.heading ∧
    (locate q).candidates.map Candidate.content = (locate p).candidates.map Candidate.content ∧
    (extract q).properties = (extract p).properties := by
  have hR := likeness_wrapsValues
  obtain ⟨t, hread⟩ := Source.readProgram_of_ofText hp
  have hkind : p.root.is .program = true := decide_eq_true (Source.label_readProgram hread)
  obtain ⟨b, hp⟩ := Source.inOrder_root hp
  obtain ⟨b', hq⟩ := Source.inOrder_root hq
  have hdeclarations := declarations_same hR hp hq h fun role => holdsValue_of_is hkind rfl role
  obtain ⟨hcontents, hproperties⟩ := extract_same hR hp hq hdeclarations
  exact ⟨(forall₂_map_eq hdeclarations fun _ _ h => h.heading_eq).symm, hcontents.symm, hproperties.symm⟩

/-- A variable exported by default, with an assignment to one part of its metadata. -/
def bareValues : String := "const m=\x7bargs:\x7ba:[-1]\x7d\x7d;m.argTypes=\x7bb:c\x7d;export default m;"

/-- The same with wrappers around every value. -/
def wrappedValues : String :=
  "const m=(\x7bargs:<T>\x7ba:[-(1)!as T]satisfies U\x7d\x7dsatisfies V);" ++
  "m.argTypes=(\x7bb:((c))!\x7d)as T;export default((m as T));"

theorem extract_wrapped_values : ∃ p q : Program,
    Program.ofText .typeScript bareValues = .ok p ∧ Program.ofText .typeScript wrappedValues = .ok q ∧
    WrapsValues p.root q.root ∧
    (locate q).declarations.map Declaration.heading = (locate p).declarations.map Declaration.heading ∧
    (locate q).candidates.map Candidate.content = (locate p).candidates.map Candidate.content ∧
    (extract q).properties = (extract p).properties := by
  have ⟨hbare, hwrapped, h⟩ : (Source.syntaxFault? (parsed .typeScript bareValues).root).isNone = true ∧
      (Source.syntaxFault? (parsed .typeScript wrappedValues).root).isNone = true ∧
      Source.wrapsBareValues (parsed .typeScript bareValues).root
        (parsed .typeScript wrappedValues).root = true := by
    decide +kernel
  have hp := ofText_eq_parsed .typeScript bareValues hbare
  have hq := ofText_eq_parsed .typeScript wrappedValues hwrapped
  have h := Source.wrapsValues_of_bare h
  exact ⟨_, _, hp, hq, h, extract_wrapped hp hq h⟩

end StoryManifest.Story
