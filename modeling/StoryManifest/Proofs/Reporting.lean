import StoryManifest.Proofs.Rearranging

/-!
What is reported of programs that correspond to each other. Locating reports of each declaration on its
own and merging of each entry, so programs with the same declarations have the same diagnostics, but for
the lines and the order that the lines give them.
-/

namespace StoryManifest

/-- A diagnostic of any line. -/
def Diagnostic.withoutLine (d : Diagnostic) : Diagnostic := { d with line := none }

namespace Story

open Source (Node Program InOrder)
open Source.Likeness (SameEntry)
open Literal (Entry)

/-! ### What merging reports -/

/-- Of an entry with the same name and the same value, merging reports the same. -/
theorem reportedOf_same {e e' : CandidateEntry} (hname : e.name = e'.name) (hvalue : e.value = e'.value)
    (part : Part) (declaration : String) : (reportedOf part declaration e).map Diagnostic.withoutLine =
      (reportedOf part declaration e').map Diagnostic.withoutLine := by
  have hdefault : ∀ v, (staticDefault declaration e v).2.map Diagnostic.withoutLine =
      (staticDefault declaration e' v).2.map Diagnostic.withoutLine := fun v => by
    cases hkind : v.unsupportedKind <;>
      simp [staticDefault, hkind, omittedDefault, Diagnostic.withoutLine, Diagnostic.unsupported, hname]
  cases part with
  | args => simpa [reportedOf, update, hvalue] using hdefault e'.value
  | argTypes =>
    cases hv : e'.value with
    | record fields =>
      cases hfield : Fields.find? "defaultValue" fields with
      | none => simp [reportedOf, update, hvalue, hv, hfield]
      | some v => simpa [reportedOf, update, hvalue, hv, hfield] using hdefault v
    | _ => simp [reportedOf, update, hvalue, hv, hname, Diagnostic.withoutLine, Diagnostic.unsupported]

/-- Merging candidates with the same contents reports the same. -/
theorem reported_merge {cs cs' : List Candidate} (h : cs.map Candidate.content = cs'.map Candidate.content) :
    (merge cs).diagnostics.map Diagnostic.withoutLine =
      (merge cs').diagnostics.map Diagnostic.withoutLine := by
  rw [diagnostics_merge_eq, diagnostics_merge_eq, List.map_flatMap, List.map_flatMap]
  refine forall₂_flatMap_eq (forall₂_of_map_eq h) fun c c' hc => ?_
  simp only [Candidate.content, Prod.mk.injEq] at hc
  obtain ⟨hpart, -, hdeclaration, hentries⟩ := hc
  rw [List.map_flatMap, List.map_flatMap, hpart, hdeclaration]
  refine forall₂_flatMap_eq (forall₂_of_map_eq hentries) fun e e' he => ?_
  obtain ⟨hname, hvalue⟩ := Prod.mk.inj he
  exact reportedOf_same hname hvalue _ _

/-! ### What is reported of declarations -/

theorem propertyKey_ne_spread (n : Node) : Literal.propertyKey n ≠ .spread := by
  unfold Literal.propertyKey
  split
  iterate 4 exact Literal.Key.noConfusion
  · split <;> exact Literal.Key.noConfusion
  · exact Literal.Key.noConfusion

/-- Several members after dots are no wrapper. -/
theorem unwrap_spread {m : Node} {e : Entry} (h : Literal.entryOf? m = some e) (hkey : e.key = .spread) :
    e.value.unwrap = e.value := by
  unfold Literal.entryOf? at h
  split at h
  · split at h
    · cases h
      exact absurd hkey (propertyKey_ne_spread _)
    · cases h
  · cases h
    cases hkey
  · cases h
    cases hname : m.child? .name with
    | none => simp [hname] at hkey
    | some name => exact absurd (by simpa [hname] using hkey) (propertyKey_ne_spread name)
  · rename_i hlabel
    cases h
    exact Literal.unwrap_of_not_wraps (Literal.not_wraps (decide_eq_true hlabel) rfl (by decide))
  · cases h

section

variable {p q : Program} {d e : Declaration} {m n : Node}

theorem reported_skippedOf? {x y : Entry} (h : SameEntry (Alike p q) x y) (hx : x ∈ Literal.entries m)
    (hy : y ∈ Literal.entries n) (label : String) :
    (skippedOf? p label x).map Diagnostic.withoutLine =
      (skippedOf? q label y).map Diagnostic.withoutLine := by
  obtain ⟨c, -, hc⟩ := List.mem_filterMap.mp hx
  obtain ⟨c', -, hc'⟩ := List.mem_filterMap.mp hy
  rw [skippedOf?, skippedOf?, ← h.key]
  cases hkey : x.key with
  | named name => rfl
  | computed => rfl
  | spread =>
    have halike := h.value
    rw [unwrap_spread hc hkey, unwrap_spread hc' (h.key ▸ hkey)] at halike
    simp [Diagnostic.withoutLine, Diagnostic.unsupported, halike.textOf_eq]

theorem reported_notAnObject (h : Alike p q m n) (label : String) :
    (notAnObject label m).withoutLine = (notAnObject label n).withoutLine := by
  rw [notAnObject, notAnObject, Node.kindName, Node.kindName, (likeness_alike p q).label h]
  rfl

theorem reported_candidateOf (h : Alike p q m n) (label : String) (part : Part) :
    (candidateOf p d label part m).2.map Diagnostic.withoutLine =
      (candidateOf q e label part n).2.map Diagnostic.withoutLine := by
  have hR := likeness_alike p q
  rw [candidateOf, candidateOf, ← hR.is_eq h]
  split
  · rename_i hobject
    rw [List.map_filterMap, List.map_filterMap, ← List.forall₂_eq_eq_eq]
    refine List.rel_filterMap (R := fun x y => (skippedOf? p label x).map Diagnostic.withoutLine =
      (skippedOf? q label y).map Diagnostic.withoutLine) (fun x y hxy => rel_eq_iff.mpr hxy) ?_
    exact forall₂_imp_of_mem (hR.entries h hobject) fun x hx y hy hxy => reported_skippedOf? hxy hx hy label
  · rw [List.map_singleton, List.map_singleton, reported_notAnObject h]

/-- The same is reported of the same declarations. -/
theorem reported_candidatesOf (h : d.Same (Alike p q) e) (hd : d.node.Orderly) (he : e.node.Orderly) :
    (candidatesOf p d).2.map Diagnostic.withoutLine = (candidatesOf q e).2.map Diagnostic.withoutLine := by
  have hlabel : d.label = e.label := by rw [Declaration.label, Declaration.label, h.name, h.part]
  rw [candidatesOf, candidatesOf, h.part, hlabel]
  cases e.part with
  | some part => exact reported_candidateOf h.node _ part
  | none =>
    have hkinds : d.isObject = e.isObject := (likeness_alike p q).is_eq h.node .object
    by_cases hkind : d.isObject = true
    · simp only [if_pos hkind, if_pos (hkinds ▸ hkind), List.flatMap_map, List.map_flatMap]
      refine forall₂_flatMap_eq (partsOf_same (likeness_alike p q) h.node hkind hd he) ?_
      rintro ⟨part, m⟩ ⟨_, n⟩ ⟨rfl, hmn⟩
      exact reported_candidateOf hmn _ part
    · simp only [if_neg hkind, if_neg (hkinds ▸ hkind), List.map_singleton, reported_notAnObject h.node]

end

/-! ### Programs -/

/-- Programs with the same declarations have candidates with the same contents and the same properties,
and the same is reported of them on whatever lines. -/
theorem extract_alike {p q : Program} {a b a' b' : Nat} (hp : InOrder a p.root.children b)
    (hq : InOrder a' q.root.children b')
    (h : List.Forall₂ (Declaration.Same (Alike p q)) (declarations p.root) (declarations q.root)) :
    (locate p).candidates.map Candidate.content = (locate q).candidates.map Candidate.content ∧
    (extract p).properties = (extract q).properties ∧
    ((extract p).diagnostics.map Diagnostic.withoutLine).Perm
      ((extract q).diagnostics.map Diagnostic.withoutLine) := by
  obtain ⟨hcontents, hproperties⟩ := extract_same (likeness_alike p q) hp hq h
  have hlocated : (locate p).diagnostics.map Diagnostic.withoutLine =
      (locate q).diagnostics.map Diagnostic.withoutLine := by
    simp only [locate, List.flatMap_map, List.map_flatMap]
    exact forall₂_flatMap_eq (forall₂_imp_of_mem h fun d hd e he hde => reported_candidatesOf hde
      (orderly_of_mem_declarations hp hd) (orderly_of_mem_declarations hq he)) fun _ _ h => h
  have hreported : ((locate p).diagnostics ++ (merge (locate p).candidates).diagnostics).map
      Diagnostic.withoutLine = ((locate q).diagnostics ++ (merge (locate q).candidates).diagnostics).map
        Diagnostic.withoutLine := by
    rw [List.map_append, List.map_append, hlocated, reported_merge hcontents]
  -- Sorting by lines only changes the order.
  have hsorted : ∀ r : Program, ((extract r).diagnostics.map Diagnostic.withoutLine).Perm
      (((locate r).diagnostics ++ (merge (locate r).candidates).diagnostics).map Diagnostic.withoutLine) :=
    fun _ => (List.mergeSort_perm _ _).map _
  exact ⟨hcontents, hproperties, (hsorted p).trans (hreported ▸ (hsorted q).symm)⟩

end Story

end StoryManifest
