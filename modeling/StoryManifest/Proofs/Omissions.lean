import StoryManifest.Proofs.Describing
import StoryManifest.Proofs.TextOrder

/-!
What is left out of the properties of a story, and what is reported of it. A declaration or a part of
metadata is left out when it is no object literal; of a part that is read, the members without a name,
default values that cannot be evaluated, and descriptions that are no records. Each of these is reported
once, on its line, and nothing else is. Reports are in the order of their lines; those on one line have
what was found first, when the metadata was located, before what was found when it was merged, each in
the order of the text.
-/

namespace StoryManifest

/-! ### Sorting by lines -/

namespace Diagnostic

theorem lineLe_trans {a b c : Diagnostic} (hab : lineLe a b = true) (hbc : lineLe b c = true) :
    lineLe a c = true := by
  unfold lineLe at *
  cases ha : a.line <;> cases hb : b.line <;> cases hc : c.line <;> simp_all
  omega

theorem lineLe_total (a b : Diagnostic) : (lineLe a b || lineLe b a) = true := by
  unfold lineLe
  cases ha : a.line <;> cases hb : b.line <;> simp
  omega

theorem pairwise_sortByLine (ds : List Diagnostic) : (sortByLine ds).Pairwise (lineLe · · = true) :=
  @List.pairwise_mergeSort Diagnostic lineLe (fun _ _ _ => lineLe_trans) lineLe_total ds

/-- Diagnostics of one line keep their order. -/
theorem filter_sortByLine (ds : List Diagnostic) (line : Option Nat) :
    (sortByLine ds).filter (·.line = line) = ds.filter (·.line = line) := by
  have hsame : (ds.filter (·.line = line)).Pairwise (lineLe · · = true) := by
    refine List.pairwise_of_forall_mem_list fun a ha b hb => ?_
    have hab : a.line = b.line :=
      (of_decide_eq_true (List.mem_filter.mp ha).2).trans (of_decide_eq_true (List.mem_filter.mp hb).2).symm
    rw [lineLe, hab]
    cases b.line <;> simp
  have hsublist : (ds.filter (·.line = line)).Sublist (sortByLine ds) :=
    @List.sublist_mergeSort Diagnostic lineLe ds (fun _ _ _ => lineLe_trans) lineLe_total _ hsame
      List.filter_sublist
  have hkept : (ds.filter (·.line = line)).Sublist ((sortByLine ds).filter (·.line = line)) := by
    simpa only [List.filter_filter, Bool.and_self] using hsublist.filter (·.line = line)
  exact (hkept.eq_of_length (((List.mergeSort_perm ds lineLe).filter _).length_eq).symm).symm

end Diagnostic

namespace Story

open Source (Node Program InOrder parsed ofText_eq_parsed)
open Literal (Entry evaluate)

/-! ### What may be left out -/

/-- An object literal that is read as a part of metadata, with what messages call it. -/
inductive IsRead (root : Node) : String → Part → Node → Prop
  | assigned {d : Declaration} {part : Part} : d ∈ declarations root → d.part = some part →
    d.isObject = true →
      IsRead root d.label part d.node
  | member {d : Declaration} {part : Part} {e : Entry} : d ∈ declarations root → d.part = none →
      d.isObject = true → lastMember? d.node part = some e → e.value.unwrap.is .object = true →
      IsRead root (d.label ++ "." ++ part.key) part e.value.unwrap

/-- Something that is left out, with what messages call the declaration or the part that it is or is in,
and the node that it is about. -/
inductive Omission where
  | whole (label : String) (n : Node)
  | spread (label : String) (n : Node)
  | computed (label : String) (n : Node)
  | value (label name : String) (n : Node)
  | description (label name : String) (n : Node)
  | default (label name : String) (n : Node)

namespace Omission

/-- The node that is left out. -/
def node : Omission → Node
  | whole _ n | spread _ n | computed _ n | value _ _ n | description _ _ n | default _ _ n => n

/-- What is left out when metadata is located: a declaration or a part that is no object literal, and the
members without a name of the parts that are read. -/
inductive FoundLocating (root : Node) : Omission → Prop
  | declaration {d : Declaration} : d ∈ declarations root → d.isObject = false →
      FoundLocating root (.whole d.label d.node)
  | part {d : Declaration} {part : Part} {e : Entry} : d ∈ declarations root → d.part = none →
      d.isObject = true → lastMember? d.node part = some e → e.value.unwrap.is .object = false →
      FoundLocating root (.whole (d.label ++ "." ++ part.key) e.value.unwrap)
  | spread {label : String} {part : Part} {n : Node} {e : Entry} : IsRead root label part n →
      e ∈ Literal.entries n → e.key = .spread → FoundLocating root (.spread label e.value)
  | computed {label : String} {part : Part} {n : Node} {e : Entry} : IsRead root label part n →
      e ∈ Literal.entries n → e.key = .computed → FoundLocating root (.computed label e.value)

/-- What is left out when the parts are merged: default values that hold a marker, whether they are given or
described, and descriptions that are no records. -/
inductive FoundMerging (root : Node) : Omission → Prop
  | value {label name : String} {n : Node} {e : Entry} : IsRead root label .args n → e ∈ Literal.entries n →
      e.key = .named name → (evaluate e.value).Marked → FoundMerging root (.value label name e.value)
  | description {label name : String} {n : Node} {e : Entry} : IsRead root label .argTypes n →
      e ∈ Literal.entries n → e.key = .named name → (∀ fields, evaluate e.value ≠ .record fields) →
      FoundMerging root (.description label name e.value)
  | default {label name : String} {n : Node} {e : Entry} {fields : Fields Value} {v : Value} :
      IsRead root label .argTypes n → e ∈ Literal.entries n → e.key = .named name →
      evaluate e.value = .record fields → fields.find? "defaultValue" = some v → v.Marked →
      FoundMerging root (.default label name e.value)

/-- What is reported of an omission, on the line of its node. -/
def diagnostic (p : Program) : Omission → Diagnostic
  | whole label n => notAnObject label n
  | spread label n => .unsupported n.line (label ++ ": spread entry \x60" ++ p.textOf n ++ "\x60 skipped")
  | computed label n => .unsupported n.line (label ++ ": computed key skipped")
  | value label name n =>
    omittedDefault label ⟨name, evaluate n, n.line⟩ ((evaluate n).unsupportedKind.getD "")
  | description label name n => .unsupported n.line
      (label ++ "." ++ name ++ " is not an object literal (" ++ shapeOf (evaluate n) ++ ")")
  | default label name n => omittedDefault label ⟨name, evaluate n, n.line⟩
      ((((evaluate n).field? "defaultValue").bind Value.unsupportedKind).getD "")

theorem kind_diagnostic (p : Program) (o : Omission) : (o.diagnostic p).kind = .unsupportedNode := by
  cases o <;> rfl

theorem line_diagnostic (p : Program) (o : Omission) : (o.diagnostic p).line = some o.node.line := by
  cases o <;> rfl

/-! ### Members -/

/-- The omission of a member without a name. -/
def unnamed? (label : String) (e : Entry) : Option Omission :=
  match e.key with
  | .named _ => none
  | .spread => some (.spread label e.value)
  | .computed => some (.computed label e.value)

/-- The omission of what a member with a name should give. -/
def lost? (label : String) (part : Part) (e : Entry) : Option Omission :=
  e.key.name?.bind fun name =>
    match part, evaluate e.value with
    | .args, v => if v.Marked then some (.value label name e.value) else none
    | .argTypes, .record fields =>
      if (Fields.find? "defaultValue" fields).any fun v => v.Marked then
        some (.default label name e.value)
      else none
    | .argTypes, _ => some (.description label name e.value)

variable {label : String} {part : Part} {e : Entry} {o : Omission} {p : Program}

theorem node_of_unnamed? (h : unnamed? label e = some o) : o.node = e.value := by
  rw [unnamed?] at h
  split at h <;> cases h <;> rfl

theorem node_of_lost? (h : lost? label part e = some o) : o.node = e.value := by
  obtain ⟨name, -, h⟩ := Option.bind_eq_some_iff.mp h
  split at h
  · split at h <;> cases h
    rfl
  · split at h <;> cases h
    rfl
  · cases h
    rfl

theorem skippedOf?_eq (p : Program) (label : String) (e : Entry) :
    skippedOf? p label e = (unnamed? label e).map (diagnostic p) := by
  cases hkey : e.key <;> simp [skippedOf?, unnamed?, hkey, diagnostic]

/-- What merging reports of a member that is an entry. -/
theorem reportedOf_eq (p : Program) (label : String) (part : Part) {c : CandidateEntry}
    (h : candidateEntryOf? e = some c) :
    reportedOf part label c = ((lost? label part e).map (diagnostic p)).toList := by
  obtain ⟨name, hname, rfl⟩ := Option.map_eq_some_iff.mp h
  rw [lost?, hname, Option.bind_some]
  cases part with
  | args =>
    cases hkind : (evaluate e.value).unsupportedKind with
    | none =>
      have hmarked := (Value.unsupportedKind_eq_none _).mp hkind
      simp [reportedOf, update, staticDefault, hkind, hmarked]
    | some kind =>
      have hmarked := Value.marked_iff.mpr ⟨kind, hkind⟩
      simp [reportedOf, update, staticDefault, hkind, hmarked, diagnostic]
  | argTypes =>
    cases hvalue : evaluate e.value with
    | record fields =>
      rw [reportedOf_record rfl]
      cases hfield : Fields.find? "defaultValue" fields with
      | none => simp [hfield]
      | some v =>
        cases hkind : v.unsupportedKind with
        | none =>
          have hmarked := (Value.unsupportedKind_eq_none _).mp hkind
          simp [hfield, hkind, hmarked]
        | some kind =>
          have hmarked := Value.marked_iff.mpr ⟨kind, hkind⟩
          simp [hfield, hkind, hmarked, diagnostic, hvalue, Value.field?]
    | _ => simp [reportedOf, update, diagnostic, hvalue]

/-! ### Declarations -/

/-- The omissions that locating finds in a value that should be a part: its members without a name, or
the value itself. -/
def ofPart (label : String) (n : Node) : List Omission :=
  if n.is .object then (Literal.entries n).filterMap (unnamed? label) else [.whole label n]

/-- The omissions that locating finds in a declaration. -/
def ofDeclaration (d : Declaration) : List Omission :=
  match d.part with
  | some _ => ofPart d.label d.node
  | none =>
    if d.isObject then (partsOf d.node).flatMap fun x => ofPart (d.label ++ "." ++ x.1.key) x.2
    else [.whole d.label d.node]

end Omission

/-- The object literals that a declaration gives as parts of metadata, with what messages call them. -/
def literalsOf (d : Declaration) : List (String × Part × Node) :=
  match d.part with
  | some part => if d.isObject then [(d.label, part, d.node)] else []
  | none =>
    if d.isObject then
      ((partsOf d.node).filter (·.2.is .object)).map fun x => (d.label ++ "." ++ x.1.key, x.1, x.2)
    else []

namespace Omission

/-- The omissions that merging finds in the parts of a declaration. -/
def ofLiterals (d : Declaration) : List Omission :=
  (literalsOf d).flatMap fun x => (Literal.entries x.2.2).filterMap (lost? x.1 x.2.1)

/-- The omissions that locating finds. -/
def located (root : Node) : List Omission := (declarations root).flatMap ofDeclaration

/-- The omissions that merging finds. -/
def merged (root : Node) : List Omission := (declarations root).flatMap ofLiterals

end Omission

/-! ### Which omissions there are -/

section

variable {root n m : Node} {d : Declaration} {label : String} {part : Part} {e : Entry} {o : Omission}

theorem mem_partsOf : (part, m) ∈ partsOf n ↔ ∃ e, lastMember? n part = some e ∧ e.value.unwrap = m := by
  rw [(partsOf_perm n).mem_iff, mem_lastParts]

/-- A literal is read when it is one of those of a declaration. -/
theorem isRead_iff : IsRead root label part n ↔ ∃ d ∈ declarations root, (label, part, n) ∈
    literalsOf d := by
  constructor
  · rintro (⟨hd, hpart, hobject⟩ | ⟨hd, hpart, hobject, he, hliteral⟩)
    · exact ⟨_, hd, by simp [literalsOf, hpart, hobject]⟩
    · refine ⟨_, hd, ?_⟩
      rw [literalsOf, hpart, if_pos hobject]
      exact List.mem_map.mpr ⟨(_, _), List.mem_filter.mpr ⟨mem_partsOf.mpr ⟨_, he, rfl⟩, hliteral⟩, rfl⟩
  · rintro ⟨d, hd, h⟩
    rw [literalsOf] at h
    split at h
    · rename_i hpart
      split at h
      · rename_i hobject
        cases List.mem_singleton.mp h
        exact .assigned hd hpart hobject
      · cases h
    · rename_i hpart
      split at h
      · rename_i hobject
        obtain ⟨⟨q, m⟩, hmem, heq⟩ := List.mem_map.mp h
        cases heq
        obtain ⟨hmem, hliteral⟩ := List.mem_filter.mp hmem
        obtain ⟨e, he, rfl⟩ := mem_partsOf.mp hmem
        exact .member hd hpart hobject he hliteral
      · cases h

namespace Omission

theorem unnamed?_eq_some_iff : unnamed? label e = some o ↔
    e.key = .spread ∧ o = .spread label e.value ∨ e.key = .computed ∧ o = .computed label e.value := by
  rw [unnamed?]
  cases e.key <;> simp [eq_comm]

theorem mem_ofPart : o ∈ ofPart label n ↔ n.is .object = false ∧ o = .whole label n ∨
    n.is .object = true ∧ ∃ e ∈ Literal.entries n, unnamed? label e = some o := by
  cases hobject : n.is .object <;> simp [ofPart, hobject]

/-- Members without a name are found where the literal is read. -/
theorem foundLocating_of_unnamed? (hread : IsRead root label part n) (he : e ∈ Literal.entries n)
    (h : unnamed? label e = some o) : o.FoundLocating root := by
  rcases unnamed?_eq_some_iff.mp h with ⟨hkey, rfl⟩ | ⟨hkey, rfl⟩
  · exact .spread hread he hkey
  · exact .computed hread he hkey

/-- The members without a name of a literal that a declaration gives are among its omissions. -/
theorem mem_ofDeclaration_of_unnamed? (hread : (label, part, n) ∈ literalsOf d) (he : e ∈ Literal.entries n)
    (h : unnamed? label e = some o) : o ∈ ofDeclaration d := by
  rw [literalsOf] at hread
  rw [ofDeclaration]
  split at hread
  · split at hread
    · rename_i hobject
      cases List.mem_singleton.mp hread
      exact mem_ofPart.mpr (.inr ⟨hobject, e, he, h⟩)
    · cases hread
  · split at hread
    · rename_i hobject
      obtain ⟨⟨q, m⟩, hmem, heq⟩ := List.mem_map.mp hread
      cases heq
      obtain ⟨hmem, hliteral⟩ := List.mem_filter.mp hmem
      rw [if_pos hobject]
      exact List.mem_flatMap.mpr ⟨(q, m), hmem, mem_ofPart.mpr (.inr ⟨hliteral, e, he, h⟩)⟩
    · cases hread

theorem mem_located : o ∈ located root ↔ o.FoundLocating root := by
  rw [located, List.mem_flatMap]
  constructor
  · rintro ⟨d, hd, h⟩
    rw [ofDeclaration] at h
    split at h
    · rename_i q hpart
      rcases mem_ofPart.mp h with ⟨hobject, rfl⟩ | ⟨hobject, e, he, hunnamed⟩
      · exact .declaration hd hobject
      · exact foundLocating_of_unnamed? (.assigned hd hpart hobject) he hunnamed
    · rename_i hpart
      split at h
      · rename_i hobject
        obtain ⟨⟨q, m⟩, hmem, h⟩ := List.mem_flatMap.mp h
        obtain ⟨e', he', rfl⟩ := mem_partsOf.mp hmem
        rcases mem_ofPart.mp h with ⟨hliteral, rfl⟩ | ⟨hliteral, e, he, hunnamed⟩
        · exact .part hd hpart hobject he' hliteral
        · exact foundLocating_of_unnamed? (.member hd hpart hobject he' hliteral) he hunnamed
      · rename_i hobject
        cases List.mem_singleton.mp h
        exact .declaration hd (Bool.eq_false_iff.mpr hobject)
  · rintro (⟨hd, hobject⟩ | ⟨hd, hpart, hobject, he, hliteral⟩ | ⟨hread, he, hkey⟩ | ⟨hread, he, hkey⟩)
    · refine ⟨_, hd, ?_⟩
      rw [ofDeclaration]
      split
      · exact mem_ofPart.mpr (.inl ⟨hobject, rfl⟩)
      · simp [hobject]
    · refine ⟨_, hd, ?_⟩
      rw [ofDeclaration, hpart, if_pos hobject]
      exact List.mem_flatMap.mpr
        ⟨(_, _), mem_partsOf.mpr ⟨_, he, rfl⟩, mem_ofPart.mpr (.inl ⟨hliteral, rfl⟩)⟩
    · obtain ⟨d, hd, hread⟩ := isRead_iff.mp hread
      exact ⟨d, hd, mem_ofDeclaration_of_unnamed? hread he (unnamed?_eq_some_iff.mpr (.inl ⟨hkey, rfl⟩))⟩
    · obtain ⟨d, hd, hread⟩ := isRead_iff.mp hread
      exact ⟨d, hd, mem_ofDeclaration_of_unnamed? hread he (unnamed?_eq_some_iff.mpr (.inr ⟨hkey, rfl⟩))⟩

theorem mem_merged_iff : o ∈ merged root ↔ ∃ label part n, IsRead root label part n ∧
    ∃ e ∈ Literal.entries n, lost? label part e = some o := by
  simp only [merged, ofLiterals, isRead_iff, List.mem_flatMap, List.mem_filterMap]
  constructor
  · rintro ⟨d, hd, ⟨label, part, n⟩, hread, e, he, h⟩
    exact ⟨label, part, n, ⟨d, hd, hread⟩, e, he, h⟩
  · rintro ⟨label, part, n, ⟨d, hd, hread⟩, e, he, h⟩
    exact ⟨d, hd, (label, part, n), hread, e, he, h⟩

/-- Members with a name are found where the literal is read. -/
theorem foundMerging_of_lost? (hread : IsRead root label part n) (he : e ∈ Literal.entries n)
    (h : lost? label part e = some o) : o.FoundMerging root := by
  obtain ⟨name, hname, h⟩ := Option.bind_eq_some_iff.mp h
  have hkey : e.key = .named name := by
    cases hkey : e.key <;> simp_all [Literal.Key.name?]
  split at h
  · split at h
    · rename_i hmarked
      cases h
      exact .value hread he hkey hmarked
    · cases h
  · rename_i fields hvalue _
    split at h
    · rename_i hmarked
      cases h
      cases hv : Fields.find? "defaultValue" fields with
      | none => simp [hv] at hmarked
      | some v => exact .default hread he hkey hvalue hv (by simpa [hv] using hmarked)
    · cases h
  · rename_i hvalue
    cases h
    exact .description hread he hkey fun fields heq => hvalue fields heq

theorem mem_merged : o ∈ merged root ↔ o.FoundMerging root := by
  rw [mem_merged_iff]
  constructor
  · rintro ⟨label, part, n, hread, e, he, h⟩
    exact foundMerging_of_lost? hread he h
  · rintro (⟨hread, he, hkey, hmarked⟩ | ⟨hread, he, hkey, hvalue⟩ | ⟨hread, he, hkey, hvalue, hv, hmarked⟩)
    · exact ⟨_, _, _, hread, _, he, by simp [lost?, hkey, Literal.Key.name?, hmarked]⟩
    · refine ⟨_, _, _, hread, _, he, ?_⟩
      rw [lost?, hkey, Literal.Key.name?, Option.bind_some]
      split
      · simp_all
      · simp_all
      · rfl
    · exact ⟨_, _, _, hread, _, he, by simp [lost?, hkey, Literal.Key.name?, hvalue, hv, hmarked]⟩

/-! ### What is reported of them -/

theorem diagnostics_ofPart (p : Program) (d : Declaration) (label : String) (part : Part) (n : Node) :
    (candidateOf p d label part n).2 = (ofPart label n).map (diagnostic p) := by
  rw [candidateOf, ofPart]
  split
  · rw [List.map_filterMap]
    exact List.filterMap_congr fun e _ => skippedOf?_eq p label e
  · rfl

theorem diagnostics_ofDeclaration (p : Program) (d : Declaration) :
    (candidatesOf p d).2 = (ofDeclaration d).map (diagnostic p) := by
  rw [candidatesOf, ofDeclaration]
  cases d.part with
  | some part => exact diagnostics_ofPart p d d.label part d.node
  | none =>
    cases d.isObject with
    | false => rfl
    | true =>
      simp only [if_true, List.flatMap_map, List.map_flatMap]
      exact List.flatMap_congr fun x _ => diagnostics_ofPart p d _ x.1 x.2

theorem diagnostics_located (p : Program) : (locate p).diagnostics = (located p.root).map
    (diagnostic p) := by
  simp only [locate, located, List.flatMap_map, List.map_flatMap]
  exact List.flatMap_congr fun d _ => diagnostics_ofDeclaration p d

/-- Members without a name are no entries, so that nothing is reported of them. -/
theorem reported_entries (p : Program) (label : String) (part : Part) (es : List Entry) :
    (es.filterMap candidateEntryOf?).flatMap (reportedOf part label) =
      (es.filterMap (lost? label part)).map (diagnostic p) := by
  induction es with
  | nil => rfl
  | cons e es ih =>
    cases hentry : candidateEntryOf? e with
    | none =>
      have hlost : lost? label part e = none := by
        rw [lost?, Option.map_eq_none_iff.mp hentry, Option.bind_none]
      rw [List.filterMap_cons_none hentry, List.filterMap_cons_none hlost, ih]
    | some c =>
      rw [List.filterMap_cons_some hentry, List.flatMap_cons, ih, reportedOf_eq p label part hentry]
      cases hlost : lost? label part e with
      | none => rw [List.filterMap_cons_none hlost]; rfl
      | some o => rw [List.filterMap_cons_some hlost]; rfl

theorem reported_candidateOf (p : Program) (d : Declaration) (label : String) (part : Part) (n : Node) :
    (candidateOf p d label part n).1.flatMap (fun c => c.entries.flatMap (reportedOf c.part c.declaration)) =
      if n.is .object then ((Literal.entries n).filterMap (lost? label part)).map
        (diagnostic p) else [] := by
  rw [candidateOf]
  split
  · rw [List.flatMap_singleton, reported_entries p]
  · rfl

theorem reported_ofLiterals (p : Program) (d : Declaration) :
    (candidatesOf p d).1.flatMap (fun c => c.entries.flatMap (reportedOf c.part c.declaration)) =
      (ofLiterals d).map (diagnostic p) := by
  rw [candidatesOf, ofLiterals, literalsOf, List.map_flatMap]
  cases d.part with
  | some part =>
    have hobject : d.isObject = d.node.is .object := rfl
    rw [reported_candidateOf, hobject]
    split <;> simp
  | none =>
    cases d.isObject with
    | false => rfl
    | true =>
      simp only [if_true, List.flatMap_map, List.flatMap_assoc, reported_candidateOf]
      induction partsOf d.node with
      | nil => rfl
      | cons x xs ih =>
        cases hobject : x.2.is .object <;> simp [hobject, ih]

/-- What merging reports of the parts that were located. -/
theorem diagnostics_merged {a b : Nat} (h : InOrder a p.root.children b) :
    (merge (locate p).candidates).diagnostics = (merged p.root).map (diagnostic p) := by
  rw [diagnostics_merge_eq, candidates_eq h, List.flatMap_assoc, merged, List.map_flatMap]
  exact List.flatMap_congr fun d _ => reported_ofLiterals p d

/-! ### Their order -/

theorem inOrder_value (h : m.Orderly) (he : Literal.entryOf? m = some e) :
    InOrder m.start.byte [e.value] m.stop.byte := by
  by_cases hpair : m.is .pair = true
  · obtain ⟨horderly, hstart, hstop⟩ := inOrder_child h (Literal.entryOf?_pair hpair he)
    exact InOrder.singleton_iff.mpr ⟨hstart, horderly, hstop⟩
  · rw [Literal.value_of_entryOf? (fun hlabel => hpair (decide_eq_true hlabel)) he]
    exact InOrder.singleton_iff.mpr ⟨Nat.le_refl _, h, Nat.le_refl _⟩

/-- Omissions of members come in the order of the members. -/
theorem inOrder_filterMap_entries {f : Entry → Option Omission} (h : n.Orderly)
    (hf : ∀ e o, f e = some o → o.node = e.value) :
    InOrder n.start.byte (((Literal.entries n).filterMap f).map node) n.stop.byte := by
  rw [Literal.entries, List.filterMap_filterMap, List.map_filterMap]
  refine inOrder_filterMap (inOrder_namedChildren h.children) fun m c hm hc => ?_
  obtain ⟨o, ho, rfl⟩ := Option.map_eq_some_iff.mp hc
  obtain ⟨e, he, ho⟩ := Option.bind_eq_some_iff.mp ho
  rw [hf e o ho]
  exact inOrder_value hm he

theorem inOrder_ofPart (h : n.Orderly) (label : String) :
    InOrder n.start.byte ((ofPart label n).map node) n.stop.byte := by
  rw [ofPart]
  split
  · exact inOrder_filterMap_entries h fun _ _ => node_of_unnamed?
  · exact InOrder.singleton_iff.mpr ⟨Nat.le_refl _, h, Nat.le_refl _⟩

theorem inOrder_ofDeclaration (h : d.node.Orderly) :
    InOrder d.node.start.byte ((ofDeclaration d).map node) d.node.stop.byte := by
  rw [ofDeclaration]
  split
  · exact inOrder_ofPart h _
  · split
    · rw [List.map_flatMap]
      exact (inOrder_partsOf h).flatMap_of_map fun x _ hx => inOrder_ofPart hx _
    · exact InOrder.singleton_iff.mpr ⟨Nat.le_refl _, h, Nat.le_refl _⟩

theorem nodes_literalsOf (d : Declaration) : (literalsOf d).map (·.2.2) = consumedOf d := by
  rw [literalsOf, consumedOf]
  cases d.part with
  | some part => cases hobject : d.node.is .object <;> simp [Declaration.isObject, hobject]
  | none =>
    cases d.isObject with
    | false => rfl
    | true => simp only [if_true, List.map_map, List.filter_map]; rfl

theorem inOrder_ofLiterals (h : d.node.Orderly) :
    InOrder d.node.start.byte ((ofLiterals d).map node) d.node.stop.byte := by
  have hliterals := inOrder_consumedOf h
  rw [← nodes_literalsOf] at hliterals
  rw [ofLiterals, List.map_flatMap]
  exact hliterals.flatMap_of_map fun x _ hx => inOrder_filterMap_entries hx fun _ _ => node_of_lost?

/-- What is found in the declarations of a program comes in the order of the text. -/
theorem inOrder_flatMap_declarations {a b : Nat} (h : InOrder a root.children b)
    {f : Declaration → List Omission}
    (hf : ∀ d, d.node.Orderly → InOrder d.node.start.byte ((f d).map node) d.node.stop.byte) :
    InOrder a (((declarations root).flatMap f).map node) b := by
  have horder := inOrder_offered h
  rw [← declarations_eq h] at horder
  rw [List.map_flatMap]
  exact horder.flatMap_of_map fun d _ hd => hf d hd

end Omission

end

section

variable {v : Source.Variant} {text : String} {p : Program}

/-- What is reported of an accepted story. Reported is what is left out: what locating finds, and after
it what merging finds, each omission once, in the order of the text. The reports come in the order of
their lines, and those of one line in the order in which they were made. -/
theorem diagnostics_conserved (h : Program.ofText v text = .ok p) :
    (∃ located merged : List Omission,
      (∀ o, o ∈ located ↔ o.FoundLocating p.root) ∧ (located.map (·.node.start.byte)).Pairwise (· < ·) ∧
      (∀ o, o ∈ merged ↔ o.FoundMerging p.root) ∧ (merged.map (·.node.start.byte)).Pairwise (· < ·) ∧
      (locate p).diagnostics = located.map (·.diagnostic p) ∧
      (merge (locate p).candidates).diagnostics = merged.map (·.diagnostic p) ∧
      (extract p).diagnostics.Perm ((located ++ merged).map (·.diagnostic p)) ∧
      ∀ line, (extract p).diagnostics.filter (·.line = line) =
        ((located ++ merged).map (·.diagnostic p)).filter (·.line = line)) ∧
    (∀ d ∈ (extract p).diagnostics, d.kind = .unsupportedNode) ∧
    ∃ lines : List Nat, (extract p).diagnostics.map (·.line) = lines.map some ∧ lines.Pairwise (· ≤ ·) := by
  obtain ⟨b, horder⟩ := Source.inOrder_root h
  have hlocated := Omission.diagnostics_located p
  have hmerged := Omission.diagnostics_merged horder
  have hextract : (extract p).diagnostics = Diagnostic.sortByLine
      ((Omission.located p.root ++ Omission.merged p.root).map (·.diagnostic p)) := by
    rw [List.map_append, ← hlocated, ← hmerged]
    rfl
  have hperm : (extract p).diagnostics.Perm
      ((Omission.located p.root ++ Omission.merged p.root).map (·.diagnostic p)) :=
    hextract ▸ List.mergeSort_perm _ _
  have hreported : ∀ d ∈ (extract p).diagnostics, ∃ o : Omission, o.diagnostic p = d := fun d hd =>
    let ⟨o, _, ho⟩ := List.mem_map.mp (hperm.mem_iff.mp hd)
    ⟨o, ho⟩
  have hlines : ∀ d ∈ (extract p).diagnostics, d.line = some (d.line.getD 0) := fun d hd => by
    obtain ⟨o, rfl⟩ := hreported d hd
    rw [o.line_diagnostic p, Option.getD_some]
  refine ⟨⟨_, _, fun o => Omission.mem_located, ?_, fun o => Omission.mem_merged, ?_, hlocated, hmerged,
    hperm,
    fun line => ?_⟩, fun d hd => ?_, (extract p).diagnostics.map (·.line.getD 0), ?_, ?_⟩
  · have hnodes := Omission.inOrder_flatMap_declarations horder fun d => Omission.inOrder_ofDeclaration
    simpa only [Omission.located, List.pairwise_map] using hnodes.pairwise_start
  · have hnodes := Omission.inOrder_flatMap_declarations horder fun d => Omission.inOrder_ofLiterals
    simpa only [Omission.merged, List.pairwise_map] using hnodes.pairwise_start
  · rw [hextract, Diagnostic.filter_sortByLine]
  · obtain ⟨o, rfl⟩ := hreported d hd
    exact o.kind_diagnostic p
  · rw [List.map_map]
    exact List.map_congr_left hlines
  · have hsorted : (extract p).diagnostics.Pairwise (Diagnostic.lineLe · · = true) :=
      hextract ▸ Diagnostic.pairwise_sortByLine _
    refine List.pairwise_map.mpr (hsorted.imp_of_mem fun {a b} ha hb hle => ?_)
    rw [Diagnostic.lineLe, hlines a ha, hlines b hb] at hle
    exact of_decide_eq_true hle

end

/-- A part of metadata with two members without a name after one that cannot be evaluated, and
before another. -/
def omittingText : String :=
  "export default\x7bargs:\x7ba:f(),\n...x,[k]:1,b:g\x7d\x7d;"

theorem diagnostics_conserved_omittingText : ∃ p : Program, Program.ofText .tsx omittingText = .ok p ∧
    (extract p).diagnostics.map (·.line) = [1, 2, 2, 2].map some ∧
    ∃ located merged : List Omission, located.length = 2 ∧ merged.length = 2 ∧
      (∀ o, o ∈ located ↔ o.FoundLocating p.root) ∧ (located.map (·.node.start.byte)).Pairwise (· < ·) ∧
      (∀ o, o ∈ merged ↔ o.FoundMerging p.root) ∧ (merged.map (·.node.start.byte)).Pairwise (· < ·) ∧
      ∀ line, (extract p).diagnostics.filter (·.line = line) =
        ((located ++ merged).map (·.diagnostic p)).filter (·.line = line) := by
  have ⟨hp, hlocated, hmerged⟩ : (Source.syntaxFault? (parsed .tsx omittingText).root).isNone = true ∧
      (locate (parsed .tsx omittingText)).diagnostics.map (·.line) = [2, 2].map some ∧
      (merge (locate (parsed .tsx omittingText)).candidates).diagnostics.map (·.line) = [1, 2].map some := by
    decide +kernel
  have hp := ofText_eq_parsed .tsx omittingText hp
  obtain ⟨⟨located, merged, hmem, hsorted, hmem', hsorted', hdiagnostics, hdiagnostics', hperm, hstable⟩, -,
    lines, hlines, hordered⟩ := diagnostics_conserved hp
  have hreported := hperm.map (·.line)
  rw [List.map_append, ← hdiagnostics, ← hdiagnostics', List.map_append, hlocated, hmerged, hlines,
    ← List.map_append, List.map_perm_map_iff (Option.some_injective _)] at hreported
  have hsame : lines = [1, 2, 2, 2] :=
    (hreported.trans (by decide)).eq_of_pairwise (fun _ _ _ _ => Nat.le_antisymm) hordered (by decide)
  rw [hdiagnostics] at hlocated
  rw [hdiagnostics'] at hmerged
  exact ⟨_, hp, hsame ▸ hlines, located, merged, by simpa using congrArg List.length hlocated,
    by simpa using congrArg List.length hmerged, hmem, hsorted, hmem', hsorted', hstable⟩

end Story

end StoryManifest
