import StoryManifest.Proofs.Extraction
import StoryManifest.Proofs.Offers
import StoryManifest.Story.Candidate

/-!
Properties come in the order of the text. The object literals that are read as parts of metadata come one
after the other and so do the keys in them; so sorting finds the candidates in order already, and a
property stands where its name is a key for the first time.
-/

namespace StoryManifest.Source

/-! ### Nodes in order -/

namespace InOrder

variable {a b : Nat}

/-- Some of the nodes, put in order, are in order. -/
theorem of_subset {ms ns : List Node} (h : InOrder a ns b) (hsub : ms ⊆ ns)
    (hms : ms.Pairwise (·.start.byte < ·.start.byte)) : InOrder a ms b := by
  have hantisymm : Std.Antisymm fun m n : Node => m.start.byte < n.start.byte :=
    ⟨fun m n hmn hnm => absurd hmn (Nat.lt_asymm hnm)⟩
  have hirrefl : Std.Irrefl fun m n : Node => m.start.byte < n.start.byte := ⟨fun _ => Nat.lt_irrefl _⟩
  exact h.sublist (List.sublist_of_subperm_of_pairwise (List.subperm_of_subset hms.nodup hsub) hms
    h.pairwise_start)

/-- What stands for each of some things, inside the node of the thing, is in order. -/
theorem flatMap_of_map {α : Type} {g : α → Node} {f : α → List Node} :
    ∀ {as : List α} {a : Nat}, InOrder a (as.map g) b →
      (∀ x ∈ as, (g x).Orderly → InOrder (g x).start.byte (f x) (g x).stop.byte) →
      InOrder a (as.flatMap f) b
  | [], _, h, _ => h
  | x :: as, a, h, hf => by
    obtain ⟨hle, hx, hrest⟩ := cons_iff.mp h
    rw [List.flatMap_cons]
    exact ((hf x (by simp) hx).mono hle (Nat.le_refl _)).append
      (flatMap_of_map hrest fun y hy => hf y (List.mem_cons_of_mem _ hy))

/-- Nodes in order share no byte. -/
theorem pairwise_stop {ns : List Node} (h : InOrder a ns b) :
    ns.Pairwise fun m n => m.stop.byte ≤ n.start.byte := by
  induction h with
  | nil => exact .nil
  | cons _ _ _ hrest _ ih => exact .cons (fun n hn => (hrest.mem hn).1) ih

end InOrder

end StoryManifest.Source

namespace StoryManifest.Story

open Source (Node Program InOrder)
open Literal (Entry)

/-! ### The parts of a declaration -/

/-- The object literals that a declaration gives as parts of metadata. -/
def consumedOf (d : Declaration) : List Node :=
  match d.part with
  | some _ => [d.node].filter (·.is .object)
  | none => if d.isObject then ((partsOf d.node).map Prod.snd).filter (·.is .object) else []

theorem isObject_of_mem_consumedOf {d : Declaration} {n : Node} (h : n ∈ consumedOf d) :
    n.is .object = true := by
  rw [consumedOf] at h
  split at h
  · exact (List.mem_filter.mp h).2
  · split at h
    · exact (List.mem_filter.mp h).2
    · cases h

/-- The object literals that are read as parts of metadata, declaration by declaration. -/
def consumed (root : Node) : List Node := (declarations root).flatMap consumedOf

/-- What is behind the value of a member is inside the member. -/
theorem inOrder_entryOf {m : Node} {e : Entry} (h : m.Orderly) (he : Literal.entryOf? m = some e) :
    InOrder m.start.byte [e.value.unwrap] m.stop.byte := by
  by_cases hpair : m.is .pair = true
  · exact inOrder_unwrapped h (Literal.entryOf?_pair hpair he)
  · have hlabel : m.label ≠ .named .pair := fun hlabel => hpair (decide_eq_true hlabel)
    rw [Literal.value_of_entryOf? hlabel he]
    exact Node.Orderly.unwrap m h

theorem inOrder_entries {n : Node} (h : n.Orderly) :
    InOrder n.start.byte ((Literal.entries n).map (·.value.unwrap)) n.stop.byte := by
  rw [Literal.entries, List.map_filterMap]
  refine inOrder_filterMap (inOrder_namedChildren h.children) fun m c hm hc => ?_
  obtain ⟨e, he, rfl⟩ := Option.map_eq_some_iff.mp hc
  exact inOrder_entryOf hm he

/-- The last member for a part of metadata. -/
def lastMember? (n : Node) (part : Part) : Option Entry :=
  ((Literal.entries n).filter fun e => e.key.name?.bind Part.ofKey? = some part).getLast?

theorem mem_of_lastMember? {n : Node} {part : Part} {e : Entry} (h : lastMember? n part = some e) :
    e ∈ Literal.entries n ∧ e.key.name?.bind Part.ofKey? = some part := by
  obtain ⟨hmem, hpart⟩ := List.mem_filter.mp (List.mem_of_getLast? h)
  exact ⟨hmem, of_decide_eq_true hpart⟩

/-- The last members for the two parts, unwrapped, whichever comes first in the text. -/
def lastParts (n : Node) : List (Part × Node) :=
  ((lastMember? n .args).map fun e => (Part.args, e.value.unwrap)).toList ++
    ((lastMember? n .argTypes).map fun e => (Part.argTypes, e.value.unwrap)).toList

theorem partsOf_perm (n : Node) : (partsOf n).Perm (lastParts n) := List.mergeSort_perm _ _

theorem mem_lastParts {n m : Node} {part : Part} : (part, m) ∈ lastParts n ↔
    ∃ e, lastMember? n part = some e ∧ e.value.unwrap = m := by
  simp only [lastParts, List.mem_append, Option.mem_toList, Option.map_eq_some_iff, Prod.mk.injEq]
  constructor
  · rintro (⟨e, he, rfl, rfl⟩ | ⟨e, he, rfl, rfl⟩) <;> exact ⟨e, he, rfl⟩
  · rintro ⟨e, he, rfl⟩
    cases part with
    | args => exact .inl ⟨e, he, rfl, rfl⟩
    | argTypes => exact .inr ⟨e, he, rfl, rfl⟩

theorem sorted_partsOf (n : Node) :
    (partsOf n).Pairwise fun a b => a.2.start.byte ≤ b.2.start.byte := by
  refine (List.pairwise_mergeSort ?_ ?_ _).imp of_decide_eq_true
  · intro a b c hab hbc
    exact decide_eq_true (Nat.le_trans (of_decide_eq_true hab) (of_decide_eq_true hbc))
  · intro a b
    simp [Nat.le_total]

/-- The parts in a declaration are in the order of the text. -/
theorem inOrder_partsOf {n : Node} (h : n.Orderly) :
    InOrder n.start.byte ((partsOf n).map Prod.snd) n.stop.byte := by
  have hentries := inOrder_entries h
  have hstarts : ((Literal.entries n).map (·.value.unwrap.start.byte)).Nodup := by
    have hlt := List.pairwise_map.mp hentries.pairwise_start
    exact List.pairwise_map.mpr (hlt.imp Nat.ne_of_lt)
  -- The members for different parts are different members, so they start at different bytes.
  have hne : (lastParts n).Pairwise fun a b => a.2.start.byte ≠ b.2.start.byte := by
    refine List.Pairwise.imp_of_mem ?_ (show (lastParts n).Pairwise fun a b => a.1 ≠ b.1 from ?_)
    · rintro ⟨part, m⟩ ⟨part', m'⟩ hm hm' hparts hstart
      obtain ⟨e, he, rfl⟩ := mem_lastParts.mp hm
      obtain ⟨e', he', rfl⟩ := mem_lastParts.mp hm'
      obtain ⟨hmem, hpart⟩ := mem_of_lastMember? he
      obtain ⟨hmem', hpart'⟩ := mem_of_lastMember? he'
      obtain rfl := List.inj_on_of_nodup_map hstarts hmem hmem' hstart
      exact hparts (Option.some.inj (hpart.symm.trans hpart'))
    · cases hargs : lastMember? n .args <;> cases htypes : lastMember? n .argTypes <;>
        simp [lastParts, hargs, htypes]
  refine hentries.of_subset (fun m hm => ?_) (List.pairwise_map.mpr ?_)
  · obtain ⟨⟨part, m⟩, hmem, rfl⟩ := List.mem_map.mp hm
    obtain ⟨e, he, rfl⟩ := mem_lastParts.mp ((partsOf_perm n).mem_iff.mp hmem)
    exact List.mem_map_of_mem (mem_of_lastMember? he).1
  · exact (sorted_partsOf n).imp₂ (fun _ _ hle hne => Nat.lt_of_le_of_ne hle hne)
      (((partsOf_perm n).pairwise_iff fun h => Ne.symm h).mpr hne)

theorem inOrder_consumedOf {d : Declaration} (h : d.node.Orderly) :
    InOrder d.node.start.byte (consumedOf d) d.node.stop.byte := by
  rw [consumedOf]
  split
  · exact (InOrder.singleton_iff.mpr ⟨Nat.le_refl _, h, Nat.le_refl _⟩).sublist List.filter_sublist
  · split
    · exact (inOrder_partsOf h).sublist List.filter_sublist
    · exact .nil (Nat.le_of_lt h.span)

/-! ### Keys -/

/-- The node that a member of an object literal has its key from. -/
def keyNode? (m : Node) : Option Node :=
  match m.label with
  | .named .pair => m.child? .key
  | .named .methodDefinition => m.child? .name
  | _ => some m

/-- The name of a member that has one, with the node that it is from. -/
def namedKey? (m : Node) : Option (String × Node) :=
  ((Literal.entryOf? m).bind (·.key.name?)).bind fun name => (keyNode? m).map fun key => (name, key)

/-- The named keys of an object literal. -/
def namedKeys (object : Node) : List (String × Node) := object.namedChildren.filterMap namedKey?

/-- The named keys of the object literals that are read as parts of metadata. -/
def keys (root : Node) : List (String × Node) := (consumed root).flatMap namedKeys

/-- The byte at which a name starts for the first time as a key. -/
def firstByte? (root : Node) (name : String) : Option Nat :=
  (((keys root).filter (·.1 = name)).map (·.2.start.byte)).min?

theorem keyNode?_inOrder {m key : Node} (h : m.Orderly) (hkey : keyNode? m = some key) :
    InOrder m.start.byte [key] m.stop.byte := by
  rw [keyNode?] at hkey
  split at hkey
  iterate 2
    obtain ⟨hkey, hstart, hstop⟩ := inOrder_child h hkey
    exact InOrder.singleton_iff.mpr ⟨hstart, hkey, hstop⟩
  cases hkey
  exact InOrder.singleton_iff.mpr ⟨Nat.le_refl _, h, Nat.le_refl _⟩

theorem inOrder_namedKeys {n : Node} (h : n.Orderly) :
    InOrder n.start.byte ((namedKeys n).map Prod.snd) n.stop.byte := by
  rw [namedKeys, List.map_filterMap]
  refine inOrder_filterMap (inOrder_namedChildren h.children) fun m key hm hkey => ?_
  simp only [namedKey?, Option.map_bind, Option.bind_eq_some_iff, Function.comp_apply, Option.map_map,
    Option.map_eq_some_iff] at hkey
  obtain ⟨_, -, key', hkey, rfl⟩ := hkey
  exact keyNode?_inOrder hm hkey

/-- A member whose key has a name has a node for its key. -/
theorem exists_keyNode? {m : Node} {e : Entry} {name : String} (he : Literal.entryOf? m = some e)
    (hname : e.key.name? = some name) : ∃ key, keyNode? m = some key := by
  unfold Literal.entryOf? at he
  unfold keyNode?
  split at he
  · rename_i hlabel
    rw [hlabel]
    split at he
    · rename_i key _ hkey _
      exact ⟨key, hkey⟩
    · cases he
  · rename_i hlabel
    rw [hlabel]
    exact ⟨m, rfl⟩
  · rename_i hlabel
    rw [hlabel]
    cases hkey : m.child? .name with
    | some key => exact ⟨key, rfl⟩
    | none =>
      rw [hkey] at he
      cases he
      cases hname
  · cases he
    cases hname
  · cases he

/-- The entries of a part of metadata have the named keys of its object literal as their names. -/
theorem names_namedKeys (n : Node) : (namedKeys n).map Prod.fst =
    ((Literal.entries n).filterMap candidateEntryOf?).map (·.name) := by
  rw [namedKeys, Literal.entries, List.map_filterMap, List.filterMap_filterMap, List.map_filterMap]
  refine List.filterMap_congr fun m _ => ?_
  rw [namedKey?]
  cases he : Literal.entryOf? m with
  | none => rfl
  | some e =>
    cases hname : e.key.name? with
    | none => simp [candidateEntryOf?, hname]
    | some name =>
      obtain ⟨key, hkey⟩ := exists_keyNode? he hname
      simp [candidateEntryOf?, hname, hkey]

/-! ### Candidates -/

/-- Where an object literal starts, with the names of its keys. -/
def summaryOf (object : Node) : Nat × List String := (object.start.byte, (namedKeys object).map Prod.fst)

/-- Where a candidate starts, with the names of its entries. -/
def Candidate.summary (c : Candidate) : Nat × List String := (c.position, c.entries.map (·.name))

theorem summaries_candidateOf (p : Program) (d : Declaration) (label : String) (part : Part) (n : Node) :
    (candidateOf p d label part n).1.map Candidate.summary = ([n].filter (·.is .object)).map summaryOf := by
  cases hobject : n.is .object <;>
    simp [candidateOf, hobject, Candidate.summary, summaryOf, names_namedKeys]

/-- A declaration has a candidate for each object literal that it gives: whatever a candidate has from
its object literal, the candidates have from those. -/
theorem map_candidatesOf {α : Type} {f : Candidate → α} {g : Node → α} {p : Program} {d : Declaration}
    (h : ∀ label part n, (candidateOf p d label part n).1.map f = ([n].filter (·.is .object)).map g) :
    (candidatesOf p d).1.map f = (consumedOf d).map g := by
  rw [candidatesOf, consumedOf]
  cases d.part with
  | some part => exact h ..
  | none =>
    cases d.isObject with
    | false => rfl
    | true =>
      have hparts : ∀ ps : List (Part × Node),
          (ps.flatMap fun e => (candidateOf p d (d.label ++ "." ++ e.1.key) e.1 e.2).1).map f =
            ((ps.map Prod.snd).filter (·.is .object)).map g := by
        intro ps
        induction ps with
        | nil => rfl
        | cons e ps ih =>
          rw [List.flatMap_cons, List.map_append, h, ih, List.map_cons, ← List.map_append,
            ← List.filter_append, List.singleton_append]
      simpa [List.flatMap_map] using hparts (partsOf d.node)

theorem summaries_candidatesOf (p : Program) (d : Declaration) :
    (candidatesOf p d).1.map Candidate.summary = (consumedOf d).map summaryOf :=
  map_candidatesOf (summaries_candidateOf p d)

section

variable {p : Program} {a b : Nat}

theorem inOrder_consumed (h : InOrder a p.root.children b) : InOrder a (consumed p.root) b := by
  have horder := inOrder_offered h
  rw [← declarations_eq h] at horder
  exact horder.flatMap_of_map fun d _ hd => inOrder_consumedOf hd

theorem summaries_candidates (p : Program) :
    ((declarations p.root).flatMap fun d => (candidatesOf p d).1).map Candidate.summary =
      (consumed p.root).map summaryOf := by
  simp only [consumed, List.map_flatMap, summaries_candidatesOf]

/-- The candidates come in the order of the text without being sorted. -/
theorem candidates_eq (h : InOrder a p.root.children b) :
    (locate p).candidates = (declarations p.root).flatMap fun d => (candidatesOf p d).1 := by
  have hpositions : (((declarations p.root).flatMap fun d => (candidatesOf p d).1).map
      Candidate.summary).Pairwise fun a b => a.1 < b.1 := by
    rw [summaries_candidates]
    exact List.pairwise_map.mpr (inOrder_consumed h).pairwise_start
  have hsorted : (locate p).candidates =
      ((declarations p.root).flatMap fun d => (candidatesOf p d).1).mergeSort
        fun a b => a.position ≤ b.position := by
    simp [locate, List.flatMap_map]
  rw [hsorted]
  refine List.mergeSort_of_pairwise ((List.pairwise_map.mp hpositions).imp fun hlt => ?_)
  exact decide_eq_true (Nat.le_of_lt hlt)

end

/-! ### First occurrences -/

section

variable {ks : List (String × Nat)}

/-- The least byte of a name is the one of its first occurrence. -/
theorem min?_filter (h : ks.Pairwise fun j k => j.2 < k.2) (name : String) :
    ((ks.filter (·.1 = name)).map Prod.snd).min? = (ks.find? (·.1 = name)).map Prod.snd := by
  have hmin : ((ks.filter (·.1 = name)).map Prod.snd).Pairwise fun a b => min a b = a :=
    List.pairwise_map.mpr ((h.sublist List.filter_sublist).imp fun hlt => Nat.min_eq_left (Nat.le_of_lt hlt))
  rw [List.min?_eq_head? hmin, List.head?_map, List.head?_filter]

/-- Names that occur at later and later bytes come in the order of the bytes at which they occur first. -/
theorem exists_firstBytes (h : ks.Pairwise fun j k => j.2 < k.2) : ∃ bytes : List Nat,
    (ks.map Prod.fst).eraseDups.map (fun name => (ks.find? (·.1 = name)).map Prod.snd) = bytes.map some ∧
    bytes.Pairwise (· < ·) ∧ ∀ byte ∈ bytes, byte ∈ ks.map Prod.snd := by
  induction ks using List.reverseRecOn with
  | nil => exact ⟨[], by simp⟩
  | append_singleton ks k ih =>
    obtain ⟨hks, -, hlast⟩ := List.pairwise_append.mp h
    obtain ⟨bytes, hbytes, hsorted, hmem⟩ := ih hks
    have hmem' : ∀ byte ∈ bytes, byte ∈ (ks ++ [k]).map Prod.snd := fun byte hbyte => by
      rw [List.map_append]
      exact List.mem_append_left _ (hmem byte hbyte)
    have hbefore : (ks.map Prod.fst).eraseDups.map
        (fun name => ((ks ++ [k]).find? (·.1 = name)).map Prod.snd) = bytes.map some := by
      rw [← hbytes]
      refine List.map_congr_left fun name hname => ?_
      obtain ⟨j, hj, rfl⟩ := List.mem_map.mp (List.mem_eraseDups.mp hname)
      obtain ⟨i, hi⟩ := Option.isSome_iff_exists.mp
        (List.find?_isSome.mpr ⟨j, hj, decide_eq_true rfl⟩ : (ks.find? (·.1 = j.1)).isSome = true)
      simp [List.find?_append, hi]
    rw [List.map_append, List.map_singleton, Fields.eraseDups_concat]
    split
    · exact ⟨bytes, hbefore, hsorted, hmem'⟩
    · rename_i hnew
      have hnone : ks.find? (·.1 = k.1) = none := by
        refine List.find?_eq_none.mpr fun j hj hjk => hnew ?_
        exact of_decide_eq_true hjk ▸ List.mem_map_of_mem hj
      refine ⟨bytes ++ [k.2], ?_, ?_, ?_⟩
      · rw [List.map_append, hbefore, List.map_append]
        simp [List.find?_append, hnone]
      · refine List.pairwise_append.mpr ⟨hsorted, List.pairwise_singleton _ _, fun byte hbyte c hc => ?_⟩
        obtain ⟨j, hj, rfl⟩ := List.mem_map.mp (hmem byte hbyte)
        rw [List.mem_singleton.mp hc]
        exact hlast j hj k (by simp)
      · intro byte hbyte
        rcases List.mem_append.mp hbyte with hbyte | hbyte
        · exact hmem' byte hbyte
        · rw [List.mem_singleton.mp hbyte]
          simp

end

/-! ### The order of the properties -/

section

variable {v : Source.Variant} {text : String} {p : Program}

theorem pairwise_keys (h : Program.ofText v text = .ok p) :
    ((keys p.root).map fun e => (e.1, e.2.start.byte)).Pairwise fun j k => j.2 < k.2 := by
  obtain ⟨b, horder⟩ := Source.inOrder_root h
  have hkeys : InOrder 0 ((keys p.root).map Prod.snd) b := by
    rw [keys, List.map_flatMap]
    exact (inOrder_consumed horder).flatMap fun n _ hn => inOrder_namedKeys hn
  simpa only [List.pairwise_map] using hkeys.pairwise_start

/-- The properties have the named keys as their names, in the order in which they occur first. -/
theorem names_properties (h : Program.ofText v text = .ok p) :
    (extract p).properties.map (·.name) = ((keys p.root).map Prod.fst).eraseDups := by
  obtain ⟨b, horder⟩ := Source.inOrder_root h
  have hnames : (readings (locate p).candidates).map (·.2.name) = (keys p.root).map Prod.fst := by
    have hsummaries := congrArg (List.flatMap Prod.snd) (summaries_candidates p)
    rw [← candidates_eq horder, List.flatMap_map, List.flatMap_map] at hsummaries
    simpa [readings, keys, List.map_flatMap, Candidate.summary, summaryOf, Function.comp_def]
      using hsummaries
  have hproperties : (extract p).properties =
      (namesOf (readings (locate p).candidates)).map (propertyOf (readings (locate p).candidates)) :=
    (merge_reads _).properties
  rw [hproperties, List.map_map, namesOf, hnames]
  exact List.map_id _

/-- The object literals that are read as parts of metadata share no byte, the located candidates are those
object literals in the order of the text, and the properties come in the order of the bytes at which their
names are keys of those object literals for the first time. -/
theorem properties_textOrder (h : Program.ofText v text = .ok p) :
    ((consumed p.root).Pairwise fun m n => m.stop.byte ≤ n.start.byte) ∧
    (locate p).candidates.map (·.position) = (consumed p.root).map (·.start.byte) ∧
    ((locate p).candidates.map (·.position)).Pairwise (· < ·) ∧
    ∃ bytes : List Nat, (extract p).properties.map (fun q => firstByte? p.root q.name) = bytes.map some ∧
      bytes.Pairwise (· < ·) := by
  obtain ⟨b, hroot⟩ := Source.inOrder_root h
  have horder := inOrder_consumed hroot
  have hpositions : (locate p).candidates.map (·.position) = (consumed p.root).map (·.start.byte) := by
    have hsummaries := congrArg (List.map Prod.fst) (summaries_candidates p)
    rw [← candidates_eq hroot, List.map_map, List.map_map] at hsummaries
    exact hsummaries
  refine ⟨horder.pairwise_stop, hpositions, ?_, ?_⟩
  · rw [hpositions]
    exact List.pairwise_map.mpr horder.pairwise_start
  · obtain ⟨bytes, hbytes, hsorted, -⟩ := exists_firstBytes (pairwise_keys h)
    refine ⟨bytes, ?_, hsorted⟩
    have hfirst : ∀ name, firstByte? p.root name =
        (((keys p.root).map fun e => (e.1, e.2.start.byte)).find? (·.1 = name)).map Prod.snd := by
      intro name
      rw [← min?_filter (pairwise_keys h), List.filter_map, List.map_map]
      rfl
    calc (extract p).properties.map (fun q => firstByte? p.root q.name)
      _ = ((extract p).properties.map (·.name)).map (firstByte? p.root) := by
        rw [List.map_map]
        rfl
      _ = bytes.map some := by
        rw [names_properties h, List.map_congr_left fun name _ => hfirst name, ← hbytes, List.map_map]
        rfl

end

/-- The key `size` stands in both parts; it is counted where it stands first. -/
theorem properties_textOrder_sizes : ∃ p : Program,
    Program.ofText .tsx
      ("export default \x7b args: \x7b\"size\":1,\"lines\":2\x7d, " ++
        "argTypes: \x7b\"wide\":\x7b\x7d,\"size\":\x7b\x7d\x7d \x7d;") = .ok p ∧
    (extract p).properties.map (·.name) = ["size", "lines", "wide"] ∧
    ((consumed p.root).Pairwise fun m n => m.stop.byte ≤ n.start.byte) ∧
    (locate p).candidates.map (·.position) = (consumed p.root).map (·.start.byte) ∧
    ((locate p).candidates.map (·.position)).Pairwise (· < ·) ∧
    ∃ bytes : List Nat, (extract p).properties.map (fun q => firstByte? p.root q.name) = bytes.map some ∧
      bytes.Pairwise (· < ·) := by
  have hargs : Value.Plain Source.FitsReal
      (.record [("size", .number (.integer 1)), ("lines", .number (.integer 2))]) :=
    .record (by decide) (by simpa using ⟨.number (by decide), .number (by decide)⟩)
  have htypes : Value.Plain Source.FitsReal (.record [("wide", .record []), ("size", .record [])]) :=
    .record (by decide) (by simpa using .record (by decide) (by simp))
  obtain ⟨place, n, hexport, hprogram⟩ := Source.ofText_exportChars .tsx .compact hargs htypes rfl
  obtain ⟨args, types, _, hlocate, hargs, htypes⟩ := locate_export _ _ place hexport
  refine ⟨_, hprogram, ?_, properties_textOrder hprogram⟩
  rw [extract, (merge_reads _).properties, hlocate, List.map_map,
    namesOf_pair hargs htypes (by decide) (by decide)]
  rfl

end StoryManifest.Story
