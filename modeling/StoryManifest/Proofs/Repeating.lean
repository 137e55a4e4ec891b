import StoryManifest.Proofs.TextOrder

/-!
Keys that are repeated in one object literal. Such a literal is read in two ways: as a value it is a
record, in which a key has its last value where it stands first; as a part of metadata it gives one
property for each key, in the same order. The two differ in one point: a property keeps the last default
value that is static, while a record has the last value, whatever it is.
-/

namespace StoryManifest.Story

open Source (Node Program InOrder parsed ofText_eq_parsed)
open Literal (memberValue?)

/-! ### Members and entries -/

/-- The members of an object literal that have names, with their values. -/
def namedValues (n : Node) : Fields Value := n.namedChildren.filterMap memberValue?

/-- The values that the members of a name have, in order. -/
def valuesOf (n : Node) (name : String) : List Value := ((namedValues n).filter (·.1 = name)).map Prod.snd

/-- The name and the value of an entry. -/
def CandidateEntry.pair (e : CandidateEntry) : String × Value := (e.name, e.value)

/-- The names and the values of the entries of a candidate. -/
def Candidate.pairs (c : Candidate) : Fields Value := c.entries.map CandidateEntry.pair

/-- The entries of an object literal are its members with names. -/
theorem pairs_entries (n : Node) :
    ((Literal.entries n).filterMap candidateEntryOf?).map CandidateEntry.pair = namedValues n := by
  rw [Literal.entries, List.map_filterMap, List.filterMap_filterMap, namedValues]
  refine List.filterMap_congr fun m _ => ?_
  rw [memberValue?]
  refine congrArg _ (funext fun e => ?_)
  rw [candidateEntryOf?, Option.map_map]
  rfl

theorem pairs_candidateOf (p : Program) (d : Declaration) (label : String) (part : Part) (n : Node) :
    (candidateOf p d label part n).1.map Candidate.pairs = ([n].filter (·.is .object)).map namedValues := by
  cases hobject : n.is .object <;> simp [candidateOf, hobject, Candidate.pairs, pairs_entries]

theorem pairs_candidates {p : Program} {a b : Nat} (h : InOrder a p.root.children b) :
    (locate p).candidates.map Candidate.pairs = (consumed p.root).map namedValues := by
  rw [candidates_eq h, List.map_flatMap, consumed, List.map_flatMap]
  exact List.flatMap_congr fun d _ => map_candidatesOf (pairs_candidateOf p d)

/-! ### One object literal -/

/-- An object literal whose members all have names is a record of them, put in one after the other. -/
theorem evaluate_of_named {n : Node} (hobject : n.is .object = true)
    (hnamed : ∀ e ∈ Literal.entries n, e.key.name? ≠ none) :
    Literal.evaluate n = .record (Fields.insertAll [] (namedValues n)) := by
  have hkeys : ∀ e ∈ (n.namedChildren.filterMap Literal.entryOf?).map fun e =>
      (e.key, Literal.evaluate e.value),
      e.1.name? ≠ none := by
    intro e he
    obtain ⟨x, hx, rfl⟩ := List.mem_map.mp he
    exact hnamed x hx
  rw [Literal.evaluate_object hobject, Literal.recordFrom_eq [] hkeys, List.filterMap_map,
    List.filterMap_filterMap]
  rfl

theorem find?_record (n : Node) (name : String) :
    (Fields.insertAll [] (namedValues n)).find? name = (valuesOf n name).getLast? := by
  have hnone : Fields.find? name ([] : Fields Value) = none := rfl
  rw [Fields.find?_insertAll, hnone, Option.or_none, valuesOf, List.getLast?_map]

theorem filterMap_unmarked? (vs : List Value) : vs.filterMap unmarked? = vs.filter Value.isStatic := by
  have hguard : unmarked? = Option.guard Value.isStatic := funext fun v => by
    by_cases h : v.Marked <;> simp [unmarked?, Option.guard, Value.isStatic_iff, h]
  rw [hguard, List.filterMap_eq_filter]

/-- Of entries that give default values, the last static value of a name is its default value. -/
theorem defaultOf_args (es : List CandidateEntry) (name : String) : defaultOf (es.map (Part.args, ·)) name =
    ((((es.map CandidateEntry.pair).filter (·.1 = name)).map Prod.snd).filter Value.isStatic).getLast? := by
  have hentries : (es.map (Part.args, ·)).filter (·.2.name = name) =
      (es.filter (·.name = name)).map (Part.args, ·) := List.filter_map
  have hvalues : ((es.map CandidateEntry.pair).filter (·.1 = name)).map Prod.snd =
      (es.filter (·.name = name)).map (·.value) := by
    rw [List.filter_map, List.map_map]
    rfl
  have hdescribed : lastOf describedDefault? (es.map (Part.args, ·)) name = none := by
    simp [lastOf, describedDefault?, described?]
  rw [defaultOf, hdescribed, Option.or_none, lastOf, hentries, hvalues, ← filterMap_unmarked?,
    List.filterMap_map,
    List.filterMap_map]
  rfl

/-- The last one that passes a test is the last one of all, if it passes, exactly when it does or
none does. -/
theorem getLast?_filter_eq_iff {α : Type} {test : α → Bool} {xs : List α} :
    (xs.filter test).getLast? = xs.getLast?.filter test ↔
      xs.getLast?.any test = true ∨ ∀ x ∈ xs, test x = false := by
  induction xs using List.reverseRecOn with
  | nil => simp
  | append_singleton xs x _ =>
    cases hx : test x with
    | true => simp [hx, Option.filter_some]
    | false => simp [hx, Option.filter_some, or_imp, forall_and]

section

variable {v : Source.Variant} {text : String} {p : Program}

/-- Where one object literal of default values is all that is read and its members have names, the keys
of the record that it is are the names of the properties, in the same order. The record has the last
value of each key, the property the last static one: so the default value is the value in the record, if
static, exactly when that is static or no value of the key is. -/
theorem properties_ofRecord (h : Program.ofText v text = .ok p) {n : Node} (hread : consumed p.root = [n])
    (hargs : ∀ c ∈ (locate p).candidates, c.part = .args)
    (hnamed : ∀ e ∈ Literal.entries n, e.key.name? ≠ none) :
    ∃ m : Fields Value, Literal.evaluate n = .record m ∧ (extract p).properties.map (·.name) = m.keys ∧
      ∀ q ∈ (extract p).properties, m.find? q.name = (valuesOf n q.name).getLast? ∧
        q.default = ((valuesOf n q.name).filter Value.isStatic).getLast? ∧
        (q.default = (m.find? q.name).filter Value.isStatic ↔
          (m.find? q.name).any Value.isStatic = true ∨ ∀ v ∈ valuesOf n q.name, v.isStatic = false) := by
  obtain ⟨b, horder⟩ := Source.inOrder_root h
  have hobject : n.is .object = true := by
    obtain ⟨d, -, hd⟩ := List.mem_flatMap.mp (hread ▸ List.mem_singleton_self n : n ∈ consumed p.root)
    exact isObject_of_mem_consumedOf hd
  -- The only candidate has the members of the literal as its entries.
  obtain ⟨c, hc, hpairs⟩ : ∃ c, (locate p).candidates = [c] ∧ c.pairs = namedValues n := by
    rw [← List.map_eq_singleton_iff, pairs_candidates horder, hread]
    rfl
  have hreadings : readings (locate p).candidates = c.entries.map (Part.args, ·) := by
    simp [readings, hc, hargs c (by simp [hc])]
  have hproperties : (extract p).properties =
      (namesOf (readings (locate p).candidates)).map (propertyOf (readings (locate p).candidates)) :=
    (merge_reads _).properties
  have hnames : namesOf (readings (locate p).candidates) = ((namedValues n).map Prod.fst).eraseDups := by
    rw [namesOf, hreadings, ← hpairs, Candidate.pairs, List.map_map, List.map_map]
    rfl
  refine ⟨_, evaluate_of_named hobject hnamed, ?_, fun q hq => ?_⟩
  · rw [hproperties, List.map_map, Fields.keys_insertAll, ← hnames]
    exact List.map_id _
  · have hdefault : q.default = ((valuesOf n q.name).filter Value.isStatic).getLast? := by
      rw [hproperties] at hq
      obtain ⟨name, -, rfl⟩ := List.mem_map.mp hq
      show defaultOf (readings (locate p).candidates) name = _
      rw [hreadings, defaultOf_args]
      exact congrArg (fun es => (((es.filter (·.1 = name)).map Prod.snd).filter Value.isStatic).getLast?)
        hpairs
    refine ⟨find?_record n q.name, hdefault, ?_⟩
    rw [hdefault, find?_record]
    exact getLast?_filter_eq_iff

end

/-- A key that has a static value at last, and one that never has. -/
def repeatedStatic : String := "export default\x7bargs:\x7ba:f(),b:[g],\"a\":1,b:h()\x7d\x7d;"

theorem properties_ofRecord_repeatedStatic : ∃ (p : Program) (n : Node),
    Program.ofText .tsx repeatedStatic = .ok p ∧ consumed p.root = [n] ∧
    (∀ c ∈ (locate p).candidates, c.part = .args) ∧ (∀ e ∈ Literal.entries n, e.key.name? ≠ none) ∧
    ∃ m : Fields Value, Literal.evaluate n = .record m ∧ (extract p).properties.map (·.name) = m.keys ∧
      ∀ q ∈ (extract p).properties, m.find? q.name = (valuesOf n q.name).getLast? ∧
        q.default = ((valuesOf n q.name).filter Value.isStatic).getLast? ∧
        (q.default = (m.find? q.name).filter Value.isStatic ↔
          (m.find? q.name).any Value.isStatic = true ∨ ∀ v ∈ valuesOf n q.name, v.isStatic = false) := by
  let p := parsed .tsx repeatedStatic
  have ⟨hp, hread, hargs, hnamed⟩ : (Source.syntaxFault? p.root).isNone = true ∧
      (consumed p.root).length = 1 ∧
      (∀ c ∈ (locate p).candidates, c.part = .args) ∧
      ∀ n ∈ consumed p.root, ∀ e ∈ Literal.entries n, e.key.name? ≠ none := by
    decide +kernel
  have hp := ofText_eq_parsed .tsx repeatedStatic hp
  obtain ⟨n, hn⟩ := List.length_eq_one_iff.mp hread
  have hnamed := hnamed n (by simp [hn])
  exact ⟨p, n, hp, hn, hargs, hnamed, properties_ofRecord hp hn hargs hnamed⟩

/-- A key that has a static value at first and another one at last. -/
def repeatedDynamic : String := "export default\x7bargs:\x7ba:1,a:f()\x7d\x7d;"

/-- The property keeps the static value that the record has not. -/
theorem default_kept : ∃ (p : Program) (n : Node) (m : Fields Value),
    Program.ofText .tsx repeatedDynamic = .ok p ∧ consumed p.root = [n] ∧
    (∀ c ∈ (locate p).candidates, c.part = .args) ∧ (∀ e ∈ Literal.entries n, e.key.name? ≠ none) ∧
    Literal.evaluate n = .record m ∧ m.keys = ["a"] ∧ (m.find? "a").any Value.isStatic = false ∧
    (extract p).properties.map (fun q => (q.name, q.default.isSome)) = [("a", true)] := by
  let p := parsed .tsx repeatedDynamic
  have ⟨hp, hread, hargs, hnamed, hobject, hrecord, hproperties⟩ :
      (Source.syntaxFault? p.root).isNone = true ∧
      (consumed p.root).length = 1 ∧ (∀ c ∈ (locate p).candidates, c.part = .args) ∧
      (∀ n ∈ consumed p.root, ∀ e ∈ Literal.entries n, e.key.name? ≠ none) ∧
      (∀ n ∈ consumed p.root, n.is .object = true) ∧
      (∀ n ∈ consumed p.root, (Fields.insertAll [] (namedValues n)).keys = ["a"] ∧
        ((Fields.insertAll [] (namedValues n)).find? "a").any Value.isStatic = false) ∧
      (extract p).properties.map (fun q => (q.name, q.default.isSome)) = [("a", true)] := by
    decide +kernel
  obtain ⟨n, hn⟩ := List.length_eq_one_iff.mp hread
  have hmem : n ∈ consumed p.root := by simp [hn]
  obtain ⟨hkeys, hvalue⟩ := hrecord n hmem
  exact ⟨p, n, _, ofText_eq_parsed .tsx repeatedDynamic hp, hn, hargs, hnamed n hmem,
    evaluate_of_named (hobject n hmem) (hnamed n hmem), hkeys, hvalue, hproperties⟩

end StoryManifest.Story
