import Mathlib.Data.List.Induction
import Mathlib.Data.List.Nodup
import StoryManifest.Value

/-!
Key and value pairs as an ordered map. A new key goes to the end and an old one keeps its place, so
pairs that are put in one after the other come out as they were when no key occurs twice.
-/

namespace StoryManifest.Fields

variable {α : Type}

/-- The keys in order. -/
def keys (m : Fields α) : List String := m.map Prod.fst

@[simp] theorem keys_nil : keys ([] : Fields α) = [] := rfl

@[simp] theorem keys_cons (k : String) (v : α) (m : Fields α) : keys ((k, v) :: m) = k :: keys m := rfl

@[simp] theorem keys_append (m n : Fields α) : keys (m ++ n) = keys m ++ keys n := by simp [keys]

/-! ### Looking up -/

theorem find?_eq_none : ∀ {m : Fields α} {k : String}, m.find? k = none ↔ k ∉ keys m
  | [], _ => by simp [find?]
  | (j, w) :: m, k => by
    by_cases h : j = k
    · simp [find?, h]
    · have : ¬k = j := fun h' => h h'.symm
      simp [find?, h, this, find?_eq_none (m := m)]

theorem find?_of_mem : ∀ {m : Fields α} {k : String} {v : α}, (keys m).Nodup → (k, v) ∈ m →
    m.find? k = some v
  | (j, w) :: m, k, v, hn, hm => by
    rw [keys_cons, List.nodup_cons] at hn
    rcases List.mem_cons.mp hm with h | h
    · obtain ⟨rfl, rfl⟩ := Prod.mk.inj h
      simp [find?]
    · have hk : k ∈ keys m := List.mem_map_of_mem h
      have : ¬j = k := fun h' => hn.1 (h' ▸ hk)
      simp [find?, this, find?_of_mem hn.2 h]

theorem mem_of_find? : ∀ {m : Fields α} {k : String} {v : α}, m.find? k = some v → (k, v) ∈ m
  | (j, w) :: m, k, v, h => by
    by_cases hj : j = k
    · rw [find?, if_pos hj] at h
      obtain rfl := Option.some.inj h
      simp [hj]
    · rw [find?, if_neg hj] at h
      exact List.mem_cons_of_mem _ (mem_of_find? h)

/-- Where no key occurs twice, the pairs of a key are the one that looking it up finds. -/
theorem filter_key : ∀ {m : Fields α} (k : String), (keys m).Nodup →
    List.filter (·.1 = k) m = ((m.find? k).map fun v => (k, v)).toList
  | [], _, _ => rfl
  | (j, w) :: m, k, hn => by
    rw [keys_cons, List.nodup_cons] at hn
    have ih := filter_key k hn.2
    by_cases h : j = k
    · subst h
      have hnone : find? j m = none := find?_eq_none.mpr hn.1
      rw [hnone] at ih
      simpa [find?] using ih
    · simpa [find?, h] using ih

/-- Pairs in another order have the same values. -/
theorem find?_perm {m n : Fields α} (h : m.Perm n) (hn : (keys n).Nodup) (k : String) :
    m.find? k = n.find? k := by
  have hm : (keys m).Nodup := (h.map Prod.fst).nodup_iff.mpr hn
  cases hk : n.find? k with
  | none =>
    rw [find?_eq_none] at hk ⊢
    exact fun hmem => hk ((h.map Prod.fst).mem_iff.mp hmem)
  | some v => exact find?_of_mem hm (h.mem_iff.mpr (mem_of_find? hk))

/-! ### The same keys -/

/-- The same keys in the same order, with values that are related key by key. -/
def Related {β : Type} (P : α → β → Prop) (m : Fields α) (n : Fields β) : Prop :=
  List.Forall₂ (fun e f => f.1 = e.1 ∧ P e.2 f.2) m n

section

variable {β : Type} {P : α → β → Prop}

theorem Related.keys_eq : ∀ {m : Fields α} {n : Fields β}, Related P m n → keys n = keys m
  | [], [], _ => rfl
  | (j, _) :: _, (_, _) :: _, .cons ⟨rfl, _⟩ h => congrArg (j :: ·) (keys_eq h)

theorem Related.find? (k : String) : ∀ {m : Fields α} {n : Fields β}, Related P m n →
    Option.Rel P (m.find? k) (n.find? k)
  | [], [], _ => .none
  | (j, w) :: m, (_, x) :: n, .cons ⟨rfl, hwx⟩ h => by
    by_cases hj : j = k
    · simpa [Fields.find?, hj] using Option.Rel.some hwx
    · simpa [Fields.find?, hj] using Related.find? k h

theorem Related.exists_of_mem : ∀ {m : Fields α} {n : Fields β} {f : String × β}, Related P m n →
    f ∈ n → ∃ v, P v f.2
  | [], [], _, _, hf => by cases hf
  | (_, v) :: _, _ :: _, _, .cons ⟨_, hv⟩ h, hf => by
    rcases List.mem_cons.mp hf with rfl | hf
    · exact ⟨v, hv⟩
    · exact exists_of_mem h hf

theorem Related.bind_find? {γ : Type} {f : α → Option γ} {g : β → Option γ} {m : Fields α}
    {n : Fields β} (h : Related P m n) (hfg : ∀ v w, P v w → g w = f v) (k : String) :
    (n.find? k).bind g = (m.find? k).bind f := by
  have hrel := h.find? k
  generalize m.find? k = a, n.find? k = b at hrel
  cases hrel with
  | none => rfl
  | some hvw => exact hfg _ _ hvw

end

/-! ### Putting in -/

theorem find?_insert (k j : String) (v : α) : ∀ m : Fields α,
    (m.insert k v).find? j = if k = j then some v else m.find? j
  | [] => by simp [insert, find?]
  | (i, w) :: m => by
    by_cases hi : i = k
    · subst hi
      by_cases hj : i = j <;> simp [insert, find?, hj]
    · by_cases hj : i = j
      · subst hj
        have hk : ¬k = i := fun h => hi h.symm
        simp [insert, find?, hi, hk]
      · simp [insert, find?, hi, hj, find?_insert k j v m]

/-- A new key goes to the end. -/
theorem insert_of_notMem : ∀ {m : Fields α} {k : String} {v : α}, k ∉ keys m →
    m.insert k v = m ++ [(k, v)]
  | [], _, _, _ => rfl
  | (j, w) :: m, k, v, h => by
    rw [keys_cons, List.mem_cons, not_or] at h
    have : ¬j = k := fun h' => h.1 h'.symm
    simp [insert, this, insert_of_notMem h.2]

/-- Pairs with different keys stay in the order in which they are put in. -/
theorem insert_of_nodup {m n : Fields α} {k : String} {v : α} (h : (keys (m ++ (k, v) :: n)).Nodup) :
    m.insert k v = m ++ [(k, v)] := by
  rw [keys_append, keys_cons, List.nodup_append] at h
  exact insert_of_notMem fun hm => h.2.2 k hm k (by simp) rfl

/-- A field after a key was given a value is an old one or has the value. -/
theorem mem_insert {e : String × α} {k : String} {v : α} : ∀ {m : Fields α}, e ∈ m.insert k v →
    e ∈ m ∨ e.2 = v
  | [], h => .inr (by rw [List.mem_singleton.mp h])
  | (j, w) :: m, h => by
    rw [insert] at h
    split at h
    · rcases List.mem_cons.mp h with rfl | h
      · exact .inr rfl
      · exact .inl (List.mem_cons_of_mem _ h)
    · rcases List.mem_cons.mp h with rfl | h
      · exact .inl List.mem_cons_self
      · exact (mem_insert h).imp_left (List.mem_cons_of_mem _)

/-- A new key goes to the end, an old one keeps its place. -/
theorem keys_insert (k : String) (v : α) : ∀ m : Fields α,
    keys (m.insert k v) = if k ∈ keys m then keys m else keys m ++ [k]
  | [] => rfl
  | (j, w) :: m => by
    by_cases h : j = k
    · simp [insert, h]
    · have h' : ¬k = j := fun h' => h h'.symm
      have ih := keys_insert k v m
      by_cases hk : k ∈ keys m <;> simp [insert, h, h', hk, ih]

theorem nodup_keys_insert (k : String) (v : α) {m : Fields α} (h : (keys m).Nodup) :
    (keys (m.insert k v)).Nodup := by
  rw [keys_insert]
  split
  · exact h
  · rename_i hk
    rw [← List.concat_eq_append]
    exact h.concat hk

/-- Pairs that are put in one after the other. -/
def insertAll (m more : Fields α) : Fields α := more.foldl (fun m e => m.insert e.1 e.2) m

@[simp] theorem insertAll_nil (m : Fields α) : m.insertAll [] = m := rfl

@[simp] theorem insertAll_cons (m : Fields α) (e : String × α) (more : Fields α) :
    m.insertAll (e :: more) = (m.insert e.1 e.2).insertAll more := rfl

theorem nodup_keys_insertAll {m : Fields α} (more : Fields α) (h : (keys m).Nodup) :
    (keys (m.insertAll more)).Nodup := by
  induction more generalizing m with
  | nil => exact h
  | cons e more ih => exact ih (nodup_keys_insert e.1 e.2 h)

theorem eraseDups_concat (names : List String) (name : String) : (names ++ [name]).eraseDups =
    if name ∈ names then names.eraseDups else names.eraseDups ++ [name] := by
  by_cases h : name ∈ names <;> simp [List.eraseDups_append, List.eraseDups_cons, List.removeAll, h]

/-- Keys stand where they were put in first. -/
theorem keys_insertAll (es : Fields α) : keys (insertAll [] es) = (es.map Prod.fst).eraseDups := by
  induction es using List.reverseRecOn with
  | nil => rfl
  | append_singleton es e ih =>
    have hconcat : insertAll [] (es ++ [e]) = (insertAll [] es).insert e.1 e.2 := List.foldl_concat ..
    rw [hconcat, keys_insert, ih, List.map_append, List.map_singleton, eraseDups_concat]
    simp only [List.mem_eraseDups]

/-- Pairs whose keys are all different stay as they are. -/
theorem insertAll_of_nodup {m more : Fields α} (h : (keys (m ++ more)).Nodup) :
    m.insertAll more = m ++ more := by
  induction more generalizing m with
  | nil => simp
  | cons e more ih =>
    have hrest : (keys ((m ++ [e]) ++ more)).Nodup := by rwa [List.append_assoc, List.singleton_append]
    rw [insertAll_cons, insert_of_nodup h, ih hrest, List.append_assoc, List.singleton_append]

/-- The value of a key is the one that was put in last. -/
theorem find?_insertAll (k : String) (m more : Fields α) : (m.insertAll more).find? k =
    ((List.filter (·.1 = k) more).getLast?.map Prod.snd).or (m.find? k) := by
  induction more generalizing m with
  | nil => simp
  | cons e more ih =>
    rw [insertAll_cons, ih, find?_insert]
    by_cases he : e.1 = k
    · cases hlast : (List.filter (·.1 = k) more).getLast? <;> simp [he, hlast, List.getLast?_cons]
    · simp [he]

/-! ### A value for each of some keys -/

/-- Each of some keys with the value that a function gives for it. -/
def tabulate (ks : List String) (f : String → α) : Fields α := ks.map fun k => (k, f k)

@[simp] theorem keys_tabulate (ks : List String) (f : String → α) : keys (tabulate ks f) = ks := by
  simp [keys, tabulate, Function.comp_def]

theorem find?_tabulate (f : String → α) (k : String) : ∀ ks : List String,
    (tabulate ks f).find? k = if k ∈ ks then some (f k) else none
  | [] => rfl
  | j :: ks => by
    have ih := find?_tabulate f k ks
    by_cases h : j = k
    · simp [tabulate, find?, h]
    · have h' : ¬k = j := fun h' => h h'.symm
      simpa [tabulate, find?, h, h'] using ih

/-- A key that is there keeps its place. -/
theorem insert_tabulate_of_mem {f g : String → α} {k : String} (hg : ∀ j, j ≠ k → g j = f j) :
    ∀ {ks : List String}, ks.Nodup → k ∈ ks → (tabulate ks f).insert k (g k) = tabulate ks g
  | j :: ks, hn, hk => by
    rw [List.nodup_cons] at hn
    by_cases h : j = k
    · have hrest : ks.map (fun i => (i, f i)) = ks.map fun i => (i, g i) :=
        List.map_congr_left fun i hi => by rw [hg i fun hik => hn.1 (h ▸ hik ▸ hi)]
      simp [tabulate, insert, h, hrest]
    · have hk' : k ∈ ks := (List.mem_cons.mp hk).resolve_left fun h' => h h'.symm
      have ih := insert_tabulate_of_mem hg hn.2 hk'
      simpa [tabulate, insert, h, hg j h] using ih

/-- A key that is not there goes to the end. -/
theorem insert_tabulate_of_notMem {f g : String → α} {k : String} (hg : ∀ j, j ≠ k → g j = f j)
    {ks : List String} (hk : k ∉ ks) : (tabulate ks f).insert k (g k) = tabulate (ks ++ [k]) g := by
  have hrest : ks.map (fun i => (i, f i)) = ks.map fun i => (i, g i) :=
    List.map_congr_left fun i hi => by rw [hg i fun hik => hk (hik ▸ hi)]
  rw [insert_of_notMem (by simpa using hk)]
  simp [tabulate, hrest]

end StoryManifest.Fields
