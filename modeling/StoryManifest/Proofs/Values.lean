import StoryManifest.Proofs.Fields

/-!
What a value is made of. A value is static exactly when no marker occurs in it at any depth; a plain
value is one that text can hold exactly: no marker, no real, no record with a key twice.
-/

namespace StoryManifest.Value

/-! ### Markers -/

/-- A marker occurs in a value, at whatever depth. -/
inductive Marked : Value → Prop
  | here (kind : String) : Marked (.unsupported kind)
  | item {items : List Value} {v : Value} : v ∈ items → Marked v → Marked (.list items)
  | field {fields : Fields Value} {k : String} {v : Value} : (k, v) ∈ fields → Marked v →
      Marked (.record fields)

theorem marked_list {items : List Value} : Marked (.list items) ↔ ∃ v ∈ items, Marked v :=
  ⟨fun h => by cases h with | item hm hv => exact ⟨_, hm, hv⟩, fun ⟨_, hm, hv⟩ => .item hm hv⟩

theorem marked_record {fields : Fields Value} :
    Marked (.record fields) ↔ ∃ e ∈ fields, Marked e.2 :=
  ⟨fun h => by cases h with | field hm hv => exact ⟨_, hm, hv⟩, fun ⟨(_, _), hm, hv⟩ => .field hm hv⟩

mutual

theorem unsupportedKind_eq_none : ∀ v : Value, v.unsupportedKind = none ↔ ¬v.Marked
  | .null => ⟨fun _ h => (by cases h), fun _ => rfl⟩
  | .bool _ => ⟨fun _ h => (by cases h), fun _ => rfl⟩
  | .number _ => ⟨fun _ h => (by cases h), fun _ => rfl⟩
  | .text _ => ⟨fun _ h => (by cases h), fun _ => rfl⟩
  | .list items => by rw [unsupportedKind, firstUnsupportedItem_eq_none items, marked_list]; simp
  | .record fields => by
    rw [unsupportedKind, firstUnsupportedField_eq_none fields, marked_record]; simp
  | .unsupported kind => by simp [unsupportedKind, Marked.here]

theorem firstUnsupportedItem_eq_none : ∀ items : List Value,
    firstUnsupportedItem items = none ↔ ∀ v ∈ items, ¬v.Marked
  | [] => by simp [firstUnsupportedItem]
  | v :: rest => by
    simp [firstUnsupportedItem, unsupportedKind_eq_none v, firstUnsupportedItem_eq_none rest]

theorem firstUnsupportedField_eq_none : ∀ fields : List (String × Value),
    firstUnsupportedField fields = none ↔ ∀ e ∈ fields, ¬e.2.Marked
  | [] => by simp [firstUnsupportedField]
  | (_, v) :: rest => by
    simp [firstUnsupportedField, unsupportedKind_eq_none v, firstUnsupportedField_eq_none rest]

end

theorem marked_iff {v : Value} : v.Marked ↔ ∃ kind, v.unsupportedKind = some kind := by
  rw [← Option.ne_none_iff_exists', ne_eq, unsupportedKind_eq_none, not_not]

/-- A value is static when it has no marker at any depth. -/
theorem isStatic_iff (v : Value) : v.isStatic = true ↔ ¬v.Marked := by
  rw [isStatic, Option.isNone_iff_eq_none, unsupportedKind_eq_none]

instance (v : Value) : Decidable v.Marked :=
  decidable_of_iff (v.isStatic = false) (by rw [← Bool.not_eq_true, isStatic_iff, not_not])

/-! ### Numbers -/

/-- A number occurs in a value, at whatever depth. -/
inductive HasNumber (n : Number) : Value → Prop
  | here : HasNumber n (.number n)
  | item {items : List Value} {v : Value} : v ∈ items → HasNumber n v → HasNumber n (.list items)
  | field {fields : Fields Value} {k : String} {v : Value} : (k, v) ∈ fields → HasNumber n v →
      HasNumber n (.record fields)

/-! ### Plain values -/

/-- A value without markers whose numbers are integers that fit and in whose records no key occurs
twice. -/
inductive Plain (fits : Int → Prop) : Value → Prop
  | null : Plain fits .null
  | bool (b : Bool) : Plain fits (.bool b)
  | number {n : Int} : fits n → Plain fits (.number (.integer n))
  | text (s : String) : Plain fits (.text s)
  | list {items : List Value} : (∀ v ∈ items, Plain fits v) → Plain fits (.list items)
  | record {fields : Fields Value} : fields.keys.Nodup → (∀ e ∈ fields, Plain fits e.2) →
      Plain fits (.record fields)

variable {fits : Int → Prop} {v : Value}

theorem Plain.not_marked (h : Plain fits v) : ¬v.Marked := by
  induction h with
  | null => rintro ⟨⟩
  | bool b => rintro ⟨⟩
  | number _ => rintro ⟨⟩
  | text s => rintro ⟨⟩
  | list _ ih => simpa [marked_list] using ih
  | record _ _ ih => rw [marked_record]; rintro ⟨e, he, hv⟩; exact ih e he hv

theorem Plain.nodup_keys {fields : Fields Value} (h : Plain fits (.record fields)) :
    fields.keys.Nodup := by cases h with | record hn _ => exact hn

theorem Plain.of_find? {fields : Fields Value} {k : String} (h : Plain fits (.record fields))
    (hk : fields.find? k = some v) : Plain fits v := by
  cases h with | record _ hfields => exact hfields _ (Fields.mem_of_find? hk)

/-! ### Nesting -/

mutual

/-- How many lists and records are inside one another. -/
def nesting : Value → Nat
  | .list items => nestingOfItems items + 1
  | .record fields => nestingOfFields fields + 1
  | _ => 0

def nestingOfItems : List Value → Nat
  | [] => 0
  | v :: rest => max (nesting v) (nestingOfItems rest)

def nestingOfFields : List (String × Value) → Nat
  | [] => 0
  | (_, v) :: rest => max (nesting v) (nestingOfFields rest)

end

theorem nesting_le_ofItems : ∀ {items : List Value} {v : Value}, v ∈ items →
    v.nesting ≤ nestingOfItems items
  | w :: rest, v, h => by
    rw [nestingOfItems]
    rcases List.mem_cons.mp h with rfl | h
    · exact Nat.le_max_left ..
    · exact Nat.le_trans (nesting_le_ofItems h) (Nat.le_max_right ..)

theorem nesting_le_ofFields : ∀ {fields : Fields Value} {e : String × Value}, e ∈ fields →
    e.2.nesting ≤ nestingOfFields fields
  | (_, w) :: rest, e, h => by
    rw [nestingOfFields]
    rcases List.mem_cons.mp h with rfl | h
    · exact Nat.le_max_left ..
    · exact Nat.le_trans (nesting_le_ofFields h) (Nat.le_max_right ..)

theorem nestingOfItems_le {items : List Value} {n : Nat} (h : ∀ v ∈ items, v.nesting ≤ n) :
    nestingOfItems items ≤ n := by
  induction items with
  | nil => exact Nat.zero_le n
  | cons v rest ih =>
    exact Nat.max_le.mpr ⟨h v (by simp), ih fun w hw => h w (List.mem_cons_of_mem _ hw)⟩

theorem nestingOfFields_le {fields : Fields Value} {n : Nat} (h : ∀ e ∈ fields, e.2.nesting ≤ n) :
    nestingOfFields fields ≤ n := by
  induction fields with
  | nil => exact Nat.zero_le n
  | cons e rest ih =>
    exact Nat.max_le.mpr ⟨h e (by simp), ih fun f hf => h f (List.mem_cons_of_mem _ hf)⟩

theorem nesting_list_le_iff {items : List Value} {n : Nat} :
    (Value.list items).nesting ≤ n + 1 ↔ ∀ v ∈ items, v.nesting ≤ n := by
  rw [nesting, Nat.add_le_add_iff_right]
  exact ⟨fun h v hv => Nat.le_trans (nesting_le_ofItems hv) h, nestingOfItems_le⟩

theorem nesting_record_le_iff {fields : Fields Value} {n : Nat} :
    (Value.record fields).nesting ≤ n + 1 ↔ ∀ e ∈ fields, e.2.nesting ≤ n := by
  rw [nesting, Nat.add_le_add_iff_right]
  exact ⟨fun h e he => Nat.le_trans (nesting_le_ofFields he) h, nestingOfFields_le⟩

end StoryManifest.Value
