import Mathlib.Data.List.Perm.Subperm
import StoryManifest.Manifest.Comparison
import StoryManifest.Proofs.Values

/-!
When two records are alike. Values are alike when they have the same parts in the same places, where a record
has its parts under keys and not in an order, and the two zeros of the reals are one number. That is an
equivalence, and the comparison of values decides it wherever no record has a key twice.
-/

namespace StoryManifest

/-- A key has a value exactly when it is one of the keys. -/
theorem Fields.exists_find?_iff {α : Type} {m : Fields α} {k : String} : (∃ v, m.find? k = some v) ↔
    k ∈ m.keys := by
  rw [← Option.ne_none_iff_exists', ne_eq, Fields.find?_eq_none, not_not]

/-! ### Values -/

namespace Value

/-- The same value, whatever the order of the keys in its records. -/
inductive Alike : Value → Value → Prop
  | null : Alike .null .null
  | bool (b : Bool) : Alike (.bool b) (.bool b)
  | number (n : Number) : Alike (.number n) (.number n)
  | zeros {x y : Number.Binary64} : x.isZero = true → y.isZero = true →
      Alike (.number (.real x)) (.number (.real y))
  | text (s : String) : Alike (.text s) (.text s)
  | list {as bs : List Value} : as.length = bs.length →
      (∀ (i : Nat) (v w : Value), as[i]? = some v → bs[i]? = some w → Alike v w) →
        Alike (.list as) (.list bs)
  | record {m n : Fields Value} : (∀ k, k ∈ m.keys ↔ k ∈ n.keys) →
      (∀ k v w, m.find? k = some v → n.find? k = some w → Alike v w) → Alike (.record m) (.record n)
  | unsupported (kind : String) : Alike (.unsupported kind) (.unsupported kind)

/-- No record in the value, at whatever depth, has a key twice. -/
inductive Keyed : Value → Prop
  | null : Keyed .null
  | bool (b : Bool) : Keyed (.bool b)
  | number (n : Number) : Keyed (.number n)
  | text (s : String) : Keyed (.text s)
  | list {items : List Value} : (∀ v ∈ items, Keyed v) → Keyed (.list items)
  | record {fields : Fields Value} : fields.keys.Nodup → (∀ e ∈ fields, Keyed e.2) → Keyed (.record fields)
  | unsupported (kind : String) : Keyed (.unsupported kind)

theorem keyed_list {items : List Value} : (Value.list items).Keyed ↔ ∀ v ∈ items, v.Keyed :=
  ⟨fun h => by cases h with | list h => exact h, .list⟩

theorem keyed_record {fields : Fields Value} :
    (Value.record fields).Keyed ↔ fields.keys.Nodup ∧ ∀ e ∈ fields, e.2.Keyed :=
  ⟨fun h => by cases h with | record hn h => exact ⟨hn, h⟩, fun h => .record h.1 h.2⟩

namespace Alike

mutual

theorem refl : ∀ v : Value, v.Alike v
  | .null => .null
  | .bool b => .bool b
  | .number n => .number n
  | .text s => .text s
  | .list items => .list rfl fun i v w hv hw => by
    obtain rfl := Option.some.inj (hv.symm.trans hw)
    exact reflItems items v (List.mem_of_getElem? hv)
  | .record fields => .record (fun _ => .rfl) fun k v w hv hw => by
    obtain rfl := Option.some.inj (hv.symm.trans hw)
    exact reflFields fields (k, v) (Fields.mem_of_find? hv)
  | .unsupported kind => .unsupported kind

theorem reflItems : ∀ (items : List Value), ∀ v ∈ items, v.Alike v
  | w :: rest, v, hv => by
    rcases List.mem_cons.mp hv with hvw | hv
    · exact hvw ▸ refl w
    · exact reflItems rest v hv

theorem reflFields : ∀ (fields : List (String × Value)), ∀ e ∈ fields, e.2.Alike e.2
  | (k, w) :: rest, e, he => by
    rcases List.mem_cons.mp he with hew | he
    · exact hew ▸ refl w
    · exact reflFields rest e he

end

theorem symm {v w : Value} (h : v.Alike w) : w.Alike v := by
  induction h with
  | null => exact .null
  | bool b => exact .bool b
  | number n => exact .number n
  | zeros hx hy => exact .zeros hy hx
  | text s => exact .text s
  | list hlength _ ih => exact .list hlength.symm fun i v w hv hw => ih i w v hw hv
  | record hkeys _ ih => exact .record (fun k => (hkeys k).symm) fun k v w hv hw => ih k w v hw hv
  | unsupported kind => exact .unsupported kind

theorem trans {u v w : Value} (huv : u.Alike v) (hvw : v.Alike w) : u.Alike w := by
  induction huv generalizing w with
  | null => exact hvw
  | bool b => exact hvw
  | number n => exact hvw
  | zeros hx hy =>
    cases hvw with
    | number => exact .zeros hx hy
    | zeros _ hz => exact .zeros hx hz
  | text s => exact hvw
  | list hlength _ ih =>
    cases hvw with
    | list hlength' h' =>
      refine .list (hlength.trans hlength') fun i u w hu hw => ?_
      -- the place is also one of the list between them
      obtain ⟨hi, -⟩ := List.getElem?_eq_some_iff.mp hu
      have hmid := List.getElem?_eq_getElem (hlength ▸ hi)
      exact ih i u _ hu hmid (h' i _ w hmid hw)
  | record hkeys _ ih =>
    cases hvw with
    | record hkeys' h' =>
      refine .record (fun k => (hkeys k).trans (hkeys' k)) fun k u w hu hw => ?_
      obtain ⟨v, hv⟩ := Fields.exists_find?_iff.mpr ((hkeys' k).mpr (Fields.exists_find?_iff.mp ⟨w, hw⟩))
      exact ih k u v hu hv (h' k v w hv hw)
  | unsupported kind => exact hvw

end Alike

/-! ### Deciding whether values are alike -/

theorem same_number_iff {m n : Number} : m.same n = true ↔ (Value.number m).Alike (.number n) := by
  constructor
  · intro h
    cases m <;> cases n
    · obtain rfl := eq_of_beq (α := Int) h
      exact .number _
    · cases h
    · cases h
    · rcases Bool.or_eq_true_iff.mp h with heq | hzero
      · obtain rfl := eq_of_beq heq
        exact .number _
      · obtain ⟨hx, hy⟩ := Bool.and_eq_true_iff.mp hzero
        exact .zeros hx hy
  · rintro (_ | _ | _ | ⟨hx, hy⟩)
    · cases m <;> simp [Number.same, Number.Binary64.sameValue]
    · simp [Number.same, Number.Binary64.sameValue, hx, hy]

/-- Fields with different keys, of which each is in other fields, are all fields where the others are
no more. -/
theorem keys_iff_of_length {m n : Fields Value} (hm : m.keys.Nodup) (hlength : m.length = n.length)
    (hsub : ∀ e ∈ m, e.1 ∈ n.keys) (k : String) : k ∈ m.keys ↔ k ∈ n.keys := by
  have hsubset : m.keys ⊆ n.keys := fun j hj => by
    obtain ⟨e, he, rfl⟩ := List.mem_map.mp hj
    exact hsub e he
  have hle : n.keys.length ≤ m.keys.length := by simp [Fields.keys, hlength]
  exact ((List.subperm_of_subset hm hsubset).perm_of_length_le hle).mem_iff

/-- Fields with the same keys, none of them twice, are equally many. -/
theorem length_eq_of_keys_iff {m n : Fields Value} (hm : m.keys.Nodup) (hn : n.keys.Nodup)
    (hkeys : ∀ k, k ∈ m.keys ↔ k ∈ n.keys) : m.length = n.length := by
  have hperm := (List.perm_ext_iff_of_nodup hm hn).mpr hkeys
  simpa [Fields.keys] using hperm.length_eq

mutual

/-- Comparing values tells whether they are alike. -/
theorem same_iff : ∀ {v w : Value}, v.Keyed → w.Keyed → (v.same w = true ↔ v.Alike w)
  | v, w, hv, hw => by
    cases v with
    | null => cases w <;> first | exact ⟨fun _ => .null, fun _ => rfl⟩ | exact ⟨nofun, nofun⟩
    | bool a =>
      cases w with
      | bool b => exact ⟨fun h => eq_of_beq h ▸ .bool a, fun h => by cases h; exact beq_self_eq_true a⟩
      | _ => exact ⟨nofun, nofun⟩
    | number m =>
      cases w with
      | number n => exact same_number_iff
      | _ => exact ⟨nofun, nofun⟩
    | text a =>
      cases w with
      | text b => exact ⟨fun h => eq_of_beq h ▸ .text a, fun h => by cases h; exact beq_self_eq_true a⟩
      | _ => exact ⟨nofun, nofun⟩
    | list as =>
      cases w with
      | list bs =>
        rw [same, sameItems_iff (keyed_list.mp hv) (keyed_list.mp hw)]
        exact ⟨fun h => .list h.1 h.2, fun h => by cases h with | list hlength h => exact ⟨hlength, h⟩⟩
      | _ => exact ⟨nofun, nofun⟩
    | record m =>
      cases w with
      | record n =>
        obtain ⟨hm, hmv⟩ := keyed_record.mp hv
        obtain ⟨hn, hnw⟩ := keyed_record.mp hw
        rw [same, Bool.and_eq_true_iff, beq_iff_eq, sameFields_iff hmv hnw]
        constructor
        · rintro ⟨hlength, hfound⟩
          have hkeys := keys_iff_of_length hm hlength fun e he => by
            obtain ⟨w, hw, -⟩ := hfound e he
            exact Fields.exists_find?_iff.mp ⟨w, hw⟩
          refine .record hkeys fun k v w hv hw => ?_
          obtain ⟨x, hx, halike⟩ := hfound (k, v) (Fields.mem_of_find? hv)
          exact Option.some.inj (hw.symm.trans hx) ▸ halike
        · intro h
          cases h with
          | record hkeys h =>
            refine ⟨length_eq_of_keys_iff hm hn hkeys, fun e he => ?_⟩
            obtain ⟨w, hw⟩ := Fields.exists_find?_iff.mpr ((hkeys e.1).mp (List.mem_map_of_mem he))
            exact ⟨w, hw, h e.1 e.2 w (Fields.find?_of_mem hm he) hw⟩
      | _ => exact ⟨nofun, nofun⟩
    | unsupported a =>
      cases w with
      | unsupported b =>
        exact ⟨fun h => eq_of_beq h ▸ .unsupported a, fun h => by cases h; exact beq_self_eq_true a⟩
      | _ => exact ⟨nofun, nofun⟩

theorem sameItems_iff : ∀ {as bs : List Value}, (∀ v ∈ as, v.Keyed) → (∀ v ∈ bs, v.Keyed) →
    (sameItems as bs = true ↔ as.length = bs.length ∧
      ∀ (i : Nat) (v w : Value), as[i]? = some v → bs[i]? = some w → v.Alike w)
  | [], [], _, _ => by simp [sameItems]
  | [], _ :: _, _, _ => by simp [sameItems]
  | _ :: _, [], _, _ => by simp [sameItems]
  | a :: as, b :: bs, ha, hb => by
    obtain ⟨ha, has⟩ := List.forall_mem_cons.mp ha
    obtain ⟨hb, hbs⟩ := List.forall_mem_cons.mp hb
    rw [sameItems, Bool.and_eq_true_iff, same_iff ha hb, sameItems_iff has hbs]
    constructor
    · rintro ⟨hhead, hlength, htail⟩
      refine ⟨congrArg (· + 1) hlength, fun i v w hv hw => ?_⟩
      cases i with
      | zero =>
        obtain rfl := Option.some.inj hv
        obtain rfl := Option.some.inj hw
        exact hhead
      | succ i => exact htail i v w hv hw
    · rintro ⟨hlength, h⟩
      exact ⟨h 0 a b rfl rfl, Nat.succ.inj hlength, fun i => h (i + 1)⟩

theorem sameFields_iff : ∀ {m n : Fields Value}, (∀ e ∈ m, e.2.Keyed) → (∀ e ∈ n, e.2.Keyed) →
    (sameFields m n = true ↔ ∀ e ∈ m, ∃ w, n.find? e.1 = some w ∧ e.2.Alike w)
  | [], _, _, _ => by simp [sameFields]
  | (k, v) :: m, n, hm, hn => by
    obtain ⟨hv, hm⟩ := List.forall_mem_cons.mp hm
    rw [sameFields, Bool.and_eq_true_iff, sameFields_iff hm hn, List.forall_mem_cons]
    refine and_congr_left fun _ => ?_
    cases hfind : n.find? k with
    | none => simp
    | some w => simpa using same_iff hv (hn _ (Fields.mem_of_find? hfind))

end

end Value

/-! ### Properties -/

namespace Property

/-- The same property, whatever the order of the keys in its default value. -/
structure Alike (p q : Property) : Prop where
  name : p.name = q.name
  type : p.type = q.type
  description : p.description = q.description
  default : Option.Rel Value.Alike p.default q.default
  isList : p.isList = q.isList

/-- No record in the default value has a key twice. -/
def Keyed (p : Property) : Prop := ∀ v, p.default = some v → v.Keyed

theorem Alike.refl (p : Property) : p.Alike p := by
  refine ⟨rfl, rfl, rfl, ?_, rfl⟩
  cases p.default with
  | none => exact .none
  | some v => exact .some (.refl v)

theorem Alike.symm {p q : Property} (h : p.Alike q) : q.Alike p := by
  refine ⟨h.name.symm, h.type.symm, h.description.symm, ?_, h.isList.symm⟩
  have hdefault := h.default
  generalize p.default = a, q.default = b at hdefault
  cases hdefault with
  | none => exact .none
  | some h => exact .some h.symm

theorem Alike.trans {p q r : Property} (hpq : p.Alike q) (hqr : q.Alike r) : p.Alike r := by
  refine ⟨hpq.name.trans hqr.name, hpq.type.trans hqr.type, hpq.description.trans hqr.description, ?_,
    hpq.isList.trans hqr.isList⟩
  have h := hpq.default
  have h' := hqr.default
  generalize p.default = a, q.default = b, r.default = c at h h'
  cases h with
  | none =>
    cases h' with
    | none => exact .none
  | some h =>
    cases h' with
    | some h' => exact .some (h.trans h')

theorem same_iff {p q : Property} (hp : p.Keyed) (hq : q.Keyed) : p.same q = true ↔ p.Alike q := by
  simp only [same, Bool.and_eq_true_iff, beq_iff_eq]
  constructor
  · rintro ⟨⟨⟨⟨hname, htype⟩, hdescription⟩, hlist⟩, hdefault⟩
    refine ⟨hname, htype, hdescription, ?_, hlist⟩
    split at hdefault
    · rename_i v w hv hw
      rw [hv, hw]
      exact .some ((Value.same_iff (hp v hv) (hq w hw)).mp hdefault)
    · rename_i hv hw
      rw [hv, hw]
      exact .none
    · cases hdefault
  · intro h
    refine ⟨⟨⟨⟨h.name, h.type⟩, h.description⟩, h.isList⟩, ?_⟩
    have hdefault := h.default
    split
    · rename_i v w hv hw
      rw [hv, hw] at hdefault
      cases hdefault with
      | some halike => exact (Value.same_iff (hp v hv) (hq w hw)).mpr halike
    · rfl
    · rename_i hsome hnone
      generalize p.default = a, q.default = b at hdefault hsome hnone
      cases hdefault with
      | none => exact absurd rfl (hnone rfl)
      | some => exact absurd rfl (hsome _ _ rfl)

end Property

/-! ### Components -/

namespace ComponentRecord

/-- The same component, whatever the order of the keys in default values. -/
structure Alike (r s : ComponentRecord) : Prop where
  name : r.name = s.name
  version : r.version = s.version
  displayName : r.displayName = s.displayName
  baseDir : r.baseDir = s.baseDir
  module : r.module = s.module
  files : r.files = s.files
  props : List.Forall₂ Property.Alike r.props s.props
  packages : r.packages = s.packages

/-- No record in a default value has a key twice. -/
def Keyed (r : ComponentRecord) : Prop := ∀ p ∈ r.props, p.Keyed

theorem Alike.refl (r : ComponentRecord) : r.Alike r :=
  ⟨rfl, rfl, rfl, rfl, rfl, rfl, List.forall₂_same.mpr fun p _ => .refl p, rfl⟩

theorem forall₂_symm {ps qs : List Property} (h : List.Forall₂ Property.Alike ps qs) :
    List.Forall₂ Property.Alike qs ps := (h.imp fun _ _ hpq => hpq.symm).flip

theorem forall₂_trans {ps qs rs : List Property} (h : List.Forall₂ Property.Alike ps qs)
    (h' : List.Forall₂ Property.Alike qs rs) : List.Forall₂ Property.Alike ps rs := by
  induction h generalizing rs with
  | nil => exact h'
  | cons hpq _ ih =>
    cases h' with
    | cons hqr h' => exact .cons (hpq.trans hqr) (ih h')

theorem Alike.symm {r s : ComponentRecord} (h : r.Alike s) : s.Alike r :=
  ⟨h.name.symm, h.version.symm, h.displayName.symm, h.baseDir.symm, h.module.symm, h.files.symm,
    forall₂_symm h.props, h.packages.symm⟩

theorem Alike.trans {r s t : ComponentRecord} (h : r.Alike s) (h' : s.Alike t) : r.Alike t :=
  ⟨h.name.trans h'.name, h.version.trans h'.version, h.displayName.trans h'.displayName,
    h.baseDir.trans h'.baseDir, h.module.trans h'.module, h.files.trans h'.files,
    forall₂_trans h.props h'.props, h.packages.trans h'.packages⟩

theorem sameProps_iff : ∀ {ps qs : List Property}, (∀ p ∈ ps, p.Keyed) → (∀ q ∈ qs, q.Keyed) →
    (sameProps ps qs = true ↔ List.Forall₂ Property.Alike ps qs)
  | [], [], _, _ => by simp [sameProps]
  | [], _ :: _, _, _ => by simp [sameProps]
  | _ :: _, [], _, _ => by simp [sameProps]
  | p :: ps, q :: qs, hp, hq => by
    obtain ⟨hp, hps⟩ := List.forall_mem_cons.mp hp
    obtain ⟨hq, hqs⟩ := List.forall_mem_cons.mp hq
    rw [sameProps, Bool.and_eq_true_iff, Property.same_iff hp hq, sameProps_iff hps hqs,
      List.forall₂_cons]

theorem same_iff {r s : ComponentRecord} (hr : r.Keyed) (hs : s.Keyed) : r.same s = true ↔ r.Alike s := by
  simp only [same, Bool.and_eq_true_iff, beq_iff_eq, sameProps_iff hr hs]
  exact ⟨fun ⟨⟨⟨⟨⟨⟨⟨h₁, h₂⟩, h₃⟩, h₄⟩, h₅⟩, h₆⟩, h₇⟩, h₈⟩ => ⟨h₁, h₂, h₃, h₄, h₅, h₆, h₇, h₈⟩,
    fun ⟨h₁, h₂, h₃, h₄, h₅, h₆, h₇, h₈⟩ => ⟨⟨⟨⟨⟨⟨⟨h₁, h₂⟩, h₃⟩, h₄⟩, h₅⟩, h₆⟩, h₇⟩, h₈⟩⟩

end ComponentRecord

/-- No record in a default value of a manifest has a key twice. -/
def Manifest.Keyed (m : Manifest) : Prop := ∀ r ∈ m.components, r.Keyed

end StoryManifest
