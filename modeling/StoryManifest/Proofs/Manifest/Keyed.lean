import StoryManifest.Proofs.Command.Acceptance
import StoryManifest.Proofs.Manifest.Alike

/-!
Where manifests come from, no record in a default value has a key twice. Evaluation and the reader of JSON
put the members of a record in one by one, and a key that is there takes the new value; so what is built and
what is read is keyed at every depth.
-/

namespace StoryManifest

theorem Value.keyed_nil : (Value.record []).Keyed := .record .nil nofun

/-- A member that is put into a record goes to the end or takes the place of an old one. -/
theorem Value.keyed_insert {fields : Fields Value} (h : (Value.record fields).Keyed) (key : String)
    {v : Value}
    (hv : v.Keyed) : (Value.record (fields.insert key v)).Keyed := by
  obtain ⟨hkeys, hvalues⟩ := Value.keyed_record.mp h
  refine .record (Fields.nodup_keys_insert key v hkeys) fun e he => ?_
  rcases Fields.mem_insert he with hmem | hvalue
  · exact hvalues e hmem
  · rw [hvalue]
    exact hv

/-! ### Expressions -/

namespace Literal

open Source (Node)
open Value (Keyed keyed_list keyed_record)

theorem keyed_signedNumber (n : Node) : (signedNumber n).Keyed := by
  unfold signedNumber
  split
  · exact .unsupported _
  split
  · split
    · exact .unsupported _
    · split
      · exact .number _
      · exact .number _
      · exact .unsupported _
  · exact .unsupported _

theorem keyed_recordFrom : ∀ {members : List (Key × Value)} {fields : Fields Value},
    (∀ e ∈ members, e.2.Keyed) → (Value.record fields).Keyed → (recordFrom fields members).Keyed
  | [], fields, _, hfields => hfields
  | (.named name, v) :: rest, fields, hmembers, hfields => by
    obtain ⟨hv, hrest⟩ := List.forall_mem_cons.mp hmembers
    rw [recordFrom]
    exact keyed_recordFrom hrest (Value.keyed_insert hfields name hv)
  | (.computed, _) :: _, _, _, _ => .unsupported _
  | (.spread, _) :: _, _, _, _ => .unsupported _

theorem keyed_evaluate (n : Node) : (evaluate n).Keyed := by
  have hparts : ∀ m ∈ n.parts, (evaluate m).Keyed := fun m hm => by
    have := sizeOf_child (List.mem_of_mem_filter hm)
    exact keyed_evaluate m
  have hmembers : ∀ e ∈ (entries n).map fun e => (e.key, evaluate e.value), e.2.Keyed := by
    intro member hmember
    obtain ⟨e, he, rfl⟩ := List.mem_map.mp hmember
    have := sizeOf_entries he
    exact keyed_evaluate e.value
  have hgives := gives_evaluate n
  generalize evaluate n = v at hgives ⊢
  cases hgives with
  | unsupported kind => exact .unsupported kind
  | part hm => exact hparts _ hm
  | text s => exact .text s
  | number _ => exact .number _
  | bool b => exact .bool b
  | null => exact .null
  | signed => exact keyed_signedNumber n
  | list => exact .list (List.forall_mem_map.mpr hparts)
  | record => exact keyed_recordFrom hmembers Value.keyed_nil
termination_by sizeOf n

end Literal

theorem Story.keyed_extract (p : Source.Program) : ∀ q ∈ (extract p).properties, q.Keyed := by
  intro q hq v hv
  obtain ⟨name, hname⟩ := exists_defaultOf_extract hq hv
  obtain ⟨-, r, hr, hvalue⟩ := defaultOf_spec hname
  obtain ⟨m, hm⟩ := exists_evaluate hr
  have hkeyed := Literal.keyed_evaluate m
  rw [← hm] at hkeyed
  rcases hvalue with rfl | ⟨fields, hfields, hmem⟩
  · exact hkeyed
  · rw [hfields] at hkeyed
    exact (Value.keyed_record.mp hkeyed).2 _ hmem

theorem Build.keyed {t : FileTree} {s : BuildSettings} {b : Build} (h : Build.of? t s = some b) :
    b.manifest.Keyed := by
  intro r hr
  obtain ⟨p, hprops⟩ := Build.exists_extract h hr
  rw [ComponentRecord.Keyed, hprops]
  exact Story.keyed_extract p

/-! ### Readers -/

namespace Json

/-- Whatever a reader gives has a property. -/
structure Yields {α : Type} (read : Reader α) (good : α → Prop) : Prop where
  of_ok : ∀ {cs rest : List Char} {a : α}, read cs = .ok (a, rest) → good a

theorem exists_of_bind {ε α β γ : Type} {x : Except ε (α × β)} {f : α × β → Except ε γ} {c : γ}
    (h : x >>= f = .ok c) : ∃ a b, x = .ok (a, b) ∧ f (a, b) = .ok c := by
  cases x with
  | error e => cases h
  | ok a => exact ⟨a.1, a.2, rfl, h⟩

theorem exists_of_map {ε α β γ : Type} {x : Except ε (α × β)} {f : α × β → γ} {c : γ} (h : x.map f = .ok c) :
    ∃ a b, x = .ok (a, b) ∧ f (a, b) = c := by
  cases x with
  | error e => cases h
  | ok a => exact ⟨a.1, a.2, rfl, Except.ok.inj h⟩

theorem fst_of_ok {ε α β : Type} {a b : α} {c d : β} (h : (.ok (a, c) : Except ε (α × β)) = .ok (b, d)) :
    a = b :=
  (Prod.mk.inj (Except.ok.inj h)).1

theorem yields_true {α : Type} (read : Reader α) : Yields read fun _ => True := ⟨fun _ => trivial⟩

section

variable {α σ : Type} {good : α → Prop} {goodState : σ → Prop}

/-- What is made of something that was read. -/
theorem good_of_map {β : Type} {x : Except Fault (α × List Char)} {f : α → β} {b : β} {rest : List Char}
    {goodValue : β → Prop} (h : (x.map fun (a, rest) => (f a, rest)) = .ok (b, rest))
    (hf : ∀ a, goodValue (f a)) :
    goodValue b := by
  obtain ⟨a, after, -, heq⟩ := exists_of_map h
  exact (Prod.mk.inj heq).1 ▸ hf a

theorem yields_readItems {item : Reader α} (hitem : Yields item good) : ∀ (fuel : Nat) {first : Bool}
    {acc : List α}, (∀ a ∈ acc, good a) → Yields (readItems item fuel first acc) (∀ a ∈ ·, good a)
  | 0, _, _, _ => ⟨nofun⟩
  | fuel + 1, first, acc, hacc => by
    refine ⟨fun {cs rest as} h => ?_⟩
    obtain ⟨more, after, -, h⟩ := exists_of_bind h
    cases more with
    | false =>
      obtain rfl := fst_of_ok h
      simpa using hacc
    | true =>
      obtain ⟨a, after, ha, h⟩ := exists_of_bind h
      exact (yields_readItems hitem fuel (List.forall_mem_cons.mpr ⟨hitem.of_ok ha, hacc⟩)).of_ok h

theorem yields_readMembers {member : String → σ → Reader σ}
    (hmember : ∀ key s, goodState s → Yields (member key s) goodState) :
      ∀ (fuel : Nat) {first : Bool} {s : σ},
    goodState s → Yields (readMembers member fuel first s) goodState
  | 0, _, _, _ => ⟨nofun⟩
  | fuel + 1, first, s, hs => by
    refine ⟨fun {cs rest s'} h => ?_⟩
    obtain ⟨more, after, -, h⟩ := exists_of_bind h
    cases more with
    | false =>
      obtain rfl := fst_of_ok h
      exact hs
    | true =>
      obtain ⟨key, after, -, h⟩ := exists_of_bind h
      obtain ⟨s₁, after, hs₁, h⟩ := exists_of_bind h
      exact (yields_readMembers hmember fuel ((hmember key s hs).of_ok hs₁)).of_ok h

theorem yields_readList {item : Nat → Reader α} (hitem : ∀ depth, Yields (item depth) good) (depth : Nat) :
    Yields (readList item depth) (∀ a ∈ ·, good a) := by
  refine ⟨fun {cs rest as} h => ?_⟩
  unfold readList at h
  split at h
  · cases depth with
    | zero => cases h
    | succ inner =>
      obtain ⟨items, after, hitems, h⟩ := exists_of_bind h
      obtain ⟨_, _, -, h⟩ := exists_of_bind h
      obtain rfl := fst_of_ok h
      exact (yields_readItems (hitem inner) _ (by simp)).of_ok hitems
  · cases h

/-! ### Values -/

theorem yields_readScalar : Yields readScalar Value.Keyed := by
  refine ⟨fun {cs rest v} h => ?_⟩
  unfold readScalar at h
  split at h
  · exact good_of_map h fun _ => .null
  · exact good_of_map h fun _ => .bool true
  · exact good_of_map h fun _ => .bool false
  · exact good_of_map h .number
  · exact good_of_map h .text
  · split at h
    · exact good_of_map h .number
    · cases h
  · cases h

theorem yields_readField {value : Reader Value} (hvalue : Yields value Value.Keyed) (key : String)
    (fields : Fields Value) (hfields : (Value.record fields).Keyed) :
    Yields (readField value key fields) fun fields => (Value.record fields).Keyed := by
  refine ⟨fun {cs rest fields'} h => ?_⟩
  obtain ⟨_, _, -, h⟩ := exists_of_bind h
  obtain ⟨v, after, hv, h⟩ := exists_of_bind h
  obtain rfl := fst_of_ok h
  exact Value.keyed_insert hfields key (hvalue.of_ok hv)

theorem yields_readValue : ∀ depth : Nat, Yields (readValue depth) Value.Keyed
  | 0 => by
    refine ⟨fun {cs rest v} h => ?_⟩
    unfold readValue at h
    split at h
    · cases h
    · cases h
    · exact yields_readScalar.of_ok h
  | depth + 1 => by
    refine ⟨fun {cs rest v} h => ?_⟩
    unfold readValue at h
    split at h
    · obtain ⟨items, after, hitems, h⟩ := exists_of_bind h
      obtain ⟨_, _, -, h⟩ := exists_of_bind h
      obtain rfl := fst_of_ok h
      exact .list ((yields_readItems (yields_readValue depth) _ (by simp)).of_ok hitems)
    · obtain ⟨fields, after, hfields, h⟩ := exists_of_bind h
      obtain ⟨_, _, -, h⟩ := exists_of_bind h
      obtain rfl := fst_of_ok h
      exact (yields_readMembers (yields_readField (yields_readValue depth)) _ Value.keyed_nil).of_ok hfields
    · exact yields_readScalar.of_ok h

/-! ### Drafts -/

/-- Reading any of some fields keeps a property of the draft. -/
def KeepsDraft (fields : List (DraftField σ)) (goodState : σ → Prop) : Prop :=
  ∀ field ∈ fields, ∀ depth draft, goodState draft → Yields (field.read depth draft) goodState

theorem KeepsDraft.nil : KeepsDraft ([] : List (DraftField σ)) goodState := nofun

theorem KeepsDraft.cons {name : String} {required : Bool} {read : Nat → Reader α} {get : σ → Option α}
    {put : σ → α → σ} {fields : List (DraftField σ)} (hread : ∀ depth, Yields (read depth) good)
    (hput : ∀ draft a, goodState draft → good a → goodState (put draft a))
    (hfields : KeepsDraft fields goodState) :
    KeepsDraft (.of name required read get put :: fields) goodState := by
  refine List.forall_mem_cons.mpr ⟨fun depth draft hdraft => ⟨fun {cs rest draft'} h => ?_⟩, hfields⟩
  obtain ⟨a, after, ha, heq⟩ := exists_of_map h
  obtain ⟨rfl, -⟩ := Prod.mk.inj heq
  exact hput draft a hdraft ((hread depth).of_ok ha)

/-- A field that the property does not speak of. -/
theorem KeepsDraft.skip {name : String} {required : Bool} {read : Nat → Reader α} {get : σ → Option α}
    {put : σ → α → σ} {fields : List (DraftField σ)}
    (hput : ∀ draft a, goodState draft → goodState (put draft a)) (hfields : KeepsDraft fields goodState) :
    KeepsDraft (.of name required read get put :: fields) goodState :=
  .cons (fun depth => yields_true (read depth)) (fun draft a hdraft _ => hput draft a hdraft) hfields

theorem yields_readDraftMember {fields : List (DraftField σ)} (h : KeepsDraft fields goodState) (depth : Nat)
    (key : String) (draft : σ) (hdraft : goodState draft) :
    Yields (readDraftMember fields depth key draft) goodState := by
  refine ⟨fun {cs rest draft'} hread => ?_⟩
  unfold readDraftMember at hread
  split at hread
  · exact good_of_map hread fun _ => hdraft
  · rename_i field hfield
    split at hread
    · cases hread
    · obtain ⟨_, _, -, hread⟩ := exists_of_bind hread
      exact (h field (List.mem_of_find?_eq_some hfield) depth draft hdraft).of_ok hread

theorem yields_readDraftItems (depth : Nat) : ∀ {fields : List (DraftField σ)} {first : Bool} {draft : σ},
    KeepsDraft fields goodState → goodState draft →
      Yields (readDraftItems depth first fields draft) goodState
  | [], first, draft, _, hdraft => ⟨fun h => fst_of_ok h ▸ hdraft⟩
  | field :: fields, first, draft, hfields, hdraft => by
    obtain ⟨hfield, hrest⟩ := List.forall_mem_cons.mp hfields
    refine ⟨fun {cs rest draft'} h => ?_⟩
    obtain ⟨more, after, -, h⟩ := exists_of_bind h
    cases more with
    | true =>
      obtain ⟨draft₁, after, hdraft₁, h⟩ := exists_of_bind h
      exact (yields_readDraftItems depth hrest ((hfield depth draft hdraft).of_ok hdraft₁)).of_ok h
    | false =>
      simp only [Bool.false_eq_true, if_false] at h
      split at h
      · cases h
      · exact (yields_readDraftItems depth hrest hdraft).of_ok h

theorem yields_readDraft {fields : List (DraftField σ)} {empty : σ} (h : KeepsDraft fields goodState)
    (hempty : goodState empty) (depth : Nat) : Yields (readDraft fields empty depth) goodState := by
  refine ⟨fun {cs rest draft} hread => ?_⟩
  unfold readDraft at hread
  split at hread
  · cases depth with
    | zero => cases hread
    | succ inner =>
      obtain ⟨draft₁, after, hdraft, hread⟩ := exists_of_bind hread
      have hgood := (yields_readMembers (yields_readDraftMember h inner) _ hempty).of_ok hdraft
      dsimp only at hread
      split at hread
      · obtain ⟨_, _, -, hread⟩ := exists_of_bind hread
        exact fst_of_ok hread ▸ hgood
      · cases hread
  · cases depth with
    | zero => cases hread
    | succ inner =>
      obtain ⟨draft₁, after, hdraft, hread⟩ := exists_of_bind hread
      obtain ⟨_, _, -, hread⟩ := exists_of_bind hread
      exact fst_of_ok hread ▸ (yields_readDraftItems inner h hempty).of_ok hdraft
  · cases hread

/-- What is read of a record has a property that its draft passes on when it is finished. -/
theorem yields_readRecord {fields : List (DraftField σ)} {empty : σ} {finish : σ → Option α}
    (h : KeepsDraft fields goodState) (hempty : goodState empty)
    (hfinish : ∀ draft a, goodState draft → finish draft = some a → good a) (depth : Nat) :
    Yields (readRecord fields empty finish depth) good := by
  refine ⟨fun {cs rest a} hread => ?_⟩
  obtain ⟨draft, after, hdraft, hread⟩ := exists_of_bind hread
  have hgood := (yields_readDraft h hempty depth).of_ok hdraft
  dsimp only at hread
  split at hread
  · rename_i a' ha'
    obtain rfl := fst_of_ok hread
    exact hfinish draft a' hgood ha'
  · cases hread

end

end Json

/-! ### Manifests that are read -/

open Json (Yields KeepsDraft yields_readValue yields_readList yields_readRecord)

/-- What is known of a property so far is keyed. -/
def PropertyDraft.Keyed (d : PropertyDraft) : Prop := ∀ v, d.default = some v → v.Keyed

theorem PropertyDraft.keepsDraft : KeepsDraft fields Keyed :=
  .skip (fun _ _ hd => hd) (.skip (fun _ _ hd => hd) (.skip (fun _ _ hd => hd)
    (.cons yields_readValue (fun _ _ _ hv _ h => Option.some.inj h ▸ hv) (.skip (fun _ _ hd => hd) .nil))))

theorem Property.yields_reader (depth : Nat) : Yields (Property.reader depth) Property.Keyed := by
  refine yields_readRecord PropertyDraft.keepsDraft (by rintro _ ⟨⟩) (fun d p hd hp => ?_) depth
  simp only [PropertyDraft.finish, Option.bind_eq_bind, Option.bind_eq_some_iff] at hp
  obtain ⟨name, -, type, -, isList, -, hp⟩ := hp
  obtain rfl := Option.some.inj hp
  exact hd

/-- What is known of a component so far is keyed. -/
def ComponentDraft.Keyed (d : ComponentDraft) : Prop := ∀ ps, d.props = some ps → ∀ p ∈ ps, p.Keyed

theorem ComponentDraft.keepsDraft : KeepsDraft fields Keyed :=
  .skip (fun _ _ hd => hd) (.skip (fun _ _ hd => hd) (.skip (fun _ _ hd => hd) (.skip (fun _ _ hd => hd)
    (.skip (fun _ _ hd => hd) (.skip (fun _ _ hd => hd)
      (.cons (yields_readList Property.yields_reader) (fun _ _ _ hps _ h => Option.some.inj h ▸ hps)
        (.skip (fun _ _ hd => hd) .nil)))))))

theorem ComponentRecord.yields_reader (depth : Nat) :
    Yields (ComponentRecord.reader depth) ComponentRecord.Keyed := by
  refine yields_readRecord ComponentDraft.keepsDraft (by rintro _ ⟨⟩) (fun d r hd hr => ?_) depth
  simp only [ComponentDraft.finish, Option.bind_eq_bind, Option.bind_eq_some_iff] at hr
  obtain ⟨_, -, _, -, _, -, _, -, _, -, _, -, props, hprops, hr⟩ := hr
  obtain rfl := Option.some.inj hr
  exact hd props hprops

/-- What is known of a manifest so far is keyed. -/
def ComponentRecord.KeyedIn (draft : Option (List ComponentRecord)) : Prop :=
  ∀ rs, draft = some rs → ∀ r ∈ rs, r.Keyed

theorem Manifest.keepsDraft : KeepsDraft fields ComponentRecord.KeyedIn :=
  .cons (yields_readList ComponentRecord.yields_reader) (fun _ _ _ hrs _ h => Option.some.inj h ▸ hrs) .nil

theorem Manifest.yields_reader (depth : Nat) : Yields (Manifest.reader depth) Manifest.Keyed := by
  refine yields_readRecord Manifest.keepsDraft (by rintro _ ⟨⟩) (fun d m hd hm => ?_) depth
  obtain ⟨rs, hrs, rfl⟩ := Option.map_eq_some_iff.mp hm
  exact hd rs hrs

/-- A manifest that is read from a text is keyed. -/
theorem Manifest.keyed_ofText {text : String} {m : Manifest} (h : Manifest.ofText text = .ok m) :
    m.Keyed := by
  obtain ⟨m', rest, hread, h⟩ := Json.exists_of_bind h
  dsimp only at h
  split at h
  · obtain rfl := Except.ok.inj h
    exact (Manifest.yields_reader _).of_ok hread
  · cases h

end StoryManifest
