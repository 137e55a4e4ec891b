import StoryManifest.Proofs.Json.Acceptance
import StoryManifest.Proofs.Literal.Static

/-!
The numbers that values of a story hold. A literal stands for a finite real or for an integer of 64 bits,
and evaluation makes no other numbers; so whatever a story holds, the numbers in it fit what is read.
-/

namespace StoryManifest

open Json (FitsReader)
open Number.Binary64 (isFinite_ofInt isFinite_ofDecimal)

/-! ### Literals -/

theorem Number.fitsReader_ofBinary64 {x : Number.Binary64} (h : x.IsFinite) :
    FitsReader (.ofBinary64 x) := by
  unfold ofBinary64
  split
  · rename_i hwhole
    have hbound : safeBound ≤ Json.wordBound := by decide
    have hle : x.truncated ≤ Json.wordBound := hwhole.2.trans hbound
    split
    · rwa [FitsReader, Int.natAbs_neg, Int.natAbs_natCast]
    · rwa [FitsReader, Int.natAbs_natCast]
  · exact h

theorem Number.fitsReader_negate : ∀ {n : Number}, FitsReader n → FitsReader n.negate
  | .integer _, h => by rwa [negate, FitsReader, Int.natAbs_neg]
  | .real _, h => h.neg

namespace Literal

open Source (Node)

theorem fitsReader_ofNatural {n : Nat} (hn : n < wordBound) {m : Number} (h : ofNatural n = some m) :
    FitsReader m := by
  unfold ofNatural at h
  split at h
  · cases h
  · rename_i x hx
    split at h
    · obtain rfl := Option.some.inj h
      have hbound : Json.wordBound = wordBound - 1 := by decide
      rw [FitsReader, Int.natAbs_natCast, hbound]
      omega
    · obtain rfl := Option.some.inj h
      exact Number.fitsReader_ofBinary64 (isFinite_ofInt hx)

theorem fitsReader_parseNumber? {text : String} {m : Number} (h : parseNumber? text = some m) :
    FitsReader m := by
  simp only [parseNumber?] at h
  split at h
  · cases h
  split at h
  · obtain ⟨n, hn, hm⟩ := Option.bind_eq_some_iff.mp h
    have hbound : n < wordBound := of_decide_eq_true (Option.filter_eq_some_iff.mp hn).2
    exact fitsReader_ofNatural hbound hm
  · obtain ⟨x, hx, rfl⟩ := Option.map_eq_some_iff.mp h
    simp only [decimal?] at hx
    split at hx
    · exact Number.fitsReader_ofBinary64 (isFinite_ofDecimal hx)
    · cases hx

/-! ### Expressions -/

theorem numbersFit_number {m : Number} (h : FitsReader m) : (Value.number m).NumbersFit := by
  rintro _ ⟨⟩
  exact h

theorem numbersFit_unsupported (kind : String) : (Value.unsupported kind).NumbersFit := by
  rintro _ ⟨⟩

theorem numbersFit_signedNumber (n : Node) : (signedNumber n).NumbersFit := by
  unfold signedNumber
  split
  · exact numbersFit_unsupported _
  split
  · split
    · exact numbersFit_unsupported _
    · rename_i number hnumber
      have hfits := fitsReader_parseNumber? hnumber
      split
      · exact numbersFit_number hfits
      · exact numbersFit_number (Number.fitsReader_negate hfits)
      · exact numbersFit_unsupported _
  · exact numbersFit_unsupported _

theorem numbersFit_recordFrom : ∀ {members : List (Key × Value)} {fields : Fields Value},
    (∀ e ∈ members, e.2.NumbersFit) → (∀ e ∈ fields, e.2.NumbersFit) → (recordFrom fields members).NumbersFit
  | [], fields, _, hfields => by
    rintro m (- | - | ⟨hmem, hm⟩)
    exact hfields _ hmem m hm
  | (.named name, v) :: rest, fields, hmembers, hfields => by
    rw [recordFrom]
    refine numbersFit_recordFrom (fun e he => hmembers e (List.mem_cons_of_mem _ he)) fun e he => ?_
    rcases Fields.mem_insert he with hmem | hvalue
    · exact hfields e hmem
    · rw [hvalue]
      exact hmembers (.named name, v) List.mem_cons_self
  | (.computed, _) :: _, _, _, _ => numbersFit_unsupported _
  | (.spread, _) :: _, _, _, _ => numbersFit_unsupported _

/-- What the value of an expression can be, in terms of the values of its parts and members. -/
inductive Gives (n : Node) : Value → Prop
  | unsupported (kind : String) : Gives n (.unsupported kind)
  | part {m : Node} : m ∈ n.parts → Gives n (evaluate m)
  | text (s : String) : Gives n (.text s)
  | number {m : Number} : parseNumber? n.text = some m → Gives n (.number m)
  | bool (b : Bool) : Gives n (.bool b)
  | null : Gives n .null
  | signed : Gives n (signedNumber n)
  | list : Gives n (.list (n.parts.map evaluate))
  | record : Gives n (recordFrom [] ((entries n).map fun e => (e.key, evaluate e.value)))

theorem Gives.of_getD {n : Node} {o : Option Value} {kind : String}
    (h : ∀ v, o = some v → ∃ m ∈ n.parts, evaluate m = v) : Gives n (o.getD (.unsupported kind)) := by
  cases o with
  | none => exact .unsupported kind
  | some v =>
    obtain ⟨m, hm, rfl⟩ := h v rfl
    exact .part hm

theorem gives_evaluate (n : Node) : Gives n (evaluate n) := by
  obtain ⟨label, role, start, stop, text, children⟩ := n
  cases label with
  | token => exact .unsupported _
  | error => exact .unsupported _
  | missing => exact .unsupported _
  | named kind =>
    unfold evaluate
    dsimp only
    split
    · refine .of_getD fun v hv => ?_
      rw [evaluateFirst_eq, ← List.head?_map] at hv
      exact List.mem_map.mp (List.mem_of_head? hv)
    split
    · refine .of_getD fun v hv => ?_
      rw [evaluateLast_eq, ← List.getLast?_map] at hv
      exact List.mem_map.mp (List.mem_of_getLast? hv)
    split
    · exact .text _
    · split
      · exact .number ‹_›
      · exact .unsupported _
    · exact .bool true
    · exact .bool false
    · exact .null
    · exact .signed
    · split
      · exact .unsupported _
      · rw [evaluateItems_eq]
        exact .list
    · rw [evaluateMembers_eq]
      exact .record
    · exact .unsupported _

/-- Evaluation makes no other numbers than those of literals. -/
theorem numbersFit_evaluate (n : Node) : (evaluate n).NumbersFit := by
  have hparts : ∀ m ∈ n.parts, (evaluate m).NumbersFit := fun m hm => by
    have := sizeOf_child (List.mem_of_mem_filter hm)
    exact numbersFit_evaluate m
  have hmembers : ∀ e ∈ (entries n).map fun e => (e.key, evaluate e.value), e.2.NumbersFit := by
    intro member hmember
    obtain ⟨e, he, rfl⟩ := List.mem_map.mp hmember
    have := sizeOf_entries he
    exact numbersFit_evaluate e.value
  have hgives := gives_evaluate n
  generalize evaluate n = v at hgives ⊢
  cases hgives with
  | unsupported kind => exact numbersFit_unsupported kind
  | part hm => exact hparts _ hm
  | text s => rintro _ ⟨⟩
  | number hm => exact numbersFit_number (fitsReader_parseNumber? hm)
  | bool b => rintro _ ⟨⟩
  | null => rintro _ ⟨⟩
  | signed => exact numbersFit_signedNumber n
  | list =>
    rintro number (- | ⟨hmem, hnumber⟩)
    obtain ⟨m, hm, rfl⟩ := List.mem_map.mp hmem
    exact hparts m hm number hnumber
  | record => exact numbersFit_recordFrom hmembers (by simp)
termination_by sizeOf n

end Literal

end StoryManifest
