import StoryManifest.Literal.Entry
import StoryManifest.Source.Parser

/-!
Nodes in order. A node is orderly when it covers at least one byte and its children, orderly themselves,
cover parts of it one after the other; so nodes that stand beside each other share no byte, and what is
found inside one comes before what is found inside the next.
-/

namespace StoryManifest.Source

/-- Orderly nodes cover parts of a stretch of bytes, one after the other. -/
inductive InOrder : Nat → List Node → Nat → Prop
  | nil {a b : Nat} : a ≤ b → InOrder a [] b
  | cons {a b : Nat} {n : Node} {ns : List Node} : a ≤ n.start.byte → n.start.byte < n.stop.byte →
      InOrder n.start.byte n.children n.stop.byte → InOrder n.stop.byte ns b → InOrder a (n :: ns) b

/-- The node covers at least one byte, and its children parts of it in order. -/
structure Node.Orderly (n : Node) : Prop where
  span : n.start.byte < n.stop.byte
  children : InOrder n.start.byte n.children n.stop.byte

namespace InOrder

variable {a b c : Nat} {m n : Node} {ms ns : List Node}

theorem cons_iff : InOrder a (n :: ns) b ↔ a ≤ n.start.byte ∧ n.Orderly ∧ InOrder n.stop.byte ns b := by
  constructor
  · rintro (_ | ⟨hstart, hspan, hchildren, hrest⟩)
    exact ⟨hstart, ⟨hspan, hchildren⟩, hrest⟩
  · rintro ⟨hstart, hn, hrest⟩
    exact .cons hstart hn.span hn.children hrest

theorem nil_iff : InOrder a [] b ↔ a ≤ b := ⟨fun h => by cases h; assumption, .nil⟩

theorem singleton_iff : InOrder a [n] b ↔ a ≤ n.start.byte ∧ n.Orderly ∧ n.stop.byte ≤ b := by
  rw [cons_iff, nil_iff]

theorem le (h : InOrder a ns b) : a ≤ b := by
  induction h with
  | nil h => exact h
  | cons hstart hspan _ _ _ ih => omega

theorem mono {a' b' : Nat} (h : InOrder a ns b) (ha : a' ≤ a) (hb : b ≤ b') : InOrder a' ns b' := by
  induction h generalizing a' with
  | nil h => exact .nil (by omega)
  | cons hstart hspan hchildren _ _ ih => exact .cons (by omega) hspan hchildren (ih (Nat.le_refl _) hb)

theorem append (h : InOrder a ms b) (h' : InOrder b ns c) : InOrder a (ms ++ ns) c := by
  induction h with
  | nil h => exact h'.mono h (Nat.le_refl _)
  | cons hstart hspan hchildren _ _ ih => exact .cons hstart hspan hchildren (ih h')

/-- In another role or with another label, a node covers the same. -/
theorem of_sameSpan (h : InOrder a [n] b) (hstart : m.start = n.start) (hstop : m.stop = n.stop)
    (hchildren : m.children = n.children) : InOrder a [m] b := by
  obtain ⟨hle, hn, hb⟩ := singleton_iff.mp h
  exact singleton_iff.mpr ⟨hstart ▸ hle, ⟨by rw [hstart, hstop]; exact hn.span,
    by rw [hstart, hstop, hchildren]; exact hn.children⟩, hstop ▸ hb⟩

theorem mem (h : InOrder a ns b) (hn : n ∈ ns) : a ≤ n.start.byte ∧ n.Orderly ∧ n.stop.byte ≤ b := by
  induction h with
  | nil => cases hn
  | @cons a b m ns hstart hspan hchildren hrest _ ih =>
    rcases List.mem_cons.mp hn with rfl | hn
    · exact ⟨hstart, ⟨hspan, hchildren⟩, hrest.le⟩
    · obtain ⟨hle, horderly, hb⟩ := ih hn
      exact ⟨by omega, horderly, hb⟩

/-- Some of the nodes are in order too. -/
theorem sublist (h : InOrder a ns b) : ∀ {ms : List Node}, ms.Sublist ns → InOrder a ms b := by
  induction h with
  | nil h =>
    rintro ms hms
    rw [List.sublist_nil.mp hms]
    exact .nil h
  | cons hstart hspan hchildren _ _ ih =>
    intro ms hms
    cases hms with
    | cons _ hms => exact (ih hms).mono (by omega) (Nat.le_refl _)
    | cons_cons _ hms => exact .cons hstart hspan hchildren (ih hms)

/-- What stands for each of the nodes, inside it, is in order too. -/
theorem flatMap {f : Node → List Node} (h : InOrder a ns b)
    (hf : ∀ n ∈ ns, n.Orderly → InOrder n.start.byte (f n) n.stop.byte) : InOrder a (ns.flatMap f) b := by
  induction h with
  | nil h => exact .nil h
  | @cons a b n ns hstart hspan hchildren _ _ ih =>
    have hn := hf n (by simp) ⟨hspan, hchildren⟩
    rw [List.flatMap_cons]
    exact (hn.mono hstart (Nat.le_refl _)).append (ih fun m hm => hf m (List.mem_cons_of_mem _ hm))

/-- Nodes in order start at later and later bytes. -/
theorem pairwise_start (h : InOrder a ns b) : ns.Pairwise (·.start.byte < ·.start.byte) := by
  induction h with
  | nil => exact .nil
  | cons hstart hspan _ hrest _ ih =>
    refine .cons (fun m hm => ?_) ih
    have := (hrest.mem hm).1
    omega

/-- Nodes in order end where the last one does. -/
theorem to_last (h : InOrder a ns b) (hn : n ∈ ns.getLast?) :
    InOrder a ns n.stop.byte ∧ a < n.stop.byte ∧ n.stop.byte ≤ b := by
  induction h with
  | nil => cases hn
  | @cons a b m ns hstart hspan hchildren hrest _ ih =>
    cases ns with
    | nil =>
      obtain rfl : m = n := by simpa using hn
      exact ⟨.cons hstart hspan hchildren (.nil (Nat.le_refl _)), by omega, hrest.le⟩
    | cons m' ns =>
      obtain ⟨hlast, hlt, hb⟩ := ih (by simpa using hn)
      exact ⟨.cons hstart hspan hchildren hlast, by omega, hb⟩

/-- A node over nodes in order covers what they cover. -/
theorem build (h : InOrder a ns b) (hne : ns ≠ []) (kind : Kind) (place : Place) :
    InOrder a [Parser.build kind place ns] b := by
  obtain ⟨first, rest, rfl⟩ := List.exists_cons_of_ne_nil hne
  obtain ⟨last, hlast⟩ : ∃ last, (first :: rest).getLast? = some last :=
    ⟨_, List.getLast?_eq_some_getLast (by simp)⟩
  have hstart : (Parser.build kind place (first :: rest)).start = first.start := rfl
  have hstop : (Parser.build kind place (first :: rest)).stop = last.stop := by
    simp [Parser.build, hlast]
  obtain ⟨hle, hfirst, hrest⟩ := cons_iff.mp h
  have hinner : InOrder first.start.byte (first :: rest) b := cons_iff.mpr ⟨Nat.le_refl _, hfirst, hrest⟩
  obtain ⟨hinner, hspan, hb⟩ := hinner.to_last hlast
  rw [singleton_iff, hstart, hstop]
  exact ⟨hle, ⟨by rw [hstart, hstop]; exact hspan, by rw [hstart, hstop]; exact hinner⟩, hb⟩

end InOrder

/-! ### Behind wrappers -/

mutual

/-- What is behind the wrappers of a node is inside the node. -/
theorem Node.Orderly.unwrap : ∀ n : Node, n.Orderly → InOrder n.start.byte [n.unwrap] n.stop.byte
  | ⟨.named kind, role, start, stop, text, children⟩, h => by
    have hself : InOrder start.byte [⟨.named kind, role, start, stop, text, children⟩] stop.byte :=
      InOrder.singleton_iff.mpr ⟨Nat.le_refl _, h, Nat.le_refl _⟩
    simp only [Node.unwrap]
    split
    · cases hfirst : Node.unwrapFirst children with
      | none => exact hself
      | some m => exact InOrder.unwrapFirst children h.children m hfirst
    · split
      · cases hlast : Node.unwrapLast children with
        | none => exact hself
        | some m => exact InOrder.unwrapLast children h.children m hlast
      · exact hself
  | ⟨.token _, _, _, _, _, _⟩, h => InOrder.singleton_iff.mpr ⟨Nat.le_refl _, h, Nat.le_refl _⟩
  | ⟨.error, _, _, _, _, _⟩, h => InOrder.singleton_iff.mpr ⟨Nat.le_refl _, h, Nat.le_refl _⟩
  | ⟨.missing _, _, _, _, _, _⟩, h => InOrder.singleton_iff.mpr ⟨Nat.le_refl _, h, Nat.le_refl _⟩

theorem InOrder.unwrapFirst : ∀ (ns : List Node) {a b : Nat}, InOrder a ns b →
    ∀ m, Node.unwrapFirst ns = some m → InOrder a [m] b
  | n :: rest, a, b, h, m, hm => by
    obtain ⟨hle, hn, hrest⟩ := InOrder.cons_iff.mp h
    rw [Node.unwrapFirst] at hm
    split at hm
    · cases hm
      exact (Node.Orderly.unwrap n hn).mono hle hrest.le
    · exact (InOrder.unwrapFirst rest hrest m hm).mono (by have := hn.span; omega) (Nat.le_refl _)

theorem InOrder.unwrapLast : ∀ (ns : List Node) {a b : Nat}, InOrder a ns b →
    ∀ m, Node.unwrapLast ns = some m → InOrder a [m] b
  | n :: rest, a, b, h, m, hm => by
    obtain ⟨hle, hn, hrest⟩ := InOrder.cons_iff.mp h
    rw [Node.unwrapLast] at hm
    cases hlast : Node.unwrapLast rest with
    | some l =>
      obtain rfl : l = m := by simpa [hlast] using hm
      exact (InOrder.unwrapLast rest hrest l hlast).mono (by have := hn.span; omega) (Nat.le_refl _)
    | none =>
      obtain ⟨-, rfl⟩ : n.isPart = true ∧ n.unwrap = m := by simpa [hlast] using hm
      exact (Node.Orderly.unwrap n hn).mono hle hrest.le

end

end StoryManifest.Source
