import StoryManifest.Proofs.Source.Order

/-!
Where comments stand. A comment has no role and nothing below it, and none stands before the expression of
an expression statement. Parsers append nodes that are tidy in this sense, and in order; what they have
read and not appended yet is no comment.
-/

namespace StoryManifest.Source

/-- The first of the nodes is no comment, and the only one that stands for a part of the grammar. -/
def IsHeaded (ns : List Node) : Prop :=
  ∀ n rest, ns = n :: rest → n.is .comment = false ∧ ∀ m ∈ rest, m.isPart = false

/-- At every depth, comments have no role and nothing below them, and expression statements are headed by
their expression. -/
inductive Node.Tidy : Node → Prop
  | mk {n : Node} : (n.is .comment = true → n.role = none ∧ n.children = []) →
      (n.is .expressionStatement = true → IsHeaded n.children) → (∀ c ∈ n.children, c.Tidy) → n.Tidy

/-- The label is neither that of a comment nor that of an expression statement. -/
def Label.isOrdinary : Label → Bool
  | .named .comment => false
  | .named .expressionStatement => false
  | _ => true

/-- Tidy nodes in order. -/
structure Laid (a : Nat) (ns : List Node) (b : Nat) : Prop where
  inOrder : InOrder a ns b
  tidy : ∀ n ∈ ns, n.Tidy

/-- Tidy nodes in order, none of which is a comment. -/
structure Pending (a : Nat) (ns : List Node) (b : Nat) : Prop extends Laid a ns b where
  noComment : ∀ n ∈ ns, n.is .comment = false

variable {a b c : Nat} {m n : Node} {ms ns : List Node} {label : Label}

theorem isOrdinary_ite {k l : Kind} {p : Prop} [Decidable p] (hk : (Label.named k).isOrdinary = true)
    (hl : (Label.named l).isOrdinary = true) : (Label.named (if p then k else l)).isOrdinary = true := by
  split
  · exact hk
  · exact hl

theorem is_eq_false_of_isOrdinary {kind : Kind} (h : n.label.isOrdinary = true)
    (hkind : (Label.named kind).isOrdinary = false) : n.is kind = false := by
  refine decide_eq_false fun hlabel => ?_
  rw [hlabel, hkind] at h
  cases h

namespace Node.Tidy

theorem comment (h : n.Tidy) (hkind : n.is .comment = true) : n.role = none ∧ n.children = [] := by
  cases h with
  | mk hcomment _ _ => exact hcomment hkind

theorem headed (h : n.Tidy) (hkind : n.is .expressionStatement = true) : IsHeaded n.children := by
  cases h with
  | mk _ hheaded _ => exact hheaded hkind

theorem children (h : n.Tidy) : ∀ c ∈ n.children, c.Tidy := by
  cases h with
  | mk _ _ hchildren => exact hchildren

theorem of_isOrdinary (hlabel : n.label.isOrdinary = true) (hchildren : ∀ c ∈ n.children, c.Tidy) :
    n.Tidy := by
  refine .mk (fun hkind => ?_) (fun hkind => ?_) hchildren
  · rw [is_eq_false_of_isOrdinary hlabel rfl] at hkind
    cases hkind
  · rw [is_eq_false_of_isOrdinary hlabel rfl] at hkind
    cases hkind

theorem leaf (label : Label) (start stop : Place) (text : String) : (Node.leaf label start stop text).Tidy :=
  .mk (fun _ => ⟨rfl, rfl⟩) (fun _ => by rintro _ _ ⟨⟩) (by rintro _ ⟨⟩)

end Node.Tidy

namespace Laid

theorem nil (h : a ≤ b) : Laid a [] b := ⟨.nil h, by simp⟩

theorem le (h : Laid a ns b) : a ≤ b := h.inOrder.le

theorem mono {a' : Nat} (h : Laid a ns b) (ha : a' ≤ a) : Laid a' ns b :=
  ⟨h.inOrder.mono ha (Nat.le_refl _), h.tidy⟩

theorem append (h : Laid a ms b) (h' : Laid b ns c) : Laid a (ms ++ ns) c := by
  refine ⟨h.inOrder.append h'.inOrder, fun n hn => ?_⟩
  exact (List.mem_append.mp hn).elim (h.tidy n) (h'.tidy n)

/-- A leaf over at least one byte. -/
theorem leaf {start stop : Place} {text : String} (ha : a ≤ start.byte) (h : start.byte < stop.byte)
    (hb : stop.byte ≤ b) (label : Label) : Laid a [.leaf label start stop text] b where
  inOrder := InOrder.singleton_iff.mpr ⟨ha, ⟨h, .nil (Nat.le_of_lt h)⟩, hb⟩
  tidy := by simpa using Node.Tidy.leaf label start stop text

end Laid

namespace Pending

theorem nil (h : a ≤ b) : Pending a [] b := ⟨.nil h, by simp⟩

theorem mono {a' b' : Nat} (h : Pending a ns b) (ha : a' ≤ a) (hb : b ≤ b') : Pending a' ns b' :=
  ⟨⟨h.inOrder.mono ha hb, h.tidy⟩, h.noComment⟩

/-- A node that is no comment may be put in any role. -/
theorem inRole (h : Pending a [n] b) (role : Role) : Laid a [n.inRole role] b := by
  have hn : n.Tidy := h.tidy n (by simp)
  have hcomment : (n.inRole role).is .comment = false := h.noComment n (by simp)
  refine ⟨h.inOrder.of_sameSpan rfl rfl rfl, ?_⟩
  simp only [List.mem_singleton, forall_eq]
  refine .mk (fun hkind => ?_) hn.headed hn.children
  rw [hcomment] at hkind
  cases hkind

theorem relabel (h : Pending a [n] b) (hlabel : label.isOrdinary = true) :
    Pending a [{ n with label }] b := by
  have hn : n.Tidy := h.tidy n (by simp)
  refine ⟨⟨h.inOrder.of_sameSpan rfl rfl rfl, ?_⟩, ?_⟩
  · simpa using Node.Tidy.of_isOrdinary (n := { n with label }) hlabel hn.children
  · simpa using is_eq_false_of_isOrdinary (n := { n with label }) hlabel rfl

/-- A node over tidy nodes, which are headed by their only part if it is an expression statement. -/
theorem build {kind : Kind} (h : Laid a ns b) (hne : ns ≠ []) (place : Place) (hkind : kind ≠ .comment)
    (hheaded : kind = .expressionStatement → IsHeaded ns) : Pending a [Parser.build kind place ns] b where
  inOrder := h.inOrder.build hne kind place
  tidy := by
    simp only [List.mem_singleton, forall_eq]
    exact .mk (fun hcomment => absurd (by simpa [Node.is, Parser.build] using hcomment) hkind)
      (fun hstatement => hheaded (by simpa [Node.is, Parser.build] using hstatement)) h.tidy
  noComment := by simpa [Node.is, Parser.build] using hkind

end Pending

end StoryManifest.Source
