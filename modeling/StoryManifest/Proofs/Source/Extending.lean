import Mathlib.Logic.Relation
import StoryManifest.Proofs.Source.OrderedStatements

/-!
How expressions grow. What follows an operand makes a larger expression of it, whose first part is what
was read before; so an expression goes back, from first part to first part, to the operand that it
started from, and the way is as long as the expression has grown often. A name or a string is never the
outcome of growing.
-/

namespace StoryManifest.Source

open Source.Parser Source.Grammar

/-! ### Larger expressions -/

/-- Kinds that only operands are of. -/
def Kind.isAtom (kind : Kind) : Bool := kind = .identifier || kind = .string

/-- A node has another one as its first part, in whatever role, and is no mere operand. -/
structure Extends (left n : Node) : Prop where
  first : ∃ role ns, n.children = { left with role } :: ns
  grown : ∃ kind, n.label = .named kind ∧ kind.isAtom = false

namespace Parser

variable {α : Type} {left first : Node} {g : Bool} {kind : Kind}

/-- What the parser reads has a node as its first part. -/
def Enlarges (left : Node) (p : Parser Node) : Prop := ∀ ⦃s n t⦄, p s = .done n t → Extends left n

/-- What the parser reads, if anything, has a node as its first part. -/
def MayEnlarge (left : Node) (p : Parser (Option Node)) : Prop :=
  ∀ ⦃s n t⦄, p s = .done (some n) t → Extends left n

/-- A node over what was read and what is appended behind it. -/
theorem extends_build {q : Parser α} (hfirst : ∃ role, first = { left with role }) (hq : Appends [] g q)
    (hkind : kind.isAtom = false) {s u : State} {a : α}
    (h : (do push first; q) { s with made := [] } = .done a u)
    (place : Place) : Extends left (build kind place u.made.reverse) := by
  obtain ⟨_, w, hpush, hrest⟩ := bind_eq_done.mp h
  obtain rfl := push_eq_done.mp hpush
  obtain ⟨ns, hmade, -, -⟩ := hq _ (.nil (Nat.le_refl _)) hrest
  obtain ⟨role, rfl⟩ := hfirst
  exact ⟨⟨role, ns, by simp [Parser.build, hmade]⟩, kind, rfl, hkind⟩

theorem Enlarges.node {q : Parser Unit} (hfirst : ∃ role, first = { left with role }) (hq : Appends [] g q)
    (hkind : kind.isAtom = false) : Enlarges left (node kind do push first; q) := fun s n t h => by
  obtain ⟨kind', u, hrun, rfl, -⟩ := nodeOf_eq_done h
  obtain ⟨_, w, hbody, hpure⟩ := bind_eq_done.mp hrun
  obtain ⟨rfl, rfl⟩ := pure_eq_done.mp hpure
  exact extends_build hfirst hq hkind hbody _

theorem Enlarges.nodeOf {q : Parser Kind} (hfirst : ∃ role, first = { left with role }) (hq : Appends [] g q)
    (hkind : Returns (!Kind.isAtom ·) q) : Enlarges left (nodeOf do push first; q) := fun s n t h => by
  obtain ⟨kind, u, hrun, rfl, -⟩ := nodeOf_eq_done h
  obtain ⟨_, w, -, hrest⟩ := bind_eq_done.mp hrun
  exact extends_build hfirst hq (by simpa using hkind hrest) hrun _

theorem MayEnlarge.nothing : MayEnlarge left (pure none) := fun s n t h => by
  obtain ⟨hnone, -⟩ := pure_eq_done.mp h
  cases hnone

theorem MayEnlarge.read {p : Parser Node} (hp : Enlarges left p) :
    MayEnlarge left (p >>= fun n => pure (some n)) := fun s n t h => by
  obtain ⟨m, u, hm, h⟩ := bind_eq_done.mp h
  obtain ⟨hsome, -⟩ := pure_eq_done.mp h
  cases hsome
  exact hp hm

theorem MayEnlarge.bind {p : Parser α} {f : α → Parser (Option Node)} (hf : ∀ a, MayEnlarge left (f a)) :
    MayEnlarge left (p >>= f) := fun s n t h => by
  obtain ⟨a, u, -, h⟩ := bind_eq_done.mp h
  exact hf a h

theorem Enlarges.bind {p : Parser α} {f : α → Parser Node} (hf : ∀ a, Enlarges left (f a)) :
    Enlarges left (p >>= f) := fun s n t h => by
  obtain ⟨a, u, -, h⟩ := bind_eq_done.mp h
  exact hf a h

theorem Enlarges.ite {c : Prop} [Decidable c] {p q : Parser Node} (hp : Enlarges left p)
    (hq : Enlarges left q) : Enlarges left (if c then p else q) := by
  split
  · exact hp
  · exact hq

theorem MayEnlarge.ite {c : Prop} [Decidable c] {p q : Parser (Option Node)} (hp : c → MayEnlarge left p)
    (hq : MayEnlarge left q) : MayEnlarge left (if c then p else q) := by
  split
  · exact hp ‹_›
  · exact hq

/-- What a parser reads if it fits, and else what comes of reading the same text again. -/
theorem MayEnlarge.attempt {p : Parser Node} {f : Option Node → Parser (Option Node)} (hp : Enlarges left p)
    (hsome : ∀ n, f (some n) = pure (some n)) (hnone : MayEnlarge left (f none)) :
    MayEnlarge left (attempt p >>= f) := fun s n u h => by
  obtain ⟨a, t, ha, ho⟩ := bind_eq_done.mp h
  rcases attempt_eq_done ha with ⟨m, rfl, hm⟩ | ⟨rfl, -⟩
  · rw [hsome] at ho
    obtain ⟨hsome, -⟩ := pure_eq_done.mp ho
    cases hsome
    exact hp hm
  · exact hnone ho

/-- A value that is rewritten for as long as a step gives another one comes of its first rewriting,
or stays. -/
theorem iterate_eq_done {step : α → Parser (Option α)} {a b : α} {s t : State}
    (h : iterate step a s = .done b t) : ∃ o u, step a s = .done o u ∧ (o = none → b = a) ∧
      ∀ c, o = some c → Relation.ReflTransGen (fun x y => ∃ s t, step x s = .done (some y) t) c b := by
  -- The text bounds the rounds, so the induction is on it.
  have hrun : ∀ (text : List Char) {a : α} {s : State}, iterateOver step text a s = .done b t →
      ∃ o u, step a s = .done o u ∧ (o = none → b = a) ∧
        ∀ c, o = some c → Relation.ReflTransGen (fun x y => ∃ s t, step x s = .done (some y) t) c b := by
    intro text
    induction text with
    | nil =>
      intro a s h
      cases hstep : step a s with
      | failed reach => simp [iterateOver, hstep] at h
      | done o u =>
        simp only [iterateOver, hstep, Outcome.done.injEq] at h
        refine ⟨o, u, rfl, ?_, ?_⟩
        · rintro rfl
          exact h.1.symm
        · rintro c rfl
          exact h.1 ▸ .refl
    | cons c text ih =>
      intro a s h
      cases hstep : step a s with
      | failed reach => simp [iterateOver, hstep] at h
      | done o u =>
        refine ⟨o, u, rfl, ?_, ?_⟩
        · rintro rfl
          simp only [iterateOver, hstep, Outcome.done.injEq] at h
          exact h.1.symm
        · rintro d rfl
          simp only [iterateOver, hstep] at h
          obtain ⟨o, w, hnext, hnone, hsome⟩ := ih h
          cases o with
          | none => exact hnone rfl ▸ .refl
          | some e => exact .head ⟨u, w, hnext⟩ (hsome e rfl)
  exact hrun _ h

end Parser

namespace Grammar

variable {v : Variant} {self : Grammar} {left : Node} (hself : ∀ rule, Reads [] (self rule))

/-- A node is itself in the role that it has. -/
theorem exists_role (n : Node) : ∃ role, n = { n with role } := by
  cases n
  exact ⟨_, rfl⟩

theorem exists_role_inRole (n : Node) (role : Role) : ∃ role', n.inRole role = { n with role := role' } :=
  ⟨some role, rfl⟩

include hself

theorem enlarges_binary (s : Setting) {operator : Parser Unit} (hoperator : Appends [] true operator)
    (level : Level) : Enlarges left (binary self s left operator level) :=
  .node (exists_role_inRole ..) (.bind hoperator fun _ => appends_field .right (hself _)) rfl

theorem enlarges_assignment (s : Setting) {kind : Kind} {operator : String}
    (hoperator : operator.isEmpty = false)
    (hkind : kind.isAtom = false) : Enlarges left (assignment self s kind left operator) :=
  .node (exists_role_inRole ..) (.bind (appends_mark hoperator) fun _ => appends_field .right (hself _))
    hkind

theorem enlarges_conditional (s : Setting) : Enlarges left (conditional self s left) :=
  .node (exists_role left) (.bind (appends_mark rfl) fun _ => .bind (appends_add (hself _)) fun _ =>
    .bind (appends_mark rfl) fun _ => appends_add (hself _)) rfl

omit hself in
theorem enlarges_memberAccess {dot : String} (hdot : dot.isEmpty = false) :
    Enlarges left (memberAccess left dot) :=
  .bind fun _ => .node (exists_role_inRole ..) (.bind (appends_mark hdot) fun _ =>
    .bind appends_wideGap fun _ =>
    .look .sees fun _ => .ite (fun _ => .read reads_privateName fun _ => .pushAs) fun _ =>
      .read (reads_word rfl) fun _ => .pushAs) (by split <;> rfl)

theorem enlarges_optionalAccess : Enlarges left (optionalAccess v self left) :=
  .bind fun _ => .ite
    (.node (exists_role left) (.bind (appends_mark rfl) fun _ => .look .sees fun _ =>
      .joinIf (fun k => .bind (appends_add (reads_typeArguments hself)) fun _ => k)
        (appends_add (reads_arguments hself))) rfl)
    (.ite (.node (exists_role_inRole ..) (.bind (appends_mark rfl) fun _ => appends_indexTail hself) rfl)
      (enlarges_memberAccess rfl))

theorem enlarges_typedCall (s : Setting) : Enlarges left (typedCall v self s left) :=
  .nodeOf (exists_role left)
    (.bind (appends_callTypes hself s) fun _ => .look .sees fun _ => .ite
      (fun _ => .bind (appends_add (reads_arguments hself)) fun _ => .pure _) fun _ =>
        .look .sees fun _ => .ite
      (fun _ => .bind (appends_add (reads_template (hself _))) fun _ => .pure _) fun _ => .pure _)
    (.bind fun _ => .bind fun _ => .ite (.bind fun _ => .pure rfl)
      (.bind fun _ => .ite (.bind fun _ => .pure rfl) (.pure rfl)))

theorem mayEnlarge_extendBySign (s : Setting) (cs : List Char) :
    MayEnlarge left (extendBySign v self s left cs) := by
  have hlevels : ∀ {operator level}, binaryLevels.lookup operator = some level →
      operator.isEmpty = false := by
    intro operator level h
    refine String.isEmpty_eq_false_iff.mpr ?_
    rintro rfl
    cases h
  rw [extendBySign]
  refine .ite (fun _ => .ite (fun _ => .read (.node (exists_role_inRole ..)
    (.bind (appends_mark rfl) fun _ => appends_field .right (hself _)) rfl)) .nothing) ?_
  refine .ite
    (fun h => .ite (fun _ => .read (.node (exists_role_inRole ..) (appends_mark ?_) rfl)) .nothing) ?_
  · refine String.isEmpty_eq_false_iff.mpr fun hnone => ?_
    simp [hnone] at h
  refine .ite (fun h => .ite (fun _ => .read (enlarges_assignment hself s (h ▸ rfl) rfl)) .nothing) ?_
  refine .ite (fun h =>
    .ite (fun _ => .read (enlarges_assignment hself s (isEmpty_of_mem (by decide) h) rfl))
    .nothing) ?_
  refine .ite (fun _ => .ite (fun _ => .read (.node (exists_role left) (appends_mark rfl) rfl)) .nothing) ?_
  split
  · rename_i level hlevel
    exact .ite (fun _ => .read (enlarges_binary hself s (appends_mark (hlevels hlevel)) level)) .nothing
  · exact .nothing

theorem mayEnlarge_extendByWord (s : Setting) (w : String) :
    MayEnlarge left (extendByWord v self s left w) :=
  .ite
    (fun h => .ite (fun _ => .read (enlarges_binary hself s
      (appends_keywordOf fun hnone => absurd (hnone ▸ h) (by decide)) _)) .nothing)
    (.ite
      (fun h => .read (.node (exists_role left) (.bind (appends_keywordOf fun hnone => by simp [hnone] at h)
        fun _ => .look keeps_seesWord fun _ => .ite (fun _ => appends_keyword rfl) fun _ =>
          appends_add (hself _)) (by split <;> rfl)))
      .nothing)

/-- Whatever comes after an operand, what it makes of it has it as its first part. -/
theorem mayEnlarge_extend (s : Setting) (left : Node) : MayEnlarge left (extend v self s left) := by
  refine .bind fun cs => .ite (fun _ => .nothing) ?_
  dsimp only
  split
  · exact .nothing
  · refine .ite (fun _ => .read (enlarges_memberAccess rfl)) ?_
    refine .ite (fun _ => .read (.node (exists_role_inRole ..) (appends_indexTail hself) rfl)) ?_
    refine .ite (fun _ => .ite (fun _ => .read (.node (exists_role left)
      (appends_add (reads_arguments hself)) rfl)) .nothing) ?_
    refine .ite (fun _ => .read (.node (exists_role left) (appends_add (reads_template (hself _))) rfl)) ?_
    refine .ite (fun _ => .ite (fun _ => .read (enlarges_conditional hself s)) .nothing) ?_
    refine .ite (fun _ => .read (enlarges_optionalAccess hself)) ?_
    refine .ite (fun _ => .attempt (enlarges_typedCall hself s) (fun _ => rfl)
      (mayEnlarge_extendBySign hself s _)) ?_
    exact .ite (fun _ => mayEnlarge_extendByWord hself s _) (mayEnlarge_extendBySign hself s _)

omit hself in
/-- What grows out of a larger expression is a larger expression. -/
theorem exists_extends {m n : Node} (hm : Extends left m) (h : Relation.ReflTransGen Extends m n) :
    ∃ k, Extends k n := by
  rcases h.cases_tail with rfl | ⟨k, -, hk⟩
  · exact ⟨left, hm⟩
  · exact ⟨k, hk⟩

/-- An expression has grown out of its operand, by what follows it first, or is its operand. -/
theorem expression_eq_done {setting : Setting} {s t : State} {n : Node}
    (h : expression v self setting s = .done n t) : ∃ first u, operand v self setting s = .done first u ∧
      ∃ o w, extend v self setting first u = .done o w ∧ (o = none → n = first) ∧
        ∀ m, o = some m → Extends first m ∧ Relation.ReflTransGen Extends m n := by
  obtain ⟨first, u, hfirst, h⟩ := bind_eq_done.mp h
  obtain ⟨o, w, ho, hnone, hsome⟩ := iterate_eq_done h
  refine ⟨first, u, hfirst, o, w, ho, hnone, ?_⟩
  rintro m rfl
  refine ⟨mayEnlarge_extend hself setting first ho, Relation.ReflTransGen.mono ?_ m n (hsome m rfl)⟩
  rintro x y ⟨s, t, hstep⟩
  exact mayEnlarge_extend hself setting x hstep

/-- A string is an operand that has not grown. -/
theorem operand_of_string {setting : Setting} {s t : State} {n : Node}
    (h : expression v self setting s = .done n t)
    (hn : n.is .string = true) : ∃ u, operand v self setting s = .done n u := by
  obtain ⟨first, u, hfirst, o, w, -, hnone, hsome⟩ := expression_eq_done hself h
  cases o with
  | none =>
    obtain rfl := hnone rfl
    exact ⟨u, hfirst⟩
  | some m =>
    obtain ⟨hm, hchain⟩ := hsome m rfl
    obtain ⟨k, hk⟩ := exists_extends hm hchain
    obtain ⟨kind, hlabel, hkind⟩ := hk.grown
    obtain rfl : kind = .string := by simpa [Node.is, hlabel] using hn
    cases hkind

omit hself in
/-- An expression that has grown twice, out of a name, has first grown to its first part. -/
theorem eq_of_extends_twice {m n part name : Node} {ns ms : List Node} (hm : m.is .identifier = false)
    (h : Relation.ReflTransGen Extends m n) (hne : n.label ≠ m.label) (hn : n.children = part :: ns)
    (hpart : part.children = name :: ms) (hname : name.is .identifier = true) :
      ∃ role, part = { m with role } := by
  rcases h.cases_tail with rfl | ⟨k, hk, hkn⟩
  · exact absurd rfl hne
  obtain ⟨role, ns', hfirst⟩ := hkn.first
  obtain ⟨rfl, -⟩ := List.cons.inj (hn.symm.trans hfirst)
  rcases hk.cases_tail with rfl | ⟨l, hl, hlk⟩
  · exact ⟨role, rfl⟩
  -- Were there a further step between them, the name would have grown out of something.
  obtain ⟨role', ms', hfirst'⟩ := hlk.first
  obtain ⟨rfl, -⟩ := List.cons.inj (hpart.symm.trans hfirst')
  have hl' : l.is .identifier = true := hname
  rcases hl.cases_tail with rfl | ⟨j, -, hjl⟩
  · rw [hl'] at hm
    cases hm
  · obtain ⟨kind, hlabel, hkind⟩ := hjl.grown
    obtain rfl : kind = .identifier := by simpa [Node.is, hlabel] using hl'
    cases hkind

end Grammar

end StoryManifest.Source
