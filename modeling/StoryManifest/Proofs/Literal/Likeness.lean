import Mathlib.Logic.Relation
import StoryManifest.Proofs.Literal.Static
import StoryManifest.Proofs.Related

/-!
Expressions that are alike. Where a node holds a value, what wraps the value does not count, where it names a
member, how the name is written does not, and comments count nowhere; all else is the same at every depth.
Alike expressions have the same value: each function that evaluation is made of looks behind the wrappers of
the values it asks for, takes the name of a key, and passes over comments.
-/

namespace StoryManifest.Source

open Literal

/-- The parts of the grammar among the children are the named ones but for comments. -/
theorem parts_eq (n : Node) : n.parts = n.namedChildren.filter (!·.is .comment) := by
  rw [Node.namedChildren, List.filter_filter]
  exact List.filter_congr fun c _ => Bool.and_comm ..

/-! ### Behind wrappers -/

/-- What stands behind some of the wrappers of a node, perhaps behind none. -/
abbrev Behind (n inner : Node) : Prop := Relation.ReflTransGen Wraps n inner

section

variable {n inner : Node}

theorem isPart_of_wraps (h : Wraps n inner) : n.isPart = true ∧ inner.isPart = true := by
  cases h with
  | @first kind hlabel hkind hpart =>
    refine ⟨?_, (List.mem_filter.mp (List.mem_of_head? hpart)).2⟩
    have hcomment : kind ≠ .comment := by rintro rfl; cases hkind
    simp [Node.isPart, Node.isNamed, Node.is, hlabel, hcomment]
  | last hkind hpart =>
    refine ⟨?_, (List.mem_filter.mp (List.mem_of_getLast? hpart)).2⟩
    have hlabel : n.label = .named .typeAssertion := of_decide_eq_true hkind
    simp [Node.isPart, Node.isNamed, Node.is, hlabel]

theorem Behind.eq_or_isPart (h : Behind n inner) : n = inner ∨ n.isPart = true ∧ inner.isPart = true := by
  induction h with
  | refl => exact .inl rfl
  | tail _ hwraps ih =>
    obtain ⟨hpart, hpart'⟩ := isPart_of_wraps hwraps
    rcases ih with rfl | ⟨hn, -⟩
    · exact .inr ⟨hpart, hpart'⟩
    · exact .inr ⟨hn, hpart'⟩

theorem Behind.unwrap_eq (h : Behind n inner) : n.unwrap = inner.unwrap := by
  induction h with
  | refl => rfl
  | tail _ hwraps ih => rw [ih, hwraps.unwrap_eq]

theorem Behind.sizeOf_le (h : Behind n inner) : sizeOf inner ≤ sizeOf n := by
  induction h with
  | refl => exact Nat.le_refl _
  | tail _ hwraps ih => exact Nat.le_trans (Nat.le_of_lt (sizeOf_child hwraps.mem_children)) ih

theorem sizeOf_unwrap_le (n : Node) : sizeOf n.unwrap ≤ sizeOf n := by
  induction n using wraps_induction with
  | hbare n hbare => rw [unwrap_of_not_wraps hbare]
  | hwraps n inner hwraps ih =>
    rw [hwraps.unwrap_eq]
    exact Nat.le_trans ih (Nat.le_of_lt (sizeOf_child hwraps.mem_children))

/-- An expression has the value of what is behind its wrappers. -/
theorem evaluate_unwrap (n : Node) : evaluate n.unwrap = evaluate n := by
  induction n using wraps_induction with
  | hbare n hbare => rw [unwrap_of_not_wraps hbare]
  | hwraps n inner hwraps ih => rw [hwraps.unwrap_eq, ih, hwraps.evaluate_eq]

/-- A member with a name and a value is no expression itself. -/
theorem evaluate_pair (h : n.is .pair = true) : evaluate n = .unsupported "pair" := by
  obtain ⟨label, role, start, stop, text, children⟩ := n
  obtain rfl : label = .named .pair := of_decide_eq_true h
  rfl

/-- The node that a node wraps, if it does. -/
def wrapped? (n : Node) : Option Node :=
  match n.label with
  | .named kind =>
    if kind.wrapsFirst then n.parts.head? else if kind = .typeAssertion then n.parts.getLast? else none
  | _ => none

theorem wraps_iff : Wraps n inner ↔ wrapped? n = some inner := by
  constructor
  · intro h
    cases h with
    | first hlabel hkind hpart => rw [wrapped?, hlabel]; simp [hkind, hpart]
    | last hkind hpart =>
      have hlabel : n.label = .named .typeAssertion := of_decide_eq_true hkind
      rw [wrapped?, hlabel]
      simpa [Kind.wrapsFirst] using hpart
  · intro h
    rw [wrapped?] at h
    split at h
    · rename_i kind hlabel
      split at h
      · exact .first hlabel ‹_› h
      · split at h
        · rename_i hkind
          exact .last (decide_eq_true (hkind ▸ hlabel)) h
        · cases h
    · cases h

end

/-! ### Comments that are left out -/

/-- A comment without a role and with nothing below it. -/
structure IsBareComment (n : Node) : Prop where
  kind : n.is .comment = true
  role : n.role = none
  children : n.children = []

/-- Some comments are left out. -/
inductive Thinned : List Node → List Node → Prop
  | nil : Thinned [] []
  | keep {n : Node} {ms ns : List Node} : Thinned ms ns → Thinned (n :: ms) (n :: ns)
  | drop {n : Node} {ms ns : List Node} : IsBareComment n → Thinned ms ns → Thinned (n :: ms) ns

namespace Thinned

variable {α : Type} {ms ns : List Node}

theorem refl : ∀ ns : List Node, Thinned ns ns
  | [] => .nil
  | _ :: ns => .keep (refl ns)

theorem flatMap_eq (h : Thinned ms ns) {f : Node → List α} (hf : ∀ n, IsBareComment n → f n = []) :
    ms.flatMap f = ns.flatMap f := by
  induction h with
  | nil => rfl
  | keep _ ih => rw [List.flatMap_cons, List.flatMap_cons, ih]
  | drop hn _ ih => rw [List.flatMap_cons, hf _ hn, ih, List.nil_append]

theorem filterMap_eq (h : Thinned ms ns) {f : Node → Option α} (hf : ∀ n, IsBareComment n → f n = none) :
    ms.filterMap f = ns.filterMap f := by
  rw [List.filterMap_eq_flatMap_toList, List.filterMap_eq_flatMap_toList]
  exact h.flatMap_eq fun n hn => by rw [hf n hn]; rfl

theorem filter_eq (h : Thinned ms ns) {test : Node → Bool} (htest : ∀ n, IsBareComment n → test n = false) :
    ms.filter test = ns.filter test := by
  rw [← List.filterMap_eq_filter]
  exact h.filterMap_eq fun n hn => by simp [htest n hn]

theorem any_eq (h : Thinned ms ns) {test : Node → Bool} (htest : ∀ n, IsBareComment n → test n = false) :
    ms.any test = ns.any test := by
  induction h with
  | nil => rfl
  | keep _ ih => rw [List.any_cons, List.any_cons, ih]
  | drop hn _ ih => rw [List.any_cons, htest _ hn, ih, Bool.false_or]

theorem holeAfter_eq (h : Thinned ms ns) (due : Bool) : holeAfter due ms = holeAfter due ns := by
  induction h generalizing due with
  | nil => rfl
  | keep _ ih => simp only [holeAfter, ih]
  | @drop n _ _ hn _ ih =>
    have hlabel : n.label = .named .comment := of_decide_eq_true hn.kind
    simpa [holeAfter, Node.isToken, Node.is, hlabel] using ih due

end Thinned

/-! ### Likeness -/

/-- The children in a role hold values, so that what wraps them does not count. -/
def Node.holdsValue (n : Node) (role : Option Role) : Bool :=
  match n.label, role with
  | .named .variableDeclarator, some .value => true
  | .named .exportStatement, some .value => n.children.any (·.isToken "default")
  | .named .assignmentExpression, some .right => true
  | .named .pair, some .value => true
  | .named .unaryExpression, some .argument => true
  | .named kind, none => kind = .array || kind.wrapsFirst || kind = .typeAssertion
  | _, _ => false

/-- The child in a role names a member, so that how it is written does not count. -/
def Node.namesMember (n : Node) (role : Option Role) : Bool := n.is .pair && role = some .key

/-- Children of a node in one role are related, or what is behind their wrappers where these do not count, or
they are keys with one name. -/
inductive Placed (R : Node → Node → Prop) (parent c d : Node) : Prop
  | same : c.role = d.role → R c d → Placed R parent c d
  | behind {c' d' : Node} : parent.holdsValue c.role = true → c.role = d.role → Behind c c' →
      Behind d d' → R c' d' → Placed R parent c d
  | key : parent.namesMember c.role = true → c.role = d.role → c.isPart = true → d.isPart = true →
      propertyKey c = propertyKey d → Placed R parent c d

/-- Related nodes are the same but for where they stand, for wrappers around values, for the spelling
of keys and for comments, and so are their children. An expression statement has no comment before
its expression. -/
structure Likeness (R : Node → Node → Prop) : Prop where
  label {m n : Node} : R m n → m.label = n.label
  text {m n : Node} : R m n → m.text = n.text
  children {m n : Node} : R m n → ∃ cs ds, Thinned m.children cs ∧ Thinned n.children ds ∧
    List.Forall₂ (Placed R m) cs ds
  expression {m n : Node} : R m n → m.is .expressionStatement = true →
    Option.Rel R (m.namedChildren.head?.filter Node.isPart) (n.namedChildren.head?.filter Node.isPart)

/-- Some children of a node of the kind may hold values. -/
def Kind.mayHoldValue (kind : Kind) : Bool :=
  kind.wrapsFirst || kind ∈ [.variableDeclarator, .exportStatement, .assignmentExpression, .pair,
    .unaryExpression, .array, .typeAssertion]

/-- Children in the role may hold values or name members. -/
def Role.mayVary : Role → Bool
  | .value | .right | .argument | .key => true
  | _ => false

/-- No child of a node of such a kind holds a value, whatever its role. -/
theorem holdsValue_of_is {n : Node} {kind : Kind} (h : n.is kind = true) (hkind : kind.mayHoldValue = false)
    (role : Option Role) : n.holdsValue role = false := by
  have hlabel : n.label = .named kind := of_decide_eq_true h
  unfold Node.holdsValue
  rw [hlabel]
  split <;> simp_all [Kind.mayHoldValue]

/-- An export by names holds no value. -/
theorem holdsValue_of_named {n : Node} (hkind : n.is .exportStatement = true)
    (hdefault : n.children.any (·.isToken "default") = false) (role : Option Role) :
    n.holdsValue role = false := by
  have hlabel : n.label = .named .exportStatement := of_decide_eq_true hkind
  unfold Node.holdsValue
  rw [hlabel]
  cases role with
  | none => rfl
  | some role => cases role <;> first | exact hdefault | rfl

/-- Children in such a role hold no value and name no member, whatever their parent is. -/
theorem of_role (n : Node) {role : Role} (h : role.mayVary = false) :
    n.holdsValue (some role) = false ∧ n.namesMember (some role) = false := by
  constructor
  · unfold Node.holdsValue
    split <;> simp_all [Role.mayVary]
  · have hkey : role ≠ .key := by
      rintro rfl
      cases h
    simp [Node.namesMember, hkey]

/-- A node that holds no value is no member with a name and a value. -/
theorem not_pair_of_holdsValue {n : Node} (h : ∀ role, n.holdsValue role = false) : n.is .pair = false := by
  rw [← Bool.not_eq_true]
  intro hpair
  have hlabel : n.label = .named .pair := of_decide_eq_true hpair
  simpa [Node.holdsValue, hlabel] using h (some .value)

theorem namesMember_of_not_pair {n : Node} (h : n.is .pair = false) (role : Option Role) :
    n.namesMember role = false := by rw [Node.namesMember, h, Bool.false_and]

/-- A wrapper is no member. -/
theorem not_pair_of_wraps {n inner : Node} (h : Wraps n inner) : n.is .pair = false := by
  rw [← Bool.not_eq_true]
  intro hpair
  have hlabel : n.label = .named .pair := of_decide_eq_true hpair
  have hwrapped := wraps_iff.mp h
  rw [wrapped?, hlabel] at hwrapped
  cases hwrapped

theorem of_isPart {n : Node} (h : n.isPart = true) :
    n.isNamed = true ∧ n.is .comment = false ∧ ∀ text, n.isToken text = false := by
  obtain ⟨hnamed, hcomment⟩ := by simpa [Node.isPart] using h
  refine ⟨hnamed, hcomment, fun text => ?_⟩
  cases hlabel : n.label <;> simp_all [Node.isNamed, Node.isToken]

namespace Placed

variable {R : Node → Node → Prop} {parent c d : Node}

theorem role_eq (h : Placed R parent c d) : c.role = d.role := by
  cases h with
  | same hrole | behind _ hrole | key _ hrole => exact hrole

theorem related_of_role (h : Placed R parent c d)
    (hrole : parent.holdsValue c.role = false ∧ parent.namesMember c.role = false) : R c d := by
  cases h with
  | same _ hR => exact hR
  | behind hvalue =>
    rw [hrole.1] at hvalue
    cases hvalue
  | key hkey =>
    rw [hrole.2] at hkey
    cases hkey

theorem related (h : Placed R parent c d) (hvalue : ∀ role, parent.holdsValue role = false) : R c d :=
  h.related_of_role ⟨hvalue c.role, namesMember_of_not_pair (not_pair_of_holdsValue hvalue) c.role⟩

end Placed

/-- No comment need be left out where all children are placed alike. -/
theorem likeness_of_children {R : Node → Node → Prop} (hlabel : ∀ m n, R m n → m.label = n.label)
    (htext : ∀ m n, R m n → m.text = n.text)
    (hchildren : ∀ m n, R m n → List.Forall₂ (Placed R m) m.children n.children) : Likeness R where
  label h := hlabel _ _ h
  text h := htext _ _ h
  children h := ⟨_, _, .refl _, .refl _, hchildren _ _ h⟩
  expression {m n} h hkind := by
    have hrelated : List.Forall₂ R m.children n.children :=
      (hchildren m n h).imp fun c d hcd => hcd.related (holdsValue_of_is hkind rfl)
    have hnamed : List.Forall₂ R m.namedChildren n.namedChildren :=
      forall₂_filter hrelated fun c d hcd => by simp only [Node.isNamed, hlabel c d hcd]
    exact rel_filter (rel_head? hnamed) fun c d hcd => by
      simp only [Node.isPart, Node.isNamed, Node.is, hlabel c d hcd]

namespace Likeness

variable {R : Node → Node → Prop} (hR : Likeness R) {m n parent c d : Node}

include hR

theorem is_eq (h : R m n) (kind : Kind) : m.is kind = n.is kind := by
  rw [Node.is, Node.is, hR.label h]

/-- Children that are placed alike have one label or both are parts of the grammar. -/
theorem label_eq_or_isPart (h : Placed R parent c d) :
    c.label = d.label ∨ c.isPart = true ∧ d.isPart = true := by
  cases h with
  | same _ hR' => exact .inl (hR.label hR')
  | key _ _ hc hd => exact .inr ⟨hc, hd⟩
  | @behind c' d' _ _ hc hd hR' =>
    have hlabel := hR.label hR'
    have hpart : c'.isPart = d'.isPart := by simp only [Node.isPart, Node.isNamed, Node.is, hlabel]
    rcases hc.eq_or_isPart with rfl | ⟨hc, hc'⟩
    · rcases hd.eq_or_isPart with rfl | ⟨hd, hd'⟩
      · exact .inl hlabel
      · exact .inr ⟨hpart.trans hd', hd⟩
    · rcases hd.eq_or_isPart with rfl | ⟨hd, -⟩
      · exact .inr ⟨hc, hpart.symm.trans hc'⟩
      · exact .inr ⟨hc, hd⟩

theorem isPart_eq (h : Placed R parent c d) : c.isPart = d.isPart := by
  rcases hR.label_eq_or_isPart h with hlabel | ⟨hc, hd⟩
  · simp only [Node.isPart, Node.isNamed, Node.is, hlabel]
  · rw [hc, hd]

theorem isNamed_eq (h : Placed R parent c d) : c.isNamed = d.isNamed := by
  rcases hR.label_eq_or_isPart h with hlabel | ⟨hc, hd⟩
  · simp only [Node.isNamed, hlabel]
  · rw [(of_isPart hc).1, (of_isPart hd).1]

theorem isComment_eq (h : Placed R parent c d) : c.is .comment = d.is .comment := by
  rcases hR.label_eq_or_isPart h with hlabel | ⟨hc, hd⟩
  · simp only [Node.is, hlabel]
  · rw [(of_isPart hc).2.1, (of_isPart hd).2.1]

theorem isToken_eq (h : Placed R parent c d) (text : String) : c.isToken text = d.isToken text := by
  rcases hR.label_eq_or_isPart h with hlabel | ⟨hc, hd⟩
  · simp only [Node.isToken, hlabel]
  · rw [(of_isPart hc).2.2, (of_isPart hd).2.2]

/-! ### Children -/

/-- What children are turned into is related one by one, if bare comments come to nothing. -/
theorem filterMap_children {α : Type} {S : α → α → Prop} {f : Node → Option α} (h : R m n)
    (hbare : ∀ c, IsBareComment c → f c = none) (hf : ∀ c d, Placed R m c d → Option.Rel S (f c) (f d)) :
    List.Forall₂ S (m.children.filterMap f) (n.children.filterMap f) := by
  obtain ⟨cs, ds, hcs, hds, hplaced⟩ := hR.children h
  rw [hcs.filterMap_eq hbare, hds.filterMap_eq hbare]
  exact List.rel_filterMap (R := Placed R m) hf hplaced

theorem filter_children {test : Node → Bool} (h : R m n) (hbare : ∀ c, IsBareComment c → test c = false)
    (htest : ∀ c d, Placed R m c d → test c = test d) :
    List.Forall₂ (Placed R m) (m.children.filter test) (n.children.filter test) := by
  obtain ⟨cs, ds, hcs, hds, hplaced⟩ := hR.children h
  rw [hcs.filter_eq hbare, hds.filter_eq hbare]
  exact forall₂_filter hplaced htest

theorem filterMap_namedChildren {α : Type} {S : α → α → Prop} {f : Node → Option α} (h : R m n)
    (hbare : ∀ c, IsBareComment c → f c = none) (hf : ∀ c d, Placed R m c d → Option.Rel S (f c) (f d)) :
    List.Forall₂ S (m.namedChildren.filterMap f) (n.namedChildren.filterMap f) := by
  rw [Node.namedChildren, Node.namedChildren, List.filterMap_filter, List.filterMap_filter]
  refine hR.filterMap_children h (fun c hc => by rw [hbare c hc, ite_self]) fun c d hcd => ?_
  rw [hR.isNamed_eq hcd]
  split
  · exact hf c d hcd
  · exact .none

theorem parts (h : R m n) : List.Forall₂ (Placed R m) m.parts n.parts :=
  hR.filter_children h (fun c hc => by rw [Node.isPart, hc.kind, Bool.not_true, Bool.and_false])
    fun _ _ => hR.isPart_eq

theorem any_isToken_eq (h : R m n) (text : String) :
    m.children.any (·.isToken text) = n.children.any (·.isToken text) := by
  obtain ⟨cs, ds, hcs, hds, hplaced⟩ := hR.children h
  have hbare : ∀ c, IsBareComment c → c.isToken text = false := fun c hc => by
    have hlabel : c.label = .named .comment := of_decide_eq_true hc.kind
    simp [Node.isToken, hlabel]
  rw [hcs.any_eq hbare, hds.any_eq hbare]
  exact forall₂_any_eq hplaced fun _ _ hcd => hR.isToken_eq hcd text

theorem child?_placed (h : R m n) (role : Role) :
    Option.Rel (Placed R m) (m.child? role) (n.child? role) := by
  rw [Node.child?, Node.child?, ← List.head?_filter, ← List.head?_filter]
  refine rel_head? (hR.filter_children h (fun c hc => ?_) fun _ _ hcd => by rw [hcd.role_eq])
  simp [hc.role]

theorem child? (h : R m n) (role : Role) (hrole : role.mayVary = false) :
    Option.Rel R (m.child? role) (n.child? role) := by
  refine rel_imp (hR.child?_placed h role) fun c hc _ _ hcd => hcd.related_of_role ?_
  have hrole' : c.role = some role := by simpa using List.find?_some hc
  rw [hrole']
  exact of_role m hrole

/-! ### Wrappers -/

theorem wrapped? (h : R m n) : Option.Rel (Placed R m) (Source.wrapped? m) (Source.wrapped? n) := by
  have hparts := hR.parts h
  rw [Source.wrapped?, Source.wrapped?, hR.label h]
  split
  · split
    · exact rel_head? hparts
    · split
      · exact rel_getLast? hparts
      · exact .none
  · exact .none

theorem unwrap {m n : Node} (h : R m n) : R m.unwrap n.unwrap := by
  have hwrapped := hR.wrapped? h
  cases hm : Source.wrapped? m with
  | none =>
    rw [hm] at hwrapped
    have hbare : ∀ inner, ¬Wraps m inner := fun inner hwraps => by simp [wraps_iff, hm] at hwraps
    have hbare' : ∀ inner, ¬Wraps n inner := fun inner hwraps => by
      rw [wraps_iff.mp hwraps] at hwrapped
      cases hwrapped
    rwa [unwrap_of_not_wraps hbare, unwrap_of_not_wraps hbare']
  | some inner =>
    obtain ⟨inner', hn, hinner⟩ := exists_of_rel_some (hm ▸ hwrapped)
    have hwraps := wraps_iff.mpr hm
    have hsize := sizeOf_child hwraps.mem_children
    rw [hwraps.unwrap_eq, (wraps_iff.mpr hn).unwrap_eq]
    cases hinner with
    | same _ hR' => exact unwrap hR'
    | behind _ _ hc hd hR' =>
      have := hc.sizeOf_le
      rw [hc.unwrap_eq, hd.unwrap_eq]
      exact unwrap hR'
    | key hkey =>
      rw [namesMember_of_not_pair (not_pair_of_wraps hwraps)] at hkey
      cases hkey
termination_by sizeOf m

/-- Children that are placed alike and name no member are alike behind their wrappers. -/
theorem placed_unwrap (h : Placed R parent c d) (hrole : parent.namesMember c.role = false) :
    R c.unwrap d.unwrap := by
  cases h with
  | same _ hR' => exact hR.unwrap hR'
  | behind _ _ hc hd hR' =>
    rw [hc.unwrap_eq, hd.unwrap_eq]
    exact hR.unwrap hR'
  | key hkey =>
    rw [hrole] at hkey
    cases hkey

theorem child?_value (h : R m n) (role : Role) (hrole : role ≠ .key) :
    Option.Rel (fun c d => R c.unwrap d.unwrap) (m.child? role) (n.child? role) := by
  refine rel_imp (hR.child?_placed h role) fun c hc _ _ hcd => hR.placed_unwrap hcd ?_
  have hrole' : c.role = some role := by simpa using List.find?_some hc
  simp [Node.namesMember, hrole', hrole]

theorem child?_unwrap (h : R m n) (role : Role) (hrole : role ≠ .key) :
    Option.Rel R ((m.child? role).map Node.unwrap) ((n.child? role).map Node.unwrap) :=
  rel_map (hR.child?_value h role hrole) fun _ _ hcd => hcd

/-! ### Members -/

theorem decodeString_eq (h : R m n) (hkind : m.is .string = true) : decodeString m = decodeString n := by
  obtain ⟨cs, ds, hcs, hds, hplaced⟩ := hR.children h
  have hbare : ∀ c, IsBareComment c → pieceUnits c = [] := fun c hc => by
    have hlabel : c.label = .named .comment := of_decide_eq_true hc.kind
    simp [pieceUnits, Node.is, hlabel]
  rw [decodeString, decodeString, hcs.flatMap_eq hbare, hds.flatMap_eq hbare]
  refine congrArg _ (congrArg _ (forall₂_flatMap_eq hplaced fun c d hcd => ?_))
  have hR' := hcd.related (holdsValue_of_is hkind rfl)
  rw [pieceUnits, pieceUnits, hR.is_eq hR', hR.is_eq hR', hR.text hR']

theorem propertyKey_eq (h : R m n) : propertyKey m = propertyKey n := by
  by_cases hkind : m.is .string = true
  · have hlabel : m.label = .named .string := of_decide_eq_true hkind
    have hlabel' : n.label = .named .string := hR.label h ▸ hlabel
    rw [propertyKey, propertyKey, hlabel, hlabel', hR.decodeString_eq h hkind]
  · have hlabel : m.label ≠ .named .string := fun hlabel => hkind (decide_eq_true hlabel)
    have hlabel' : n.label ≠ .named .string := hR.label h ▸ hlabel
    unfold propertyKey
    rw [hR.text h, hR.label h]
    split <;> first | rfl | exact absurd ‹_› hlabel'

/-- Keys that are placed alike have one name. -/
theorem placed_propertyKey (h : Placed R parent c d) (hpair : parent.is .pair = true)
    (hrole : c.role = some .key) :
    propertyKey c = propertyKey d := by
  have hlabel : parent.label = .named .pair := of_decide_eq_true hpair
  cases h with
  | same _ hR' => exact hR.propertyKey_eq hR'
  | behind hvalue => simp [Node.holdsValue, hlabel, hrole] at hvalue
  | key _ _ _ _ hkey => exact hkey

theorem child?_key (h : R m n) (hpair : m.is .pair = true) :
    Option.Rel (fun c d => propertyKey c = propertyKey d) (m.child? .key) (n.child? .key) := by
  refine rel_imp (hR.child?_placed h .key) fun c hc _ _ hcd => ?_
  exact hR.placed_propertyKey hcd hpair (by simpa using List.find?_some hc)

/-- Members of object literals, with one key and values that are alike behind their wrappers. -/
structure SameEntry (R : Node → Node → Prop) (e e' : Entry) : Prop where
  key : e.key = e'.key
  value : R e.value.unwrap e'.value.unwrap

theorem entryOf? (h : R m n) :
    Option.Rel (SameEntry R) (Literal.entryOf? m) (Literal.entryOf? n) := by
  have hname := hR.child? h .name rfl
  have hvalue := hR.child?_value h .value (by decide)
  have hlabel := hR.label h
  rw [Literal.entryOf?, Literal.entryOf?, ← hlabel]
  split
  · have hkey := hR.child?_key h (decide_eq_true ‹_›)
    generalize m.child? .key = key, n.child? .key = key', m.child? .value = value,
      n.child? .value = value' at hkey hvalue
    cases hkey with
    | none => exact .none
    | some hkey =>
      cases hvalue with
      | none => exact .none
      | some hvalue => exact .some ⟨hkey, hvalue⟩
  · exact .some ⟨by rw [hR.text h], hR.unwrap h⟩
  · have hkeys := map_eq_of_rel hname fun _ _ => hR.propertyKey_eq
    exact .some ⟨by rw [hkeys], hR.unwrap h⟩
  · exact .some ⟨rfl, hR.unwrap h⟩
  · exact .none

theorem entries (h : R m n) (hkind : m.is .object = true) :
    List.Forall₂ (SameEntry R) (Literal.entries m) (Literal.entries n) := by
  refine hR.filterMap_namedChildren h (fun c hc => ?_) fun c d hcd => ?_
  · have hlabel : c.label = .named .comment := of_decide_eq_true hc.kind
    simp [Literal.entryOf?, hlabel]
  · exact hR.entryOf? (hcd.related (holdsValue_of_is hkind rfl))

/-! ### Values -/

theorem signedNumber_eq (h : R m n) : signedNumber m = signedNumber n := by
  have hsign := map_eq_of_rel (hR.child? h .operator rfl) fun _ _ => hR.text
  have hargument := hR.child?_unwrap h .argument (by decide)
  rw [signedNumber, signedNumber, hsign]
  generalize (m.child? .argument).map Node.unwrap = argument,
    (n.child? .argument).map Node.unwrap = argument' at hargument
  cases hargument with
  | none => rfl
  | some hargument => simp only [hR.is_eq hargument, hR.text hargument]

theorem hasHole_eq (h : R m n) : hasHole m = hasHole n := by
  obtain ⟨cs, ds, hcs, hds, hplaced⟩ := hR.children h
  have hrow : ∀ due, holeAfter due cs = holeAfter due ds := by
    clear hcs hds
    induction hplaced with
    | nil => exact fun _ => rfl
    | cons hcd _ ih =>
      intro due
      simp only [holeAfter, hR.isToken_eq hcd, hR.isComment_eq hcd, ih]
  rw [hasHole, hasHole, hcs.holeAfter_eq, hds.holeAfter_eq, hrow]

/-- Expressions that are alike have the same value. -/
theorem evaluate_eq {m n : Node} (h : R m n) : evaluate m = evaluate n := by
  by_cases hpair : m.is .pair = true
  · rw [evaluate_pair hpair, evaluate_pair (hR.is_eq h _ ▸ hpair)]
  have hmember := namesMember_of_not_pair (Bool.eq_false_iff.mpr hpair)
  have hparts : List.Forall₂ (fun c d => evaluate c = evaluate d) m.parts n.parts := by
    refine forall₂_imp_of_mem (hR.parts h) fun c hc d _ hcd => ?_
    have := sizeOf_child (List.mem_of_mem_filter hc)
    have := sizeOf_unwrap_le c
    rw [← evaluate_unwrap c, ← evaluate_unwrap d]
    exact evaluate_eq (hR.placed_unwrap hcd (hmember c.role))
  by_cases hobject : m.is .object = true
  · have hentries : (Literal.entries m).map (fun e => (e.key, evaluate e.value)) =
        (Literal.entries n).map fun e => (e.key, evaluate e.value) := by
      refine forall₂_map_eq (R := fun e e' => e.key = e'.key ∧ evaluate e.value = evaluate e'.value)
        (forall₂_imp_of_mem (hR.entries h hobject) fun e he e' _ hee' => ⟨hee'.key, ?_⟩)
        fun e e' hee' => Prod.ext hee'.1 hee'.2
      have := sizeOf_entries he
      have := sizeOf_unwrap_le e.value
      rw [← evaluate_unwrap e.value, ← evaluate_unwrap e'.value]
      exact evaluate_eq hee'.value
    rw [evaluate_object hobject, evaluate_object (hR.is_eq h _ ▸ hobject)]
    exact congrArg _ hentries
  have hstring : m.is .string = true → decodeString m = decodeString n := hR.decodeString_eq h
  have hsigned := hR.signedNumber_eq h
  have hhole := hR.hasHole_eq h
  have hfirst := map_eq_of_rel (rel_head? hparts) fun c d hcd => hcd
  have hlast := map_eq_of_rel (rel_getLast? hparts) fun c d hcd => hcd
  have hitems := forall₂_map_eq hparts fun c d hcd => hcd
  obtain ⟨label, role, start, stop, text, children⟩ := m
  obtain ⟨label', role', start', stop', text', children'⟩ := n
  obtain rfl : label = label' := hR.label h
  obtain rfl : text = text' := hR.text h
  simp only [Node.parts] at hfirst hlast hitems
  cases label with
  | named kind =>
    simp only [evaluate, evaluateFirst_eq, evaluateLast_eq, evaluateItems_eq, hfirst, hlast, hitems, hsigned,
      hhole]
    split
    · rfl
    split
    · rfl
    -- What is left is the table of kinds; an object was dealt with above.
    split
    · rw [hstring rfl]
    all_goals first | rfl | exact absurd rfl hobject
  | token => rfl
  | error => rfl
  | missing => rfl
termination_by sizeOf m

end Likeness

end StoryManifest.Source
