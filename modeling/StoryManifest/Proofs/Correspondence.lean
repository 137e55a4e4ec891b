import StoryManifest.Proofs.Literal.Likeness
import StoryManifest.Proofs.TextOrder

/-!
Programs that correspond to each other, statement by statement. Alike statements offer alike values to the
rules, offers of alike values come to the same declarations, and what these give as parts of metadata is
read the same; so it comes to the same properties. Comments among the statements offer nothing.
-/

namespace StoryManifest.Story

open Source (Node Program InOrder Likeness Placed IsBareComment holdsValue_of_is)
open Source.Likeness (SameEntry)
open Literal (Entry)

/-! ### Alike statements -/

/-- Variables of the same name with related initial values. -/
structure SameVariable (R : Node → Node → Prop) (e e' : String × Node) : Prop where
  name : e.1 = e'.1
  node : R e.2 e'.2

/-- Assignments to the same part of metadata, of related values. -/
structure SameAssignment (R : Node → Node → Prop) (a b : Assignment) : Prop where
  target : a.target = b.target
  part : a.part = b.part
  value : R a.value b.value

/-- Offers of related nodes to the same rules. -/
inductive Offer.Same (R : Node → Node → Prop) : Offer → Offer → Prop
  | value {m n : Node} : R m n → Same R (.value m) (.value n)
  | binding {exported : Bool} {name : String} {m n : Node} : R m n →
      Same R (.binding exported name m) (.binding exported name n)
  | assignment {a b : Assignment} : SameAssignment R a b → Same R (.assignment a) (.assignment b)

/-- Declarations that are found by the same rule under the same name, of related nodes. -/
structure Declaration.Same (R : Node → Node → Prop) (d e : Declaration) : Prop where
  provenance : d.provenance = e.provenance
  name : d.name = e.name
  part : d.part = e.part
  node : R d.node e.node

/-- The assignment to a part of metadata that an expression is. -/
def assigned? (expression : Node) : Option Assignment :=
  if expression.is .assignmentExpression then
    (expression.child? .left).bind fun left => (expression.child? .right).bind fun right =>
      if left.is .memberExpression then
        (left.child? .object).bind fun object => (left.child? .property).bind fun property =>
          if object.is .identifier then
            (Part.ofKey? property.text).map fun part => ⟨object.text, part, right.unwrap⟩
          else none
      else none
  else none

/-- Only an expression is looked at; a comment in its place is no assignment. -/
theorem assignmentOf?_eq (s : Node) :
    assignmentOf? s = (s.namedChildren.head?.filter Node.isPart).bind assigned? := by
  rw [assignmentOf?]
  cases hhead : s.namedChildren.head? with
  | none => rfl
  | some e =>
    have hnamed : e.isNamed = true := (List.mem_filter.mp (List.mem_of_head? hhead)).2
    cases hcomment : e.is .comment with
    | true =>
      have hassignment : e.is .assignmentExpression = false := kind_unique hcomment (by decide)
      simp [Option.filter_some, Node.isPart, hcomment, hassignment]
    | false =>
      simp only [Node.isPart, hnamed, hcomment, Option.filter_some, Bool.not_false, Bool.and_self, if_true,
        Option.bind_some, assigned?]
      split
      · cases e.child? .left with
        | none => rfl
        | some left =>
          cases e.child? .right with
          | none => rfl
          | some right =>
            simp only [Option.bind_some]
            split
            · cases left.child? .object with
              | none => rfl
              | some object =>
                cases left.child? .property with
                | none => rfl
                | some property => rfl
            · rfl
      · rfl

section

variable {R : Node → Node → Prop} (hR : Likeness R) {m n : Node}

include hR

theorem isVariables_eq (h : R m n) : isVariables m = isVariables n := by
  rw [isVariables, isVariables, hR.is_eq h, hR.is_eq h]

theorem sameVariable_bindingOf? (h : R m n) : Option.Rel (SameVariable R) (bindingOf? m) (bindingOf? n) := by
  have hname := hR.child? h .name rfl
  have hvalue := hR.child?_value h .value (by decide)
  rw [bindingOf?, bindingOf?, hR.is_eq h]
  generalize m.child? .name = name, n.child? .name = name', m.child? .value = value,
    n.child? .value = value' at hname hvalue
  split
  · cases hname with
    | none => exact .none
    | some hname =>
      cases hvalue with
      | none => exact .none
      | some hvalue =>
        simp only [hR.is_eq hname]
        split
        · exact .some ⟨hR.text hname, hvalue⟩
        · exact .none
  · exact .none

theorem sameVariable_bindingsOf (h : R m n) (hkind : isVariables m = true) :
    List.Forall₂ (SameVariable R) (bindingsOf m) (bindingsOf n) := by
  have hvalue : ∀ role, m.holdsValue role = false := by
    rcases Bool.or_eq_true_iff.mp hkind with hkind | hkind <;> exact fun role =>
      holdsValue_of_is hkind rfl role
  refine hR.filterMap_namedChildren h (fun c hc => ?_) fun c d hcd => ?_
  · rw [bindingOf?, kind_unique hc.kind (by decide)]
    rfl
  · exact sameVariable_bindingOf? hR (hcd.related hvalue)

theorem sameAssignment_assigned? (h : R m n) :
    Option.Rel (SameAssignment R) (assigned? m) (assigned? n) := by
  rw [assigned?, assigned?, hR.is_eq h]
  split
  · refine rel_bind (hR.child? h .left rfl) fun left left' hleft => ?_
    refine rel_bind (hR.child?_value h .right (by decide)) fun right right' hright => ?_
    rw [hR.is_eq hleft]
    split
    · refine rel_bind (hR.child? hleft .object rfl) fun object object' hobject => ?_
      refine rel_bind (hR.child? hleft .property rfl) fun property property' hproperty => ?_
      rw [hR.is_eq hobject, hR.text hobject, hR.text hproperty]
      split
      · exact rel_map (rel_eq_iff.mpr rfl) fun part part' hpart => ⟨rfl, hpart, hright⟩
      · exact .none
    · exact .none
  · exact .none

theorem assignmentIn?_same (h : R m n) :
    Option.Rel (SameAssignment R) (assignmentIn? m) (assignmentIn? n) := by
  rw [assignmentIn?, assignmentIn?, hR.is_eq h]
  split
  · rename_i hkind
    rw [assignmentOf?_eq, assignmentOf?_eq]
    exact rel_bind (hR.expression h (hR.is_eq h _ ▸ hkind)) fun _ _ => sameAssignment_assigned? hR
  · exact .none

theorem defaultAlias?_eq (h : R m n) : defaultAlias? m = defaultAlias? n := by
  have hrenamed := hR.child? h .alias rfl
  have hname := map_eq_of_rel (hR.child? h .name rfl) fun _ _ => hR.text
  rw [defaultAlias?, defaultAlias?, hname]
  generalize m.child? .alias = renamed, n.child? .alias = renamed' at hrenamed
  cases hrenamed with
  | none => rfl
  | some hrenamed => simp only [hR.text hrenamed]

theorem isDefaultExport_eq (h : R m n) : isDefaultExport m = isDefaultExport n :=
  hR.any_isToken_eq h "default"

/-- The names in an export clause. -/
theorem clauseNames_eq (h : R m n) (hkind : m.is .exportClause = true) :
    m.namedChildren.filterMap defaultAlias? = n.namedChildren.filterMap defaultAlias? := by
  rw [← List.forall₂_eq_eq_eq]
  refine hR.filterMap_namedChildren h (fun c hc => ?_) fun c d hcd => rel_eq_iff.mpr ?_
  · simp [defaultAlias?, Node.child?, hc.children]
  · exact defaultAlias?_eq hR (hcd.related (holdsValue_of_is hkind rfl))

theorem defaultAliases_eq (h : R m n) (hkind : m.is .exportStatement = true)
    (hdefault : isDefaultExport m = false) : defaultAliases m = defaultAliases n := by
  have hvalue := Source.holdsValue_of_named hkind hdefault
  have hclauses : List.Forall₂ R (m.namedChildren.filter (·.is .exportClause))
      (n.namedChildren.filter (·.is .exportClause)) := by
    rw [Node.namedChildren, Node.namedChildren, List.filter_filter, List.filter_filter]
    refine (hR.filter_children h (fun c hc => ?_) fun c d hcd => ?_).imp fun c d hcd => hcd.related hvalue
    · rw [kind_unique hc.kind (by decide), Bool.false_and]
    · rw [hR.is_eq (hcd.related hvalue), hR.isNamed_eq hcd]
  rw [defaultAliases, defaultAliases, List.filterMap_flatMap, List.filterMap_flatMap]
  refine forall₂_flatMap_eq (forall₂_imp_of_mem hclauses fun c hc d _ hcd => ?_) fun _ _ hcd => hcd
  exact clauseNames_eq hR hcd (List.mem_filter.mp hc).2

theorem exportedValue?_same (h : R m n) : Option.Rel R (exportedValue? m) (exportedValue? n) := by
  rw [exportedValue?, exportedValue?, hR.is_eq h, isDefaultExport_eq hR h]
  split
  · exact hR.child?_unwrap h .value (by decide)
  · exact .none

theorem exportedVariables_same (h : R m n) :
    List.Forall₂ (SameVariable R) (exportedVariables m) (exportedVariables n) := by
  rw [exportedVariables, exportedVariables, hR.is_eq h, isDefaultExport_eq hR h]
  split
  · have hdeclaration := forall₂_filter (forall₂_toList (hR.child? h .declaration rfl))
      fun _ _ => isVariables_eq hR
    refine List.rel_flatMap (R := fun c d => R c d ∧ isVariables c = true)
      (forall₂_imp_of_mem hdeclaration fun c hc d _ hcd => ⟨hcd, (List.mem_filter.mp hc).2⟩) ?_
    exact fun c d hcd => sameVariable_bindingsOf hR hcd.1 hcd.2
  · exact .nil

theorem initializersOf_same (h : R m n) :
    List.Forall₂ (SameVariable R) (initializersOf m) (initializersOf n) := by
  rw [initializersOf, initializersOf, ← isVariables_eq hR h]
  split
  · exact sameVariable_bindingsOf hR h ‹_›
  · exact exportedVariables_same hR h

theorem defaultNamesOf_eq (h : R m n) : defaultNamesOf m = defaultNamesOf n := by
  have hnames := map_eq_of_rel (rel_filter (exportedValue?_same hR h) fun _ _ h => hR.is_eq h .identifier)
    fun _ _ => hR.text
  have hdeclaration := isSome_eq_of_rel (hR.child? h .declaration rfl)
  rw [defaultNamesOf, defaultNamesOf, ← hR.is_eq h, ← isDefaultExport_eq hR h, hnames, ← Option.not_isSome,
    ← Option.not_isSome, hdeclaration]
  split
  · split
    · rfl
    · rw [defaultAliases_eq hR h ‹_› (Bool.not_eq_true _ ▸ ‹¬isDefaultExport m = true›)]
  · rfl

theorem hasPart_eq (h : R m n) (hkind : m.is .object = true) : hasPart m = hasPart n := by
  rw [hasPart, hasPart]
  exact forall₂_any_eq (hR.entries h hkind) fun e e' he => by rw [he.key]

/-- Alike statements offer the same. -/
theorem offersOf_same (h : R m n) : List.Forall₂ (Offer.Same R) (offersOf m) (offersOf n) := by
  rw [offersOf, offersOf, isVariables_eq hR h]
  refine List.rel_append (List.rel_append ?_ ?_) ?_
  · exact List.rel_map (fun _ _ => .value) (forall₂_toList (exportedValue?_same hR h))
  · refine List.rel_map (R := SameVariable R) ?_ (initializersOf_same hR h)
    rintro ⟨name, m⟩ ⟨_, n⟩ ⟨rfl, hmn⟩
    exact .binding hmn
  · exact List.rel_map (fun _ _ => .assignment) (forall₂_toList (assignmentIn?_same hR h))

end

/-! ### What offers come to -/

namespace Offer

variable {R : Node → Node → Prop} (hR : Likeness R) {o o' : Offer} {os os' later later' : List Offer}
  {defaultName : Option String} {bound bound' : List String}

theorem Same.binds_eq (h : o.Same R o') (name : String) : o.binds name = o'.binds name := by
  cases h <;> rfl

include hR

theorem Same.isSome_value?_eq (h : o.Same R o') : o.value?.isSome = o'.value?.isSome := by
  cases h with
  | @value m n h =>
    rw [value?, value?, hR.is_eq h]
    split <;> rfl
  | binding | assignment => rfl

theorem exportedVariable?_same {m n : Node} (h : R m n) (exported : Bool) (name : String) :
    Option.Rel (Declaration.Same R) (exportedVariable? exported name m)
      (exportedVariable? exported name n) := by
  cases hobject : m.is .object with
  | false =>
    have hobject' : n.is .object = false := hR.is_eq h .object ▸ hobject
    rw [exportedVariable?, exportedVariable?, hobject, hobject', Bool.and_false]
    exact .none
  | true =>
    rw [exportedVariable?, exportedVariable?, hR.is_eq h, hasPart_eq hR h hobject]
    split
    · exact .some ⟨rfl, rfl, rfl, h⟩
    · exact .none

/-- The same offers come to the same declarations. -/
theorem Same.declaration? (h : o.Same R o') (hlater : List.Forall₂ (Same R) later later')
    (hbound : ∀ name, name ∈ bound ↔ name ∈ bound') :
    Option.Rel (Declaration.Same R) (o.declaration? defaultName bound later)
      (o'.declaration? defaultName bound' later') := by
  have hvalues := forall₂_any_eq hlater fun _ _ => Same.isSome_value?_eq hR
  have hbinds := fun name => forall₂_any_eq hlater fun _ _ h => Same.binds_eq h name
  cases h with
  | value h =>
    rw [Offer.declaration?, Offer.declaration?, hvalues, hR.is_eq h]
    split
    · exact .none
    · exact .some ⟨rfl, rfl, rfl, h⟩
  | @binding exported name m n h =>
    rw [Offer.declaration?, Offer.declaration?, hbinds, lastVariable?, lastVariable?]
    refine rel_or ?_ (exportedVariable?_same hR h exported name)
    split
    · exact .none
    · split
      · exact .some ⟨rfl, rfl, rfl, h⟩
      · split
        · exact .some ⟨rfl, rfl, rfl, h⟩
        · exact .none
  | assignment h =>
    rw [Offer.declaration?, Offer.declaration?, h.target]
    simp only [hbound]
    split
    · exact .some ⟨rfl, rfl, congrArg some h.part, h.value⟩
    · exact .none

theorem declarations_same (h : List.Forall₂ (Same R) os os')
    (hbound : ∀ name, name ∈ bound ↔ name ∈ bound') :
    List.Forall₂ (Declaration.Same R) (declarations defaultName bound os)
      (declarations defaultName bound' os') := by
  induction h with
  | nil => exact .nil
  | cons h hrest ih => exact List.rel_append (forall₂_toList (h.declaration? hR hrest hbound)) ih

end Offer

/-! ### Lists of statements -/

/-- The declarations that statements come to. -/
def offeredIn (ss : List Node) : List Declaration :=
  Offer.declarations (ss.flatMap defaultNamesOf).getLast? ((ss.flatMap initializersOf).map Prod.fst)
    (ss.flatMap offersOf)

theorem offered_eq (root : Node) : offered root = offeredIn root.namedChildren := rfl

/-- Alike statements give the same variables a value. -/
theorem initialized_eq {R : Node → Node → Prop} (hR : Likeness R) {ss ts : List Node}
    (h : List.Forall₂ R ss ts) :
    (ss.flatMap initializersOf).map Prod.fst = (ts.flatMap initializersOf).map Prod.fst := by
  rw [List.map_flatMap, List.map_flatMap]
  exact forall₂_flatMap_eq h fun _ _ h => forall₂_map_eq (initializersOf_same hR h) fun _ _ h => h.name

/-- Alike statements come to the same declarations. -/
theorem offeredIn_same {R : Node → Node → Prop} (hR : Likeness R) {ss ts : List Node}
    (h : List.Forall₂ R ss ts) : List.Forall₂ (Declaration.Same R) (offeredIn ss) (offeredIn ts) := by
  rw [offeredIn, offeredIn, forall₂_flatMap_eq h fun _ _ => defaultNamesOf_eq hR, initialized_eq hR h]
  exact Offer.declarations_same hR (List.rel_flatMap h fun _ _ => offersOf_same hR) fun _ => Iff.rfl

/-- A statement that no rule looks at: it declares no variables and is neither an export nor an
expression. -/
def IsSilent (label : Source.Label) : Prop := label ∉ ([.named .lexicalDeclaration,
  .named .variableDeclaration, .named .exportStatement, .named .expressionStatement] : List Source.Label)

instance (label : Source.Label) : Decidable (IsSilent label) := inferInstanceAs (Decidable (_ ∉ _))

/-- What a statement that no rule looks at holds inside does not count. -/
theorem nil_of_isSilent {s : Node} (h : IsSilent s.label) :
    defaultNamesOf s = [] ∧ initializersOf s = [] ∧ offersOf s = [] := by
  have hkinds : s.is .lexicalDeclaration = false ∧ s.is .variableDeclaration = false ∧
      s.is .exportStatement = false ∧ s.is .expressionStatement = false := by
    simpa [IsSilent, Node.is] using h
  obtain ⟨hlexical, hvariable, hexport, hexpression⟩ := hkinds
  have hvariables : isVariables s = false := by rw [isVariables, hlexical, hvariable]; rfl
  have hinitializers : initializersOf s = [] := by
    simp [initializersOf, exportedVariables, hvariables, hexport]
  refine ⟨by simp [defaultNamesOf, hexport], hinitializers, ?_⟩
  simp [offersOf, hinitializers, exportedValue?, assignmentIn?, hexport, hexpression]

/-- Nodes that come to nothing may be left out. -/
theorem flatMap_filter_of_nil {α : Type} {f : Node → List α} {test : Node → Bool}
    (hf : ∀ s, test s = false → f s = []) (ss : List Node) : (ss.filter test).flatMap f = ss.flatMap f := by
  induction ss with
  | nil => rfl
  | cons s ss ih => cases hs : test s <;> simp [hs, hf, ih]

/-- Comments among the statements offer nothing. -/
theorem offeredIn_parts (n : Node) : offeredIn n.namedChildren = offeredIn n.parts := by
  have hcomment : ∀ s : Node, (!s.is .comment) = false → IsSilent s.label := fun s hs => by
    have hlabel : s.label = .named .comment := by simpa [Node.is] using hs
    rw [hlabel]
    decide
  rw [Source.parts_eq, offeredIn, offeredIn, flatMap_filter_of_nil fun s hs =>
    (nil_of_isSilent (hcomment s hs)).1,
    flatMap_filter_of_nil fun s hs => (nil_of_isSilent (hcomment s hs)).2.1,
    flatMap_filter_of_nil fun s hs => (nil_of_isSilent (hcomment s hs)).2.2]

/-- Alike roots come to the same declarations. -/
theorem offered_same {R : Node → Node → Prop} (hR : Likeness R) {m n : Node} (h : R m n)
    (hvalue : ∀ role, m.holdsValue role = false) :
    List.Forall₂ (Declaration.Same R) (offered m) (offered n) := by
  rw [offered_eq, offered_eq, offeredIn_parts, offeredIn_parts]
  exact offeredIn_same hR ((hR.parts h).imp fun c d hcd => hcd.related hvalue)

/-! ### The parts of metadata -/

/-- The part of metadata that a member is for. -/
def partOf? (e : Entry) : Option Part := e.key.name?.bind Part.ofKey?

/-- The members that are the last ones for their part, in order. -/
def lastMembers : List Entry → List (Part × Entry)
  | [] => []
  | e :: later =>
    ((partOf? e).filter fun part => !later.any (partOf? · = some part)).toList.map (·, e) ++
      lastMembers later

theorem mem_lastMembers {part : Part} {e : Entry} : ∀ {es : List Entry}, (part, e) ∈ lastMembers es ↔
    (es.filter (partOf? · = some part)).getLast? = some e
  | [] => by simp [lastMembers]
  | e' :: later => by
    rw [lastMembers, List.mem_append, mem_lastMembers]
    by_cases hpart : partOf? e' = some part
    · rw [List.filter_cons_of_pos (by simpa using hpart), hpart]
      cases hlater : later.filter (partOf? · = some part) with
      | nil =>
        have hany : later.any (partOf? · = some part) = false :=
          List.any_eq_false.mpr (List.filter_eq_nil_iff.mp hlater)
        simpa [Option.filter_some, hany] using eq_comm
      | cons f fs =>
        have hany : later.any (partOf? · = some part) = true := by
          have hf : f ∈ later.filter (partOf? · = some part) := by simp [hlater]
          exact List.any_eq_true.mpr ⟨f, List.mem_filter.mp hf⟩
        rw [Option.filter_some, hany]
        simp
    · have hnotMem : (part, e) ∉ ((partOf? e').filter fun part =>
          !later.any (partOf? · = some part)).toList.map (·, e') := by
        intro hmem
        obtain ⟨part', hpart', heq⟩ := List.mem_map.mp hmem
        obtain ⟨rfl, -⟩ := Prod.mk.inj heq
        exact hpart (Option.filter_eq_some_iff.mp (Option.mem_toList.mp hpart')).1
      rw [List.filter_cons_of_neg (by simpa using hpart), or_iff_right hnotMem]

theorem lastMembers_sublist : ∀ es : List Entry, ((lastMembers es).map Prod.snd).Sublist es
  | [] => .slnil
  | e :: later => by
    have ih := lastMembers_sublist later
    rw [lastMembers, List.map_append, List.map_map]
    cases (partOf? e).filter fun part => !later.any (partOf? · = some part) with
    | none => exact ih.cons e
    | some part => exact ih.cons_cons e

/-- The parts of metadata in an object come in the order of its members. -/
theorem partsOf_eq_lastMembers {n : Node} (h : n.Orderly) :
    partsOf n = (lastMembers (Literal.entries n)).map fun e => (e.1, e.2.value.unwrap) := by
  have hantisymm : Std.Antisymm fun a b : Part × Node => a.2.start.byte < b.2.start.byte :=
    ⟨fun _ _ hab hba => absurd hab (Nat.lt_asymm hba)⟩
  have hirrefl : Std.Irrefl fun a b : Part × Node => a.2.start.byte < b.2.start.byte :=
    ⟨fun _ => Nat.lt_irrefl _⟩
  have hparts : (partsOf n).Pairwise fun a b => a.2.start.byte < b.2.start.byte := by
    simpa only [List.pairwise_map] using (inOrder_partsOf h).pairwise_start
  have hmembers : ((lastMembers (Literal.entries n)).map fun e => (e.1, e.2.value.unwrap)).Pairwise
      fun a b => a.2.start.byte < b.2.start.byte := by
    have horder := (inOrder_entries h).sublist ((lastMembers_sublist (Literal.entries n)).map _)
    simpa only [List.map_map, List.pairwise_map, Function.comp_apply] using horder.pairwise_start
  refine List.Pairwise.eq_of_mem_iff hparts hmembers fun ⟨part, m⟩ => ?_
  rw [(partsOf_perm n).mem_iff, mem_lastParts, List.mem_map]
  constructor
  · rintro ⟨e, he, rfl⟩
    exact ⟨(part, e), mem_lastMembers.mpr he, rfl⟩
  · rintro ⟨⟨part', e⟩, he, heq⟩
    obtain ⟨rfl, rfl⟩ := Prod.mk.inj heq
    exact ⟨e, mem_lastMembers.mp he, rfl⟩

section

variable {R : Node → Node → Prop} (hR : Likeness R) {m n : Node}

theorem lastMembers_same {es es' : List Entry} (h : List.Forall₂ (SameEntry R) es es') :
    List.Forall₂ (fun a b => a.1 = b.1 ∧ SameEntry R a.2 b.2) (lastMembers es) (lastMembers es') := by
  have hpart : ∀ e e', SameEntry R e e' → partOf? e = partOf? e' := fun e e' he => by
    rw [partOf?, partOf?, he.key]
  induction h with
  | nil => exact .nil
  | @cons e e' later later' he hlater ih =>
    have hany : ∀ part, later.any (partOf? · = some part) = later'.any (partOf? · = some part) :=
      fun part => forall₂_any_eq hlater fun e e' he => by rw [hpart e e' he]
    rw [lastMembers, lastMembers, hpart e e' he]
    simp only [hany]
    refine List.rel_append (List.rel_map (R := Eq) ?_ (List.forall₂_eq_eq_eq ▸ rfl)) ih
    rintro part _ rfl
    exact ⟨rfl, he⟩

include hR

theorem partsOf_same (h : R m n) (hkind : m.is .object = true) (hm : m.Orderly) (hn : n.Orderly) :
    List.Forall₂ (fun a b => a.1 = b.1 ∧ R a.2 b.2) (partsOf m) (partsOf n) := by
  rw [partsOf_eq_lastMembers hm, partsOf_eq_lastMembers hn]
  exact List.rel_map (R := fun a b => a.1 = b.1 ∧ SameEntry R a.2 b.2)
    (fun _ _ h => ⟨h.1, h.2.value⟩) (lastMembers_same (hR.entries h hkind))

end

/-! ### What is read of the parts -/

/-- What a candidate holds, wherever in the text it stands. -/
def Candidate.content (c : Candidate) : Part × Provenance × String × List (String × Value) :=
  (c.part, c.provenance, c.declaration, c.entries.map fun e => (e.name, e.value))

section

variable {R : Node → Node → Prop} (hR : Likeness R) {p q : Program} {d e : Declaration}

include hR

theorem content_candidateOf {m n : Node} (h : R m n) (hprovenance : d.provenance = e.provenance)
    (label : String)
    (part : Part) : (candidateOf p d label part m).1.map Candidate.content =
      (candidateOf q e label part n).1.map Candidate.content := by
  rw [candidateOf, candidateOf, ← hR.is_eq h]
  split
  · have hentries : ((Literal.entries m).filterMap candidateEntryOf?).map (fun e => (e.name, e.value)) =
        ((Literal.entries n).filterMap candidateEntryOf?).map fun e => (e.name, e.value) := by
      rw [List.map_filterMap, List.map_filterMap, ← List.forall₂_eq_eq_eq]
      refine List.rel_filterMap (R := SameEntry R) (fun e e' he => rel_eq_iff.mpr ?_) (hR.entries h ‹_›)
      rw [candidateEntryOf?, candidateEntryOf?, Option.map_map, Option.map_map, he.key]
      simp only [Function.comp_def, ← Source.evaluate_unwrap e.value, ← Source.evaluate_unwrap e'.value,
        hR.evaluate_eq he.value]
    simp only [List.map_cons, List.map_nil, Candidate.content, hprovenance, hentries]
  · rfl

/-- The same declarations have candidates with the same contents. -/
theorem content_candidatesOf (h : d.Same R e) (hd : d.node.Orderly) (he : e.node.Orderly) :
    (candidatesOf p d).1.map Candidate.content = (candidatesOf q e).1.map Candidate.content := by
  have hlabel : d.label = e.label := by rw [Declaration.label, Declaration.label, h.name, h.part]
  rw [candidatesOf, candidatesOf, h.part, hlabel]
  cases e.part with
  | some part => exact content_candidateOf hR h.node h.provenance _ part
  | none =>
    have hkinds : d.isObject = e.isObject := hR.is_eq h.node .object
    by_cases hkind : d.isObject = true
    · simp only [if_pos hkind, if_pos (hkinds ▸ hkind), List.flatMap_map, List.map_flatMap]
      refine forall₂_flatMap_eq (partsOf_same hR h.node hkind hd he) ?_
      rintro ⟨part, m⟩ ⟨_, n⟩ ⟨rfl, hmn⟩
      exact content_candidateOf hR hmn h.provenance _ part
    · simp only [if_neg hkind, if_neg (hkinds ▸ hkind), List.map_nil]

end

/-- Readings that differ at most in the lines at which they stand. -/
structure SameReading (r s : Reading) : Prop where
  part : r.1 = s.1
  name : r.2.name = s.2.name
  value : r.2.value = s.2.value

/-- Readings that differ in lines only come to the same properties. -/
theorem properties_eq_of_readings {cs cs' : List Candidate}
    (h : List.Forall₂ SameReading (readings cs) (readings cs')) :
    (merge cs).properties = (merge cs').properties := by
  have hnames : namesOf (readings cs) = namesOf (readings cs') := by
    rw [namesOf, namesOf, forall₂_map_eq h fun _ _ h => h.name]
  have hlast : ∀ {α : Type} (give : Part → Value → Option α) (name : String),
      lastOf give (readings cs) name = lastOf give (readings cs') name := by
    intro α give name
    have hsame : List.Forall₂ SameReading ((readings cs).filter (·.2.name = name))
        ((readings cs').filter (·.2.name = name)) := forall₂_filter h fun r s h => by rw [h.name]
    rw [lastOf, lastOf]
    refine congrArg List.getLast? (List.forall₂_eq_eq_eq ▸ (List.rel_filterMap ?_ hsame))
    intro r s h
    show Option.Rel _ (give r.1 r.2.value) (give s.1 s.2.value)
    rw [h.part, h.value]
    exact rel_eq_iff.mpr rfl
  rw [(merge_reads cs).properties, (merge_reads cs').properties, hnames]
  refine List.map_congr_left fun name _ => ?_
  simp only [propertyOf, defaultOf, hlast]

/-- Candidates with the same contents come to the same properties. -/
theorem properties_eq_of_contents {cs cs' : List Candidate}
    (h : cs.map Candidate.content = cs'.map Candidate.content) :
    (merge cs).properties = (merge cs').properties := by
  refine properties_eq_of_readings (List.rel_flatMap (forall₂_of_map_eq h) fun c c' hc => ?_)
  simp only [Candidate.content, Prod.mk.injEq] at hc
  obtain ⟨hpart, -, -, hentries⟩ := hc
  refine List.rel_map (R := fun e e' : CandidateEntry => (e.name, e.value) = (e'.name, e'.value)) ?_
    (forall₂_of_map_eq hentries)
  intro e e' he
  obtain ⟨hname, hvalue⟩ := Prod.mk.inj he
  exact ⟨hpart, hname, hvalue⟩

/-! ### Programs -/

section

variable {R : Node → Node → Prop} (hR : Likeness R) {p q : Program} {a b a' b' : Nat}
  (hp : InOrder a p.root.children b) (hq : InOrder a' q.root.children b')

theorem orderly_of_mem_declarations {root : Node} {a b : Nat} (h : InOrder a root.children b)
    {d : Declaration}
    (hd : d ∈ declarations root) : d.node.Orderly := by
  have horder := inOrder_offered h
  rw [← declarations_eq h] at horder
  exact (horder.mem (List.mem_map_of_mem hd)).2.1

include hR hp hq

/-- Alike programs have the same declarations. -/
theorem declarations_same (h : R p.root q.root) (hvalue : ∀ role, p.root.holdsValue role = false) :
    List.Forall₂ (Declaration.Same R) (declarations p.root) (declarations q.root) := by
  rw [declarations_eq hp, declarations_eq hq]
  exact offered_same hR h hvalue

/-- The same declarations come to the same candidates and properties. -/
theorem extract_same (h : List.Forall₂ (Declaration.Same R) (declarations p.root) (declarations q.root)) :
    (locate p).candidates.map Candidate.content = (locate q).candidates.map Candidate.content ∧
    (extract p).properties = (extract q).properties := by
  have hcontents : (locate p).candidates.map Candidate.content =
      (locate q).candidates.map Candidate.content := by
    rw [candidates_eq hp, candidates_eq hq, List.map_flatMap, List.map_flatMap]
    refine forall₂_flatMap_eq (forall₂_imp_of_mem h fun d hd e he hde => ?_) fun _ _ h => h
    exact content_candidatesOf hR hde (orderly_of_mem_declarations hp hd) (orderly_of_mem_declarations hq he)
  exact ⟨hcontents, properties_eq_of_contents hcontents⟩

end

/-- Accepted programs with alike trees have the same declarations, which come to the same candidates and
properties. -/
theorem accepted_same {R : Node → Node → Prop} (hR : Likeness R) {v w : Source.Variant} {text text' : String}
    {p q : Program} (hp : Program.ofText v text = .ok p) (hq : Program.ofText w text' = .ok q)
    (h : R p.root q.root) :
    List.Forall₂ (Declaration.Same R) (locate p).declarations (locate q).declarations ∧
    (locate p).candidates.map Candidate.content = (locate q).candidates.map Candidate.content ∧
    (extract p).properties = (extract q).properties := by
  obtain ⟨t, hread⟩ := Source.readProgram_of_ofText hp
  have hkind : p.root.is .program = true := decide_eq_true (Source.label_readProgram hread)
  obtain ⟨b, hp⟩ := Source.inOrder_root hp
  obtain ⟨b', hq⟩ := Source.inOrder_root hq
  have hdeclarations := declarations_same hR hp hq h fun role => holdsValue_of_is hkind rfl role
  exact ⟨hdeclarations, extract_same hR hp hq hdeclarations⟩

end StoryManifest.Story
