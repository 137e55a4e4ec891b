import Mathlib.Data.List.Sort
import StoryManifest.Proofs.Literal.Static
import StoryManifest.Proofs.Locating

/-!
The located declarations, statement by statement. A statement offers values to the rules; what becomes of
an offer depends only on the name that is exported by default, on the names that are bound, and on what
is offered later. So no place in the text is needed to say which declarations are located: they are those
that the offers come to, in the order of the offers.
-/

namespace StoryManifest.Story

open Source (Node Program InOrder)

/-! ### Offers -/

/-- What a statement offers to the rules: a value exported by default, a variable with its initial value,
or an assignment to a part of metadata. -/
inductive Offer where
  | value (node : Node)
  | binding (exported : Bool) (name : String) (node : Node)
  | assignment (assignment : Assignment)

namespace Offer

/-- The node that is offered. -/
def node : Offer → Node
  | .value n => n
  | .binding _ _ n => n
  | .assignment a => a.value

/-- A value exported by default that is not a mere name. -/
def value? : Offer → Option Node
  | .value n => if n.is .identifier then none else some n
  | _ => none

/-- A variable and its initial value. -/
def binding? : Offer → Option (String × Node)
  | .binding _ name n => some (name, n)
  | _ => none

/-- A variable that is exported where it is declared. -/
def exported? : Offer → Option (String × Node)
  | .binding true name n => some (name, n)
  | _ => none

/-- An assignment. -/
def assignment? : Offer → Option Assignment
  | .assignment a => some a
  | _ => none

/-- The offer binds a name. -/
def binds (name : String) (o : Offer) : Bool := o.binding?.any (·.1 = name)

/-- What a variable comes to when no later one has its name: the one exported by default goes before the
one for metadata. -/
def lastVariable? (defaultName : Option String) (name : String) (n : Node) : Option Declaration :=
  if defaultName = some name then some ⟨.defaultExportedVariable, some name, n, none⟩
  else if name = metaName then some ⟨.metaVariable, some metaName, n, none⟩
  else none

/-- What a variable comes to by being exported. -/
def exportedVariable? (exported : Bool) (name : String) (n : Node) : Option Declaration :=
  if exported && n.is .object && hasPart n then some ⟨.namedExport, some name, n, none⟩ else none

/-- The declaration that an offer comes to, given the offers after it. -/
def declaration? (defaultName : Option String) (bound : List String) (later : List Offer) :
    Offer → Option Declaration
  | .value n =>
    if n.is .identifier || later.any (·.value?.isSome) then none
    else some ⟨.defaultExport, none, n, none⟩
  | .binding exported name n =>
    (if later.any (binds name) then none else lastVariable? defaultName name n).or
      (exportedVariable? exported name n)
  | .assignment a =>
    if a.target ∈ bound then some ⟨.memberAssignment, some a.target, a.value, some a.part⟩ else none

/-- The declarations that offers come to. -/
def declarations (defaultName : Option String) (bound : List String) : List Offer → List Declaration
  | [] => []
  | o :: later => (o.declaration? defaultName bound later).toList ++ declarations defaultName bound later

end Offer

/-- What a statement offers, in the order of the text. -/
def offersOf (s : Node) : List Offer :=
  (exportedValue? s).toList.map .value ++
    (initializersOf s).map (fun e => .binding (!isVariables s) e.1 e.2) ++
    (assignmentIn? s).toList.map .assignment

/-- What the statements of a program offer. -/
def offers (root : Node) : List Offer := root.namedChildren.flatMap offersOf

/-- The names of the variables at the top level that have an initial value. -/
def boundNames (root : Node) : List String := (initializers root).map Prod.fst

/-- The declarations that the statements of a program come to. -/
def offered (root : Node) : List Declaration :=
  Offer.declarations (lastName? root) (boundNames root) (offers root)

/-! ### What is offered is what the statements say -/

theorem nodes_offersOf (s : Node) : (offersOf s).map Offer.node = candidateNodes s := by
  simp [offersOf, candidateNodes, Function.comp_def, Offer.node]

theorem filterMap_offersOf_value (s : Node) :
    (offersOf s).filterMap Offer.value? = ((exportedValue? s).filter (!·.is .identifier)).toList := by
  cases hs : exportedValue? s with
  | none => simp [offersOf, hs, Offer.value?, Function.comp_def]
  | some n =>
    cases hn : n.is .identifier <;>
      simp [offersOf, hs, hn, Offer.value?, Function.comp_def, Option.filter_some]

theorem filterMap_offersOf_binding (s : Node) : (offersOf s).filterMap Offer.binding? =
    initializersOf s := by
  simp [offersOf, Offer.binding?, Function.comp_def]

theorem filterMap_offersOf_exported (s : Node) :
    (offersOf s).filterMap Offer.exported? = exportedVariables s := by
  cases hvariables : isVariables s with
  | true =>
    have hexport := (kinds_of_isVariables hvariables).1
    simp [offersOf, exportedVariables, Offer.exported?, Function.comp_def, hvariables, hexport]
  | false => simp [offersOf, initializersOf, Offer.exported?, Function.comp_def, hvariables]

theorem filterMap_offersOf_assignment (s : Node) :
    (offersOf s).filterMap Offer.assignment? = (assignmentIn? s).toList := by
  simp [offersOf, Offer.assignment?, Function.comp_def]

section

variable (root : Node)

theorem lastValue?_eq : lastValue? root = ((offers root).filterMap Offer.value?).getLast? := by
  rw [lastValue?, exportedValues, List.filter_filterMap, List.filterMap_eq_flatMap_toList, offers,
    List.filterMap_flatMap]
  simp only [filterMap_offersOf_value]

theorem initializers_eq : initializers root = (offers root).filterMap Offer.binding? := by
  simp [initializers, offers, List.filterMap_flatMap, filterMap_offersOf_binding]

theorem namedExports_eq : namedExports root = (offers root).filterMap Offer.exported? := by
  simp [namedExports, offers, List.filterMap_flatMap, filterMap_offersOf_exported]

theorem assignments_eq : assignments root = (offers root).filterMap Offer.assignment? := by
  rw [assignments, List.filterMap_eq_flatMap_toList, offers, List.filterMap_flatMap]
  simp only [filterMap_offersOf_assignment]

end

theorem binds_eq_false {name : String} {o : Offer} :
    o.binds name = false ↔ o.binding?.filter (·.1 = name) = none := by
  cases hbinding : o.binding? <;> simp [Offer.binds, hbinding, Option.filter_some]

theorem lastInitializer?_eq_some_iff {root n : Node} {name : String} :
    lastInitializer? root name = some n ↔ ∃ before o later, offers root = before ++ o :: later ∧
      o.binding? = some (name, n) ∧ later.any (Offer.binds name) = false := by
  rw [lastInitializer?, initializers_eq, List.filter_filterMap, Option.map_eq_some_iff]
  constructor
  · rintro ⟨⟨name', n⟩, hlast, rfl⟩
    obtain ⟨before, o, later, hoffers, ho, hlater⟩ := Literal.getLast?_filterMap_eq_some_iff.mp hlast
    obtain ⟨hbinding, hname⟩ := Option.filter_eq_some_iff.mp ho
    obtain rfl : name' = name := of_decide_eq_true hname
    refine ⟨before, o, later, hoffers, hbinding, List.any_eq_false.mpr fun o' ho' => ?_⟩
    rw [Bool.not_eq_true, binds_eq_false, hlater o' ho']
  · rintro ⟨before, o, later, hoffers, ho, hlater⟩
    refine ⟨(name, n), Literal.getLast?_filterMap_eq_some_iff.mpr
      ⟨before, o, later, hoffers, by simp [ho, Option.filter_some], fun o' ho' => ?_⟩, rfl⟩
    exact binds_eq_false.mp (Bool.not_eq_true _ ▸ List.any_eq_false.mp hlater o' ho')

/-! ### What offers come to -/

namespace Offer

section

variable {defaultName : Option String} {bound : List String} {d : Declaration}

theorem mem_declarations : ∀ {os : List Offer}, d ∈ declarations defaultName bound os ↔
    ∃ before o later, os = before ++ o :: later ∧ o.declaration? defaultName bound later = some d
  | [] => by simp [declarations]
  | o :: os => by
    rw [declarations, List.mem_append, Option.mem_toList, mem_declarations]
    constructor
    · rintro (h | ⟨before, o', later, rfl, h⟩)
      · exact ⟨[], o, os, rfl, h⟩
      · exact ⟨o :: before, o', later, rfl, h⟩
    · rintro ⟨before, o', later, hos, h⟩
      cases before with
      | nil =>
        obtain ⟨rfl, rfl⟩ := List.cons.inj hos
        exact .inl h
      | cons _ before =>
        obtain ⟨rfl, rfl⟩ := List.cons.inj hos
        exact .inr ⟨before, o', later, rfl, h⟩

/-- A declaration has the node that was offered. -/
theorem node_of_declaration? {o : Offer} {later : List Offer}
    (h : o.declaration? defaultName bound later = some d) : d.node = o.node := by
  cases o with
  | value n =>
    rw [declaration?] at h
    split at h <;> cases h
    rfl
  | binding exported name n =>
    rw [declaration?, Option.or_eq_some_iff] at h
    rcases h with h | ⟨-, h⟩
    · split at h
      · cases h
      · rw [lastVariable?] at h
        split at h
        · cases h; rfl
        · split at h <;> cases h
          rfl
    · rw [exportedVariable?] at h
      split at h <;> cases h
      rfl
  | assignment a =>
    rw [declaration?] at h
    split at h <;> cases h
    rfl

theorem nodes_declarations_sublist : ∀ os : List Offer,
    ((declarations defaultName bound os).map (·.node)).Sublist (os.map node)
  | [] => .slnil
  | o :: os => by
    have ih := nodes_declarations_sublist os
    rw [declarations, List.map_append, List.map_cons]
    cases ho : o.declaration? defaultName bound os with
    | none => exact ih.cons _
    | some d => simpa [node_of_declaration? ho] using ih.cons_cons o.node

end

end Offer

/-- All nodes that are offered come one after the other. -/
theorem inOrder_offers {root : Node} {a b : Nat} (h : InOrder a root.children b) :
    InOrder a ((offers root).map Offer.node) b := by
  have hnodes : (offers root).map Offer.node = root.namedChildren.flatMap candidateNodes := by
    simp [offers, List.map_flatMap, nodes_offersOf]
  rw [hnodes]
  exact (inOrder_namedChildren h).flatMap fun s _ hs => inOrder_candidateNodes hs

/-- A declaration that an offer comes to is found by its rule. -/
theorem matches_of_mem_offered {root : Node} {d : Declaration} (h : d ∈ offered root) :
    Matches root d.provenance d.node := by
  obtain ⟨before, o, later, hoffers, ho⟩ := Offer.mem_declarations.mp h
  have hmem : o ∈ offers root := by simp [hoffers]
  cases o with
  | value n =>
    rw [Offer.declaration?] at ho
    split at ho <;> cases ho
    rename_i hlast
    rw [Bool.or_eq_true, not_or, Bool.not_eq_true, Bool.not_eq_true] at hlast
    refine (lastValue?_eq root).trans (Literal.getLast?_filterMap_eq_some_iff.mpr
      ⟨before, _, later, hoffers, by simp [Offer.value?, hlast.1], fun o' ho' => ?_⟩)
    simpa using List.any_eq_false.mp hlast.2 o' ho'
  | binding exported name n =>
    rw [Offer.declaration?, Option.or_eq_some_iff] at ho
    rcases ho with ho | ⟨-, ho⟩
    · split at ho
      · cases ho
      · rename_i hlater
        have hlast : lastInitializer? root name = some n := lastInitializer?_eq_some_iff.mpr
          ⟨before, _, later, hoffers, rfl, Bool.not_eq_true _ ▸ hlater⟩
        rw [Offer.lastVariable?] at ho
        split at ho
        · rename_i hname
          cases ho
          exact ⟨name, hname, hlast⟩
        · split at ho <;> cases ho
          rename_i hmeta
          obtain rfl := hmeta
          exact hlast
    · rw [Offer.exportedVariable?] at ho
      split at ho <;> cases ho
      rename_i hexported
      obtain ⟨⟨rfl, hobject⟩, hpart⟩ := by simpa using hexported
      refine ⟨hobject, hasPart_iff.mp hpart, name, ?_⟩
      rw [namedExports_eq]
      exact List.mem_filterMap.mpr ⟨_, hmem, rfl⟩
  | assignment a =>
    rw [Offer.declaration?] at ho
    split at ho <;> cases ho
    rename_i hbound
    obtain ⟨⟨name, m⟩, hm, rfl⟩ := List.mem_map.mp hbound
    refine ⟨a, ?_, rfl, m, hm⟩
    rw [assignments_eq]
    exact List.mem_filterMap.mpr ⟨_, hmem, rfl⟩

/-! ### All located declarations -/

theorem eq_value_of_value? {o : Offer} {n : Node} (h : o.value? = some n) :
    o = .value n ∧ n.is .identifier = false := by
  cases o with
  | value m =>
    rw [Offer.value?] at h
    split at h <;> cases h
    rename_i hname
    exact ⟨rfl, Bool.not_eq_true _ ▸ hname⟩
  | _ => cases h

theorem eq_binding_of_binding? {o : Offer} {name : String} {n : Node} (h : o.binding? = some (name, n)) :
    ∃ exported, o = .binding exported name n := by
  cases o with
  | binding exported name' m => cases h; exact ⟨exported, rfl⟩
  | _ => cases h

theorem eq_binding_of_exported? {o : Offer} {name : String} {n : Node}
    (h : o.exported? = some (name, n)) : o = .binding true name n := by
  cases o with
  | binding exported name' m => cases exported <;> cases h; rfl
  | _ => cases h

theorem eq_assignment_of_assignment? {o : Offer} {a : Assignment} (h : o.assignment? = some a) :
    o = .assignment a := by
  cases o with
  | assignment b => cases h; rfl
  | _ => cases h

section

variable {root : Node} {a b : Nat} (h : InOrder a root.children b)

include h

/-- A located declaration is what an offer comes to. -/
theorem mem_offered_of_mem_declarations {d : Declaration} (hd : d ∈ declarations root) :
    d ∈ offered root := by
  have hdistinct := mem_declarations.mp hd
  -- No rule that goes before the one of the declaration finds its node.
  have hfirst : ∀ rule, rule.rank < d.provenance.rank → ¬Matches root rule d.node := by
    intro rule hlt hrule
    obtain ⟨e, he, hnode, hle⟩ := exists_mem_declarations h hrule
    have hspan : e.span = d.span := by simp [Declaration.span, hnode]
    obtain rfl := List.inj_on_of_nodup_map (nodup_span_distinctNodes _ []) (mem_declarations.mp he)
      hdistinct hspan
    exact Nat.not_lt.mpr hle hlt
  refine Offer.mem_declarations.mpr ?_
  rcases mem_found.mp ((distinctNodes_sublist _ _).subset hdistinct) with ⟨n, hn, rfl⟩ |
    ⟨name, hname, n, hn, rfl⟩ | ⟨n, hn, rfl⟩ | ⟨name, n, hn, hobject, hpart, rfl⟩ | ⟨a, ha, hsome, rfl⟩
  · rw [lastValue?_eq] at hn
    obtain ⟨before, o, later, hoffers, ho, hlater⟩ := Literal.getLast?_filterMap_eq_some_iff.mp hn
    obtain ⟨rfl, hname⟩ := eq_value_of_value? ho
    refine ⟨before, _, later, hoffers, if_neg ?_⟩
    simpa [hname] using hlater
  · obtain ⟨before, o, later, hoffers, ho, hlater⟩ := lastInitializer?_eq_some_iff.mp hn
    obtain ⟨exported, rfl⟩ := eq_binding_of_binding? ho
    exact ⟨before, _, later, hoffers, by simp [Offer.declaration?, hlater, Offer.lastVariable?, hname]⟩
  · obtain ⟨before, o, later, hoffers, ho, hlater⟩ := lastInitializer?_eq_some_iff.mp hn
    obtain ⟨exported, rfl⟩ := eq_binding_of_binding? ho
    have hname : lastName? root ≠ some metaName := fun hname =>
      hfirst .defaultExportedVariable (by simp [Provenance.rank]) ⟨_, hname, hn⟩
    exact ⟨before, _, later, hoffers, by simp [Offer.declaration?, hlater, Offer.lastVariable?, hname]⟩
  · rw [namedExports_eq] at hn
    obtain ⟨o, ho, hbinding⟩ := List.mem_filterMap.mp hn
    obtain rfl := eq_binding_of_exported? hbinding
    obtain ⟨before, later, hoffers⟩ := List.append_of_mem ho
    refine ⟨before, _, later, hoffers, ?_⟩
    have hexported : Offer.exportedVariable? true name n = some ⟨.namedExport, some name, n, none⟩ := by
      simp [Offer.exportedVariable?, hobject, hasPart_iff.mpr hpart]
    cases hlater : later.any (Offer.binds name) with
    | true => simp [Offer.declaration?, hlater, hexported]
    | false =>
      have hlast : lastInitializer? root name = some n :=
        lastInitializer?_eq_some_iff.mpr ⟨before, _, later, hoffers, rfl, hlater⟩
      have hname : lastName? root ≠ some name := fun hname =>
        hfirst .defaultExportedVariable (by simp [Provenance.rank]) ⟨_, hname, hlast⟩
      have hmeta : name ≠ metaName := fun hmeta =>
        hfirst .metaVariable (by simp [Provenance.rank]) (hmeta ▸ hlast)
      simp [Offer.declaration?, hlater, hexported, Offer.lastVariable?, hname, hmeta]
  · rw [assignments_eq] at ha
    obtain ⟨o, ho, hassignment⟩ := List.mem_filterMap.mp ha
    obtain rfl := eq_assignment_of_assignment? hassignment
    obtain ⟨before, later, hoffers⟩ := List.append_of_mem ho
    obtain ⟨m, hm⟩ := isSome_lastInitializer?.mp hsome
    exact ⟨before, _, later, hoffers, if_pos (List.mem_map_of_mem hm)⟩

theorem inOrder_offered : InOrder a ((offered root).map (·.node)) b :=
  (inOrder_offers h).sublist (Offer.nodes_declarations_sublist _)

/-- The located declarations are what the offers come to, in the order of the offers. -/
theorem declarations_eq : declarations root = offered root := by
  have hstarts : (offered root).Pairwise fun d e => d.node.start.byte < e.node.start.byte := by
    simpa only [List.pairwise_map] using (inOrder_offered h).pairwise_start
  have heq : ∀ d ∈ offered root, ∀ e ∈ offered root, d.node.start.byte = e.node.start.byte → d = e :=
    fun d hd e he => List.inj_on_of_nodup_map (List.pairwise_map.mpr (hstarts.imp Nat.ne_of_lt)) hd he
  have hnodup : (declarations root).Nodup :=
    ((List.mergeSort_perm _ _).nodup_iff).mpr (nodup_span_distinctNodes _ []).of_map
  have hmem : ∀ d, d ∈ declarations root ↔ d ∈ offered root := by
    refine fun d => ⟨mem_offered_of_mem_declarations h, fun hd => ?_⟩
    obtain ⟨e, he, hnode, -⟩ := exists_mem_declarations h (matches_of_mem_offered hd)
    rwa [heq d hd e (mem_offered_of_mem_declarations h he) (by rw [hnode])]
  refine ((List.perm_ext_iff_of_nodup hnodup (hstarts.imp fun hlt heq => ?_)).mpr hmem).eq_of_pairwise
    (fun d e hd he hde hed => ?_) (sorted_declarations _) (hstarts.imp Nat.le_of_lt)
  · exact Nat.ne_of_lt hlt (by rw [heq])
  · exact heq d ((hmem d).mp hd) e he (Nat.le_antisymm hde hed)

end

end StoryManifest.Story
