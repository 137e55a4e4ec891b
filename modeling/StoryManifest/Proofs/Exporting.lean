import StoryManifest.Proofs.Reporting

/-!
Exports by a clause. A clause offers no values to the rules, whatever it names: only a name that it exports
by default counts. So variables that a clause exports are not found by the rule for exported objects, as they
would be where they are declared. And where a clause takes its names from is not looked at: a name that
another module exports by default selects a variable of the same name here.
-/

namespace StoryManifest.Story

open Source (Node Program InOrder parsed ofText_eq_parsed)

/-! ### Clauses -/

/-- The statement exports what a clause names; it exports no value and declares nothing. -/
def isClauseExport (s : Node) : Bool :=
  s.is .exportStatement && !isDefaultExport s && (s.child? .declaration).isNone &&
    s.namedChildren.any (·.is .exportClause)

/-- The clause names what another module exports. -/
def isReexport (s : Node) : Bool := isClauseExport s && s.children.any (·.isToken "from")

/-- What the clauses of an export name. -/
def specifiers (s : Node) : List Node :=
  (s.namedChildren.filter (·.is .exportClause)).flatMap (·.namedChildren)

/-- The names of this module that a clause exports, when it renames none of them. -/
def exportedNames? (s : Node) : Option (List String) :=
  if isClauseExport s && !isReexport s && (specifiers s).all (fun c => (c.child? .alias).isNone) then
    some ((specifiers s).filterMap fun c => (c.child? .name).map Node.text)
  else none

theorem isClauseExport_iff {s : Node} : isClauseExport s = true ↔
    s.is .exportStatement = true ∧ isDefaultExport s = false ∧ s.child? .declaration = none ∧
      s.namedChildren.any (·.is .exportClause) = true := by
  simp [isClauseExport, and_assoc]

/-- A clause offers nothing, and gives nothing but names to export by default. -/
theorem nil_of_isClauseExport {s : Node} (h : isClauseExport s = true) :
    defaultNamesOf s = defaultAliases s ∧ initializersOf s = [] ∧ offersOf s = [] := by
  obtain ⟨hexport, hdefault, hdeclaration, -⟩ := isClauseExport_iff.mp h
  have hvariables := isVariables_of_isExport hexport
  have hexpression : s.is .expressionStatement = false := kind_unique hexport (by decide)
  have hinitializers : initializersOf s = [] := by
    simp [initializersOf, exportedVariables, hvariables, hdeclaration]
  refine ⟨by simp [defaultNamesOf, hexport, hdefault, hdeclaration], hinitializers, ?_⟩
  simp [offersOf, hinitializers, exportedValue?, assignmentIn?, hdefault, hexpression]

/-- A clause that renames nothing exports nothing by default. -/
theorem nil_of_exportedNames? {s : Node} {names : List String} (h : exportedNames? s = some names) :
    isClauseExport s = true ∧ defaultAliases s = [] := by
  rw [exportedNames?] at h
  split at h
  · rename_i hclause
    obtain ⟨⟨hclause, -⟩, hplain⟩ := by simpa only [Bool.and_eq_true] using hclause
    refine ⟨hclause, List.filterMap_eq_nil_iff.mpr fun c hc => ?_⟩
    have halias : c.child? .alias = none := Option.isNone_iff_eq_none.mp (List.all_eq_true.mp hplain c hc)
    rw [defaultAlias?, halias]
  · cases h

/-! ### Exports taken from their declarations -/

namespace Offer

/-- The offer, not exported when its node passes a test. -/
def hide (test : Node → Bool) : Offer → Offer
  | .binding exported name n => .binding (exported && !test n) name n
  | .value n => .value n
  | .assignment a => .assignment a

end Offer

/-- The declaration is found by more than the export of a node that passes a test. -/
def Declaration.isShown (test : Node → Bool) (d : Declaration) : Bool :=
  !(decide (d.provenance = .namedExport) && test d.node)

namespace Offer

section

variable {test : Node → Bool} {defaultName : Option String} {bound : List String}

theorem hide_eq_self {o : Offer} (h : test o.node = false) : o.hide test = o := by
  cases o with
  | binding exported name n =>
    have htest : test n = false := h
    rw [hide, htest, Bool.not_false, Bool.and_true]
  | value | assignment => rfl

theorem lastVariable?_isShown {name : String} {n : Node} {d : Declaration}
    (h : lastVariable? defaultName name n = some d) : d.isShown test = true := by
  rw [lastVariable?] at h
  split at h
  · cases h; rfl
  · split at h <;> cases h
    rfl

theorem exportedVariable?_hide (exported : Bool) (name : String) (n : Node) :
    exportedVariable? (exported && !test n) name n =
      (exportedVariable? exported name n).filter (·.isShown test) := by
  have hcondition : (exported && !test n && n.is .object && hasPart n) =
      ((exported && n.is .object && hasPart n) && !test n) := by ac_rfl
  rw [exportedVariable?, exportedVariable?, hcondition]
  generalize (exported && n.is .object && hasPart n) = isExport
  cases isExport <;> cases htest : test n <;> simp [Declaration.isShown, htest, Option.filter_some]

/-- An offer that is hidden comes to nothing exactly where it came to a declaration by its export. -/
theorem declaration?_hide (o : Offer) (later : List Offer) :
    (o.hide test).declaration? defaultName bound (later.map (hide test)) =
      (o.declaration? defaultName bound later).filter (·.isShown test) := by
  have hbinds : ∀ name, (later.map (hide test)).any (binds name) = later.any (binds name) := by
    intro name
    rw [List.any_map]
    exact List.any_congr rfl fun o => by cases o <;> rfl
  have hvalues : (later.map (hide test)).any (·.value?.isSome) = later.any (·.value?.isSome) := by
    rw [List.any_map]
    exact List.any_congr rfl fun o => by cases o <;> rfl
  cases o with
  | value n =>
    rw [hide, declaration?, declaration?, hvalues]
    split <;> rfl
  | binding exported name n =>
    rw [hide, declaration?, declaration?, hbinds, exportedVariable?_hide]
    cases hlast : (if later.any (binds name) then none else lastVariable? defaultName name n) with
    | none => rw [Option.none_or, Option.none_or]
    | some d =>
      have hd : lastVariable? defaultName name n = some d := by
        split at hlast
        · cases hlast
        · exact hlast
      rw [Option.some_or, Option.some_or, Option.filter_some, if_pos (lastVariable?_isShown hd)]
  | assignment a =>
    rw [hide, declaration?, declaration?]
    split <;> rfl

/-- Hiding leaves out exactly the declarations that were found by the exports of hidden nodes. -/
theorem declarations_hide (os : List Offer) : declarations defaultName bound (os.map (hide test)) =
    (declarations defaultName bound os).filter (·.isShown test) := by
  induction os with
  | nil => rfl
  | cons o os ih =>
    rw [List.map_cons, declarations, declarations, declaration?_hide, ih, List.filter_append]
    cases o.declaration? defaultName bound os with
    | none => rfl
    | some d => cases hd : d.isShown test <;> simp [hd, Option.filter_some]

end

end Offer

/-- The declaration of variables that a statement exports where it stands. -/
def exportedDeclaration? (s : Node) : Option Node :=
  if s.is .exportStatement && !isDefaultExport s then (s.child? .declaration).filter isVariables else none

/-- The declaration as a statement of its own. -/
def asStatement (d : Node) : Node := { d with role := none }

/-- The node lies in the statement. -/
def covers (s n : Node) : Bool := s.start.byte ≤ n.start.byte && n.stop.byte ≤ s.stop.byte

section

variable {s d : Node} (h : exportedDeclaration? s = some d)

include h

/-- The declaration on its own gives the same variables a value and offers them without their exports. -/
theorem exportedDeclaration?_spec : isVariables d = true ∧ isVariables s = false ∧
    defaultNamesOf s = [] ∧ initializersOf s = bindingsOf d ∧
    offersOf s = (bindingsOf d).map fun e => .binding true e.1 e.2 := by
  rw [exportedDeclaration?] at h
  split at h
  · rename_i hexport
    obtain ⟨hdeclaration, hvariables⟩ := Option.filter_eq_some_iff.mp h
    obtain ⟨hexport, hdefault⟩ := Bool.and_eq_true_iff.mp hexport
    rw [Bool.not_eq_true'] at hdefault
    have hexpression : s.is .expressionStatement = false := kind_unique hexport (by decide)
    have hstatement := isVariables_of_isExport hexport
    have hinitializers : initializersOf s = bindingsOf d := by
      simp [initializersOf, exportedVariables, hstatement, hexport, hdefault, hdeclaration, hvariables]
    refine ⟨hvariables, hstatement, by simp [defaultNamesOf, hdefault, hdeclaration], hinitializers, ?_⟩
    simp [offersOf, hinitializers, exportedValue?, assignmentIn?, hstatement, hdefault, hexpression]
  · cases h

theorem offersOf_asStatement (hs : s.Orderly) :
    defaultNamesOf (asStatement d) = [] ∧ initializersOf (asStatement d) = bindingsOf d ∧
    offersOf (asStatement d) = (offersOf s).map (Offer.hide (covers s)) := by
  obtain ⟨hvariables, -, -, hinitializers, hoffers⟩ := exportedDeclaration?_spec h
  have hstatement : isVariables (asStatement d) = true := hvariables
  obtain ⟨hexport, hexpression⟩ := kinds_of_isVariables hstatement
  have hbindings : initializersOf (asStatement d) = bindingsOf d := if_pos hstatement
  refine ⟨by simp [defaultNamesOf, hexport], hbindings, ?_⟩
  have hcovered : ∀ e ∈ bindingsOf d, covers s e.2 = true := by
    intro e he
    have hmem : e.2 ∈ candidateNodes s := by
      rw [← nodes_offersOf, hoffers, List.map_map]
      exact List.mem_map_of_mem he
    obtain ⟨hstart, -, hstop⟩ := (inOrder_candidateNodes hs).mem hmem
    simp [covers, hstart, hstop]
  have hhidden : (offersOf s).map (Offer.hide (covers s)) = (bindingsOf d).map fun e =>
      .binding false e.1 e.2 := by
    rw [hoffers, List.map_map]
    exact List.map_congr_left fun e he => by simp [Offer.hide, hcovered e he]
  rw [hhidden]
  simp [offersOf, hbindings, exportedValue?, assignmentIn?, hstatement, hexport, hexpression]

end

/-- Of a statement beside, nothing is hidden. -/
theorem hide_offersOf {s t : Node} (ht : t.Orderly)
    (h : t.stop.byte ≤ s.start.byte ∨ s.stop.byte ≤ t.start.byte) :
    (offersOf t).map (Offer.hide (covers s)) = offersOf t := by
  have hself : ∀ o ∈ offersOf t, o.hide (covers s) = o := by
    intro o ho
    have hmem : o.node ∈ candidateNodes t := nodes_offersOf t ▸ List.mem_map_of_mem ho
    obtain ⟨hstart, hnode, hstop⟩ := (inOrder_candidateNodes ht).mem hmem
    have hspan := hnode.span
    refine Offer.hide_eq_self ?_
    simp only [covers, Bool.and_eq_false_iff, decide_eq_false_iff_not]
    omega
  rw [List.map_congr_left hself, List.map_id']

/-- With the export taken from a declaration, all is located but what was found by this export only. -/
theorem offeredIn_asStatement {before after : List Node} {s d : Node} {a b : Nat}
    (horder : InOrder a (before ++ s :: after) b) (h : exportedDeclaration? s = some d) :
    offeredIn (before ++ asStatement d :: after) =
      (offeredIn (before ++ s :: after)).filter (·.isShown (covers s)) := by
  have hs : s.Orderly := (horder.mem (by simp)).2.1
  obtain ⟨-, -, hnames, hinitializers, -⟩ := exportedDeclaration?_spec h
  obtain ⟨hnames', hinitializers', hoffers⟩ := offersOf_asStatement h hs
  obtain ⟨-, hafter, hbefore⟩ := List.pairwise_append.mp horder.pairwise_stop
  have hkept : ∀ ts : List Node, (∀ t ∈ ts, t.Orderly ∧
      (t.stop.byte ≤ s.start.byte ∨ s.stop.byte ≤ t.start.byte)) →
      (ts.flatMap offersOf).map (Offer.hide (covers s)) = ts.flatMap offersOf := fun ts hts => by
    rw [List.map_flatMap]
    exact List.flatMap_congr fun t ht => hide_offersOf (hts t ht).1 (hts t ht).2
  have hbefore := hkept before fun t ht => ⟨(horder.mem (by simp [ht])).2.1, .inl (hbefore t ht s (by simp))⟩
  have hafter := hkept after fun t ht =>
    ⟨(horder.mem (by simp [ht])).2.1, .inr ((List.pairwise_cons.mp hafter).1 t ht)⟩
  rw [offeredIn, offeredIn, ← Offer.declarations_hide]
  simp [hnames, hnames', hinitializers, hinitializers', hoffers, hbefore, hafter]

section

variable {v w : Source.Variant} {text text' : String} {p q : Program}

/-- An export may be taken from a declaration of variables and written as a clause, anywhere in the
program: all is located as before but what was found as an exported object of this declaration only. So
it makes no difference exactly when no variable of the declaration is located by the rule for exported
objects, and then the candidates, the properties and what is reported are the same. Which names the
clause has does not matter, as long as it renames none. -/
theorem findings_exportedApart (hp : Program.ofText v text = .ok p) (hq : Program.ofText w text' = .ok q)
    {before after left right : List Node} {s d u : Node} {names : List String}
    (hs : p.root.namedChildren = before ++ s :: after) (hd : exportedDeclaration? s = some d)
    (hu : q.root.namedChildren = left ++ u :: right) (hnames : exportedNames? u = some names)
    (hrest : (left ++ right).map q.statement = (before ++ asStatement d :: after).map p.statement) :
    findings q = ((declarations p.root).filter (·.isShown (covers s))).map (findingOf p) ∧
    (findings q = findings p ↔
      ∀ e ∈ declarations p.root, e.provenance = .namedExport → covers s e.node = false) ∧
    (findings q = findings p →
      (locate q).candidates.map Candidate.content = (locate p).candidates.map Candidate.content ∧
      (extract q).properties = (extract p).properties ∧
      ((extract q).diagnostics.map Diagnostic.withoutLine).Perm
        ((extract p).diagnostics.map Diagnostic.withoutLine)) := by
  obtain ⟨b, hp⟩ := Source.inOrder_root hp
  obtain ⟨b', hq⟩ := Source.inOrder_root hq
  obtain ⟨hclause, haliases⟩ := nil_of_exportedNames? hnames
  obtain ⟨hdefault, hinitializers, hoffers⟩ := nil_of_isClauseExport hclause
  -- What is located of the second program is what the offers that are left come to.
  have hsame : List.Forall₂ (Declaration.Same (Alike q p)) (declarations q.root)
      ((declarations p.root).filter (·.isShown (covers s))) := by
    rw [declarations_eq hp, declarations_eq hq, offered_eq, offered_eq, hs, hu,
      offeredIn_remove (hdefault.trans haliases) hinitializers hoffers,
      ← offeredIn_asStatement (hs ▸ inOrder_namedChildren hp) hd]
    exact offeredIn_same (likeness_alike q p) (alike_of_map_eq hrest)
  have hfindings : findings q = ((declarations p.root).filter (·.isShown (covers s))).map (findingOf p) :=
    forall₂_map_eq hsame fun _ _ h => h.findingOf_eq
  have hall : findings q = findings p ↔ (declarations p.root).filter (·.isShown (covers s)) =
      declarations p.root := by
    rw [hfindings, findings]
    refine ⟨fun h => List.filter_sublist.eq_of_length ?_, fun h => by rw [h]⟩
    simpa using congrArg List.length h
  refine ⟨hfindings, hall.trans ?_, fun h => ?_⟩
  · simp [List.filter_eq_self, Declaration.isShown, or_iff_not_imp_left]
  · exact extract_alike hq hp (hall.mp h ▸ hsame)

end

/-- A list is what comes before one of its nodes, the node and what comes after it. -/
theorem eq_take_append_drop {ss : List Node} {i : Nat} (h : i < ss.length) :
    ss = ss.take i ++ ss.getD i default :: ss.drop (i + 1) := by
  rw [List.getD_eq_getElem?_getD, List.getElem?_eq_getElem h, Option.getD_some,
    ← List.drop_eq_getElem_cons h,
    List.take_append_drop]

/-- An object that is exported where it is declared, and by default. -/
def exportedInPlace : String := "export const x=\x7bargs:\x7b\x7d\x7d;export default x;"

/-- The same with a clause for the first export. -/
def exportedBelow : String := "const x=\x7bargs:\x7b\x7d\x7d;export default x;export\x7bx\x7d;"

theorem findings_exportedApart_inPlace : ∃ (p q : Program) (before after left right : List Node)
    (s d u : Node),
    Program.ofText .tsx exportedInPlace = .ok p ∧ Program.ofText .tsx exportedBelow = .ok q ∧
    p.root.namedChildren = before ++ s :: after ∧ exportedDeclaration? s = some d ∧
    q.root.namedChildren = left ++ u :: right ∧ exportedNames? u = some ["x"] ∧
    (left ++ right).map q.statement = (before ++ asStatement d :: after).map p.statement ∧
    (∀ e ∈ declarations p.root, e.provenance = .namedExport → covers s e.node = false) ∧
    findings q = findings p ∧
    findings q = ((declarations p.root).filter (·.isShown (covers s))).map (findingOf p) ∧
    (locate q).candidates.map Candidate.content = (locate p).candidates.map Candidate.content ∧
    (extract q).properties = (extract p).properties ∧
    ((extract q).diagnostics.map Diagnostic.withoutLine).Perm
      ((extract p).diagnostics.map Diagnostic.withoutLine) := by
  let p := parsed .tsx exportedInPlace
  let q := parsed .tsx exportedBelow
  let s := p.root.namedChildren.getD 0 default
  have ⟨hp, hq, hs, hu, hsome, hnames, hrest, hfound⟩ : (Source.syntaxFault? p.root).isNone = true ∧
      (Source.syntaxFault? q.root).isNone = true ∧ 0 < p.root.namedChildren.length ∧
      2 < q.root.namedChildren.length ∧ (exportedDeclaration? s).isSome = true ∧
      exportedNames? (q.root.namedChildren.getD 2 default) = some ["x"] ∧
      (q.root.namedChildren.take 2 ++ q.root.namedChildren.drop 3).map q.statement =
        (p.root.namedChildren.take 0 ++ asStatement ((exportedDeclaration? s).getD default) ::
          p.root.namedChildren.drop 1).map p.statement ∧
      (∀ e ∈ declarations p.root, e.provenance = .namedExport → covers s e.node = false) := by
    decide +kernel
  have hp := ofText_eq_parsed .tsx exportedInPlace hp
  have hq := ofText_eq_parsed .tsx exportedBelow hq
  obtain ⟨d, hd⟩ := Option.isSome_iff_exists.mp hsome
  rw [hd, Option.getD_some] at hrest
  obtain ⟨hfiltered, hiff, hsame⟩ := findings_exportedApart hp hq (eq_take_append_drop hs) hd
    (eq_take_append_drop hu) hnames hrest
  have heq := hiff.mpr hfound
  exact ⟨p, q, _, _, _, _, s, d, _, hp, hq, eq_take_append_drop hs, hd, eq_take_append_drop hu, hnames,
    hrest,
    hfound, heq, hfiltered, hsame heq⟩

/-- An object that is exported where it is declared. -/
def exportedOnce : String := "export const x=\x7bargs:\x7ba:1\x7d\x7d;"

/-- The same with a clause for the export. -/
def exportedApart : String := "const x=\x7bargs:\x7ba:1\x7d\x7d;export\x7bx\x7d;"

/-- The properties of an object are lost when only a clause exports it. -/
theorem exportedApart_lost : ∃ (p q : Program) (before after left right : List Node) (s d u : Node),
    Program.ofText .tsx exportedOnce = .ok p ∧ Program.ofText .tsx exportedApart = .ok q ∧
    p.root.namedChildren = before ++ s :: after ∧ exportedDeclaration? s = some d ∧
    (bindingsOf d).map Prod.fst = ["x"] ∧
    q.root.namedChildren = left ++ u :: right ∧ exportedNames? u = some ["x"] ∧
    (left ++ right).map q.statement = (before ++ asStatement d :: after).map p.statement ∧
    (extract p).properties.map (·.name) = ["a"] ∧ (extract q).properties.map (·.name) = [] := by
  let p := parsed .tsx exportedOnce
  let q := parsed .tsx exportedApart
  let s := p.root.namedChildren.getD 0 default
  have ⟨hp, hq, hs, hu, hsome, hd, hnames, hrest, hproperties⟩ : (Source.syntaxFault? p.root).isNone = true ∧
      (Source.syntaxFault? q.root).isNone = true ∧ 0 < p.root.namedChildren.length ∧
      1 < q.root.namedChildren.length ∧ (exportedDeclaration? s).isSome = true ∧
      (bindingsOf ((exportedDeclaration? s).getD default)).map Prod.fst = ["x"] ∧
      exportedNames? (q.root.namedChildren.getD 1 default) = some ["x"] ∧
      (q.root.namedChildren.take 1 ++ q.root.namedChildren.drop 2).map q.statement =
        (p.root.namedChildren.take 0 ++ asStatement ((exportedDeclaration? s).getD default) ::
          p.root.namedChildren.drop 1).map p.statement ∧
      (extract p).properties.map (·.name) = ["a"] ∧ (extract q).properties.map (·.name) = [] := by
    decide +kernel
  obtain ⟨d, hsome⟩ := Option.isSome_iff_exists.mp hsome
  rw [hsome, Option.getD_some] at hd hrest
  exact ⟨p, q, _, _, _, _, s, d, _, ofText_eq_parsed .tsx exportedOnce hp,
    ofText_eq_parsed .tsx exportedApart hq,
    eq_take_append_drop hs, hsome, hd, eq_take_append_drop hu, hnames, hrest, hproperties⟩

/-! ### Names that another module exports -/

/-- The variable with an initial value that is exported by default, by its name. -/
def defaultVariable? (root : Node) : Option String := (lastName? root).filter (· ∈ boundNames root)

/-- A name that passes a test in one of two options that the test makes equal is in the other, too. -/
theorem eq_some_of_filter_eq {α : Type} {test : α → Bool} {m n : Option α}
    (h : m.filter test = n.filter test)
    {x : α} (hx : test x = true) (hm : m = some x) : n = some x := by
  have hn : n.filter test = some x := by rw [← h, hm, Option.filter_some, if_pos hx]
  exact (Option.filter_eq_some_iff.mp hn).1

/-- Of the name exported by default it only matters which variable it is the name of. -/
theorem Offer.declarations_congr {bound : List String} {m n : Option String}
    (h : m.filter (· ∈ bound) = n.filter (· ∈ bound)) {os : List Offer}
    (hos : ∀ e ∈ os.filterMap binding?, e.1 ∈ bound) :
      declarations m bound os = declarations n bound os := by
  induction os with
  | nil => rfl
  | cons o os ih =>
    have hrest := ih fun e he => hos e (((List.sublist_cons_self o os).filterMap binding?).subset he)
    have ho : o.declaration? m bound os = o.declaration? n bound os := by
      cases o with
      | binding exported name node =>
        have hname : decide (name ∈ bound) = true := decide_eq_true (hos (name, node) (by simp [binding?]))
        have hiff : m = some name ↔ n = some name :=
          ⟨eq_some_of_filter_eq h hname, eq_some_of_filter_eq h.symm hname⟩
        simp only [declaration?, lastVariable?, hiff]
      | value | assignment => rfl
    rw [declarations, declarations, ho, hrest]

/-- A clause may be left out when the same variable is exported by default without it. -/
theorem offeredIn_withoutClause {u : Node} (hu : isClauseExport u = true) {before after : List Node}
    {bound : List String} (hbound : ((before ++ after).flatMap initializersOf).map Prod.fst = bound)
    (h : ((before ++ u :: after).flatMap defaultNamesOf).getLast?.filter (· ∈ bound) =
      ((before ++ after).flatMap defaultNamesOf).getLast?.filter (· ∈ bound)) :
    offeredIn (before ++ u :: after) = offeredIn (before ++ after) := by
  obtain ⟨-, hinitializers, hoffers⟩ := nil_of_isClauseExport hu
  have hbound' : ((before ++ u :: after).flatMap initializersOf).map Prod.fst = bound := by
    rw [← hbound]
    simp [hinitializers]
  have hoffers' : (before ++ u :: after).flatMap offersOf = (before ++ after).flatMap offersOf := by
    simp [hoffers]
  have hbinding : ((before ++ after).flatMap offersOf).filterMap Offer.binding? =
      (before ++ after).flatMap initializersOf := by
    simp only [List.filterMap_flatMap, filterMap_offersOf_binding]
  rw [offeredIn, offeredIn, hbound, hbound', hoffers']
  refine Offer.declarations_congr h fun e he => ?_
  rw [← hbound]
  exact List.mem_map_of_mem (hbinding ▸ he)

/-- The variable exported by default is the one that is located by this rule. -/
theorem defaultVariable?_eq_some_iff {root : Node} {a b : Nat} (h : InOrder a root.children b)
    {name : String} :
    defaultVariable? root = some name ↔
      ∃ d ∈ declarations root, d.provenance = .defaultExportedVariable ∧ d.name = some name := by
  rw [defaultVariable?, Option.filter_eq_some_iff, decide_eq_true_iff]
  constructor
  · rintro ⟨hlast, hbound⟩
    obtain ⟨⟨name, m⟩, hm, rfl⟩ := List.mem_map.mp hbound
    obtain ⟨n, hn⟩ := Option.isSome_iff_exists.mp (isSome_lastInitializer?.mpr ⟨m, hm⟩)
    obtain ⟨before, o, later, hoffers, ho, hlater⟩ := lastInitializer?_eq_some_iff.mp hn
    obtain ⟨exported, rfl⟩ := eq_binding_of_binding? ho
    refine ⟨⟨.defaultExportedVariable, some name, n, none⟩, ?_, rfl, rfl⟩
    rw [declarations_eq h]
    exact Offer.mem_declarations.mpr ⟨before, _, later, hoffers,
      by simp [Offer.declaration?, hlater, Offer.lastVariable?, hlast]⟩
  · rintro ⟨d, hd, hprovenance, hname⟩
    have hfound := (distinctNodes_sublist _ _).subset (mem_declarations.mp hd)
    rcases mem_found.mp hfound with ⟨n, -, rfl⟩ | ⟨name', hlast, n, hn, rfl⟩ | ⟨n, -, rfl⟩ |
      ⟨name', n, -, -, -, rfl⟩ | ⟨x, -, -, rfl⟩ <;> cases hprovenance
    cases hname
    exact ⟨hlast, List.mem_map_of_mem (mem_initializers_of_last hn)⟩

/-- What is told of the declarations tells which variable is exported by default. -/
theorem defaultVariable?_eq_of_findings {p q : Program} {a b a' b' : Nat} (hp : InOrder a p.root.children b)
    (hq : InOrder a' q.root.children b') (h : findings q = findings p) :
    defaultVariable? q.root = defaultVariable? p.root := by
  have hiff : ∀ (r : Program) {a b : Nat}, InOrder a r.root.children b → ∀ name,
      defaultVariable? r.root = some name ↔
        (some name : Option String) ∈ ((findings r).filter (·.provenance = .defaultExportedVariable)).map
          (·.name) := by
    intro r a b hr name
    rw [defaultVariable?_eq_some_iff hr]
    simp [findings, findingOf, and_assoc]
  exact Option.ext fun name => by rw [hiff q hq, hiff p hp, h]

section

variable {v w : Source.Variant} {text text' : String} {p q : Program}

/-- A clause that takes its names from another module may be left out: what is located stays the same exactly
when the same variable of this module is exported by default, and then so do the candidates, the properties
and what is reported. In particular it does when the clause exports no name by default, or when a statement
after it does. -/
theorem findings_withoutReexport (hp : Program.ofText v text = .ok p) (hq : Program.ofText w text' = .ok q)
    {before after : List Node} {u : Node} (hs : p.root.namedChildren = before ++ u :: after)
    (hu : isReexport u = true) (hrest : q.statements = (before ++ after).map p.statement) :
    (findings q = findings p ↔ defaultVariable? q.root = defaultVariable? p.root) ∧
    (findings q = findings p →
      (locate q).candidates.map Candidate.content = (locate p).candidates.map Candidate.content ∧
      (extract q).properties = (extract p).properties ∧
      ((extract q).diagnostics.map Diagnostic.withoutLine).Perm
        ((extract p).diagnostics.map Diagnostic.withoutLine)) ∧
    (defaultAliases u = [] ∨ after.flatMap defaultNamesOf ≠ [] → findings q = findings p) := by
  obtain ⟨b, hp⟩ := Source.inOrder_root hp
  obtain ⟨b', hq⟩ := Source.inOrder_root hq
  have hclause : isClauseExport u = true := (Bool.and_eq_true_iff.mp hu).1
  obtain ⟨hnames, hinitializers, -⟩ := nil_of_isClauseExport hclause
  have hR := likeness_alike q p
  have halike : List.Forall₂ (Alike q p) q.root.namedChildren (before ++ after) := alike_of_map_eq hrest
  have hbound : boundNames p.root = ((before ++ after).flatMap initializersOf).map Prod.fst := by
    rw [boundNames, initializers, hs]
    simp [hinitializers]
  have hbound' : boundNames q.root = ((before ++ after).flatMap initializersOf).map Prod.fst :=
    initialized_eq hR halike
  have hlast : lastName? q.root = ((before ++ after).flatMap defaultNamesOf).getLast? := by
    rw [lastName?, defaultNames, forall₂_flatMap_eq halike fun _ _ => defaultNamesOf_eq hR]
  -- With the same variable exported by default, the clause offers nothing that counts.
  have hsame : defaultVariable? q.root = defaultVariable? p.root →
      List.Forall₂ (Declaration.Same (Alike q p)) (declarations q.root) (declarations p.root) := by
    intro h
    rw [defaultVariable?, defaultVariable?, hbound, hbound', hlast, lastName?, defaultNames, hs] at h
    rw [declarations_eq hp, declarations_eq hq, offered_eq, offered_eq, hs,
      offeredIn_withoutClause hclause rfl h.symm]
    exact offeredIn_same hR halike
  have hiff : findings q = findings p ↔ defaultVariable? q.root = defaultVariable? p.root :=
    ⟨defaultVariable?_eq_of_findings hp hq, fun h => forall₂_map_eq (hsame h) fun _ _ h => h.findingOf_eq⟩
  refine ⟨hiff, fun h => extract_alike hq hp (hsame (hiff.mp h)), fun h => hiff.mpr ?_⟩
  have hlast' : lastName? p.root = lastName? q.root := by
    rw [hlast, lastName?, defaultNames, hs]
    rcases h with h | h
    · simp [hnames, h]
    · simp [List.getLast?_append, Option.or_of_isSome, List.getLast?_isSome.mpr h]
  rw [defaultVariable?, defaultVariable?, hbound, hbound', hlast']

end

/-- A name of another module, exported by default before a variable is. -/
def reexportedFirst : String :=
  "const x=\x7b\x7d,y=\x7b\x7d;export\x7by as default\x7dfrom\"m\";export default x;"

/-- The same without the other module. -/
def notReexported : String := "const x=\x7b\x7d,y=\x7b\x7d;export default x;"

theorem findings_withoutReexport_first : ∃ (p q : Program) (before after : List Node) (u : Node),
    Program.ofText .tsx reexportedFirst = .ok p ∧ Program.ofText .tsx notReexported = .ok q ∧
    p.root.namedChildren = before ++ u :: after ∧ isReexport u = true ∧ defaultAliases u = ["y"] ∧
    q.statements = (before ++ after).map p.statement ∧ findings q = findings p ∧
    defaultVariable? q.root = defaultVariable? p.root ∧
    (locate q).candidates.map Candidate.content = (locate p).candidates.map Candidate.content ∧
    (extract q).properties = (extract p).properties ∧
    ((extract q).diagnostics.map Diagnostic.withoutLine).Perm
      ((extract p).diagnostics.map Diagnostic.withoutLine) := by
  let p := parsed .tsx reexportedFirst
  let q := parsed .tsx notReexported
  have ⟨hp, hq, hs, hu, haliases, hrest, hafter⟩ : (Source.syntaxFault? p.root).isNone = true ∧
      (Source.syntaxFault? q.root).isNone = true ∧ 1 < p.root.namedChildren.length ∧
      isReexport (p.root.namedChildren.getD 1 default) = true ∧
      defaultAliases (p.root.namedChildren.getD 1 default) = ["y"] ∧
      q.statements = (p.root.namedChildren.take 1 ++ p.root.namedChildren.drop 2).map p.statement ∧
      (p.root.namedChildren.drop 2).flatMap defaultNamesOf ≠ [] := by
    decide +kernel
  have hp := ofText_eq_parsed .tsx reexportedFirst hp
  have hq := ofText_eq_parsed .tsx notReexported hq
  have hs := eq_take_append_drop hs
  obtain ⟨hiff, hsame, hkept⟩ := findings_withoutReexport hp hq hs hu hrest
  have heq := hkept (.inr hafter)
  exact ⟨p, q, _, _, _, hp, hq, hs, hu, haliases, hrest, heq, hiff.mp heq, hsame heq⟩

/-- A name of another module that is a name of this one, too, exported by default. -/
def reexported : String := "const a=\x7bargs:\x7bb:1\x7d\x7d;export\x7ba as default\x7dfrom\"m\";"

/-- The same without the other module. -/
def unexported : String := "const a=\x7bargs:\x7bb:1\x7d\x7d;"

/-- A name that another module exports by default selects the variable of this name. -/
theorem reexport_selects : ∃ (p q : Program) (before after : List Node) (u : Node),
    Program.ofText .tsx reexported = .ok p ∧ Program.ofText .tsx unexported = .ok q ∧
    p.root.namedChildren = before ++ u :: after ∧ isReexport u = true ∧
    q.statements = (before ++ after).map p.statement ∧
    findings p = [⟨.defaultExportedVariable, some "a", none, "\x7bargs:\x7bb:1\x7d\x7d"⟩] ∧ findings q = [] ∧
    (extract p).properties.map (·.name) = ["b"] ∧ (extract q).properties.map (·.name) = [] := by
  let p := parsed .tsx reexported
  let q := parsed .tsx unexported
  have ⟨hp, hq, hs, hu, hfindings⟩ : (Source.syntaxFault? p.root).isNone = true ∧
      (Source.syntaxFault? q.root).isNone = true ∧ 1 < p.root.namedChildren.length ∧
      isReexport (p.root.namedChildren.getD 1 default) = true ∧
      q.statements = (p.root.namedChildren.take 1 ++ p.root.namedChildren.drop 2).map p.statement ∧
      findings p = [⟨.defaultExportedVariable, some "a", none, "\x7bargs:\x7bb:1\x7d\x7d"⟩] ∧
        findings q = [] ∧
      (extract p).properties.map (·.name) = ["b"] ∧ (extract q).properties.map (·.name) = [] := by
    decide +kernel
  exact ⟨p, q, _, _, _, ofText_eq_parsed .tsx reexported hp, ofText_eq_parsed .tsx unexported hq,
    eq_take_append_drop hs, hu, hfindings⟩

end StoryManifest.Story
