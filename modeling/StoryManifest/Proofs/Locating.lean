import StoryManifest.Proofs.Fields
import StoryManifest.Proofs.Source.Constant
import StoryManifest.Proofs.Source.OrderedStatements
import StoryManifest.Story.Declaration

/-!
Which declarations are located. Each of the five rules is stated on its own, by what the top-level
statements say in order; gathering these facts in one pass comes to the same. All nodes that a rule may
find come one after the other in the text, so two of them that start at the same byte are one, and the
located declarations are exactly the nodes that some rule finds, each for the first such rule.
-/

namespace StoryManifest.Story

open Source (Node Program Variant InOrder)

/-! ### What a statement says -/

/-- The value that a statement exports by default, unwrapped. -/
def exportedValue? (s : Node) : Option Node :=
  if s.is .exportStatement && isDefaultExport s then (s.child? .value).map Node.unwrap else none

/-- The variables that a statement declares and exports by their names, with their initial values. -/
def exportedVariables (s : Node) : List (String × Node) :=
  if s.is .exportStatement && !isDefaultExport s then
    ((s.child? .declaration).toList.filter isVariables).flatMap bindingsOf
  else []

/-- The variables that a statement declares, exported or not, with their initial values. -/
def initializersOf (s : Node) : List (String × Node) :=
  if isVariables s then bindingsOf s else exportedVariables s

/-- The names of variables that a statement exports by default, in order. -/
def defaultNamesOf (s : Node) : List String :=
  if s.is .exportStatement then
    if isDefaultExport s then (((exportedValue? s).filter (·.is .identifier)).map Node.text).toList
    else if (s.child? .declaration).isNone then defaultAliases s
    else []
  else []

/-- The assignment to a part of metadata that a statement is. -/
def assignmentIn? (s : Node) : Option Assignment :=
  if s.is .expressionStatement then assignmentOf? s else none

theorem kind_unique {n : Node} {k l : Source.Kind} (h : n.is k = true) (hl : k ≠ l) : n.is l = false := by
  have hlabel : n.label = .named k := of_decide_eq_true h
  simpa [Node.is, hlabel] using hl

theorem kinds_of_isVariables {n : Node} (h : isVariables n = true) :
    n.is .exportStatement = false ∧ n.is .expressionStatement = false := by
  rcases Bool.or_eq_true_iff.mp h with h | h <;>
    exact ⟨kind_unique h (by decide), kind_unique h (by decide)⟩

theorem isVariables_of_isExport {s : Node} (h : s.is .exportStatement = true) : isVariables s = false := by
  cases hvariables : isVariables s with
  | true => exact absurd h (by simp [(kinds_of_isVariables hvariables).1])
  | false => rfl

theorem bindAll_nil (bindings : Fields Node) : bindAll bindings [] = bindings := rfl

theorem bindAll_append (bindings : Fields Node) (ms ns : List (String × Node)) :
    bindAll bindings (ms ++ ns) = bindAll (bindAll bindings ms) ns := List.foldl_append

theorem getLast?_toList {α : Type} (o : Option α) : o.toList.getLast? = o := by cases o <;> rfl

theorem TopLevel.addExport_default (top : TopLevel) {s : Node} (h : isDefaultExport s = true) :
    top.addExport s =
      { top with
        defaultValue := (((s.child? .value).map Node.unwrap).filter (!·.is .identifier)).or top.defaultValue
        defaultName := ((((s.child? .value).map Node.unwrap).filter (·.is .identifier)).map Node.text).or
          top.defaultName } := by
  rw [addExport, if_pos h]
  cases (s.child? .value).map Node.unwrap with
  | none => rfl
  | some value => cases hvalue : value.is .identifier <;> simp [hvalue, Option.filter_some]

theorem TopLevel.addExport_named (top : TopLevel) {s : Node} (h : isDefaultExport s = false) :
    top.addExport s =
      { top with
        bindings := bindAll top.bindings
          (((s.child? .declaration).toList.filter isVariables).flatMap bindingsOf)
        namedExports := top.namedExports ++
          ((s.child? .declaration).toList.filter isVariables).flatMap bindingsOf
        defaultName := (if (s.child? .declaration).isNone then defaultAliases s else []).getLast?.or
          top.defaultName } := by
  rw [addExport, if_neg (by simp [h])]
  cases s.child? .declaration with
  | some declaration =>
    cases hvariables : isVariables declaration <;> simp [hvariables, bindAll_nil]
  | none => cases hlast : (defaultAliases s).getLast? <;> simp [bindAll_nil, hlast]

/-- What a statement adds to what the statements before it say. -/
theorem TopLevel.add_eq (top : TopLevel) (s : Node) : top.add s =
    { bindings := bindAll top.bindings (initializersOf s)
      defaultValue := ((exportedValue? s).filter (!·.is .identifier)).or top.defaultValue
      defaultName := (defaultNamesOf s).getLast?.or top.defaultName
      namedExports := top.namedExports ++ exportedVariables s
      assignments := top.assignments ++ (assignmentIn? s).toList } := by
  rw [add]
  split
  · rename_i hvariables
    obtain ⟨hexport, hexpression⟩ := kinds_of_isVariables hvariables
    simp [initializersOf, exportedValue?, defaultNamesOf, exportedVariables, assignmentIn?, hvariables,
      hexport, hexpression]
  · rename_i hvariables
    split
    · rename_i hexport
      have hexpression : s.is .expressionStatement = false := kind_unique hexport (by decide)
      cases hdefault : isDefaultExport s with
      | true =>
        rw [addExport_default top hdefault]
        simp [initializersOf, exportedValue?, defaultNamesOf, exportedVariables, assignmentIn?, hvariables,
          hexport, hexpression, hdefault, bindAll_nil, getLast?_toList]
      | false =>
        rw [addExport_named top hdefault]
        simp [initializersOf, exportedValue?, defaultNamesOf, exportedVariables, assignmentIn?, hvariables,
          hexport, hexpression, hdefault]
    · rename_i hexport
      split
      · rename_i hexpression
        cases hassignment : assignmentOf? s <;>
          simp [initializersOf, exportedValue?, defaultNamesOf, exportedVariables, assignmentIn?, hvariables,
            hexport, hexpression, hassignment, bindAll_nil]
      · rename_i hexpression
        simp [initializersOf, exportedValue?, defaultNamesOf, exportedVariables, assignmentIn?, hvariables,
          hexport, hexpression, bindAll_nil]

/-! ### What a program says -/

/-- The values that a program exports by default, in order. -/
def exportedValues (root : Node) : List Node := root.namedChildren.filterMap exportedValue?

/-- The names that a program exports by default, in order. -/
def defaultNames (root : Node) : List String := root.namedChildren.flatMap defaultNamesOf

/-- The variables at the top level with their initial values, in order. -/
def initializers (root : Node) : List (String × Node) := root.namedChildren.flatMap initializersOf

/-- The variables that are exported where they are declared. -/
def namedExports (root : Node) : List (String × Node) := root.namedChildren.flatMap exportedVariables

/-- The assignments to parts of metadata at the top level. -/
def assignments (root : Node) : List Assignment := root.namedChildren.filterMap assignmentIn?

/-- The last value exported by default that is not a mere name. -/
def lastValue? (root : Node) : Option Node :=
  ((exportedValues root).filter (!·.is .identifier)).getLast?

/-- The last name exported by default. -/
def lastName? (root : Node) : Option String := (defaultNames root).getLast?

/-- The last initial value of a variable. -/
def lastInitializer? (root : Node) (name : String) : Option Node :=
  ((initializers root).filter (·.1 = name)).getLast?.map Prod.snd

theorem foldl_add (ss : List Node) (top : TopLevel) : ss.foldl TopLevel.add top =
    { bindings := bindAll top.bindings (ss.flatMap initializersOf)
      defaultValue := ((ss.filterMap exportedValue?).filter (!·.is .identifier)).getLast?.or top.defaultValue
      defaultName := (ss.flatMap defaultNamesOf).getLast?.or top.defaultName
      namedExports := top.namedExports ++ ss.flatMap exportedVariables
      assignments := top.assignments ++ ss.filterMap assignmentIn? } := by
  induction ss generalizing top with
  | nil => simp [bindAll_nil]
  | cons s ss ih =>
    have hvalue : (((s :: ss).filterMap exportedValue?).filter (!·.is .identifier)).getLast? =
        ((ss.filterMap exportedValue?).filter (!·.is .identifier)).getLast?.or
          ((exportedValue? s).filter (!·.is .identifier)) := by
      rw [← getLast?_toList ((exportedValue? s).filter _), ← List.getLast?_append]
      cases hs : exportedValue? s with
      | none => simp [hs]
      | some n => cases hn : n.is .identifier <;> simp [hs, hn, Option.filter_some]
    have hassignments : (s :: ss).filterMap assignmentIn? =
        (assignmentIn? s).toList ++ ss.filterMap assignmentIn? := by
      cases hs : assignmentIn? s <;> simp [hs]
    rw [List.foldl_cons, ih, TopLevel.add_eq, hvalue, hassignments]
    simp only [List.flatMap_cons, bindAll_append, List.getLast?_append, Option.or_assoc, List.append_assoc]

theorem find?_bindAll (name : String) (more : List (String × Node)) (bindings : Fields Node) :
    (bindAll bindings more).find? name =
      ((more.filter (·.1 = name)).getLast?.map Prod.snd).or (bindings.find? name) :=
  Fields.find?_insertAll name bindings more

/-- Gathered in one pass, the facts are what the statements say one by one. -/
theorem topLevelOf_eq (root : Node) : topLevelOf root =
    { bindings := bindAll [] (initializers root)
      defaultValue := lastValue? root
      defaultName := lastName? root
      namedExports := namedExports root
      assignments := assignments root } := by
  rw [topLevelOf, foldl_add]
  simp [initializers, exportedValues, defaultNames, namedExports, assignments, lastValue?, lastName?]

theorem find?_bindings (root : Node) (name : String) :
    (topLevelOf root).bindings.find? name = lastInitializer? root name := by
  rw [topLevelOf_eq, find?_bindAll]
  simp [lastInitializer?, Fields.find?]

/-! ### The rules -/

/-- The object literal has a member for a part of metadata. -/
def HasPart (object : Node) : Prop :=
  ∃ e ∈ Literal.entries object, e.key.name? = some "args" ∨ e.key.name? = some "argTypes"

/-- A rule finds a node. -/
def Matches (root : Node) : Provenance → Node → Prop
  | .defaultExport, n => lastValue? root = some n
  | .defaultExportedVariable, n => ∃ name, lastName? root = some name ∧ lastInitializer? root name = some n
  | .metaVariable, n => lastInitializer? root metaName = some n
  | .namedExport, n => n.is .object = true ∧ HasPart n ∧ ∃ name, (name, n) ∈ namedExports root
  | .memberAssignment, n => ∃ a ∈ assignments root, a.value = n ∧ ∃ m, (a.target, m) ∈ initializers root

/-- Where a rule stands among the five. -/
def Provenance.rank : Provenance → Nat
  | .defaultExport => 0
  | .defaultExportedVariable => 1
  | .metaVariable => 2
  | .namedExport => 3
  | .memberAssignment => 4

theorem isSome_ofKey? {key : String} :
    (Part.ofKey? key).isSome = true ↔ key = "args" ∨ key = "argTypes" := by
  rw [Part.ofKey?]
  split
  · simp [*]
  · split <;> simp [*]

theorem hasPart_iff {object : Node} : hasPart object = true ↔ HasPart object := by
  simp only [hasPart, HasPart, List.any_eq_true]
  refine exists_congr fun e => and_congr_right fun _ => ?_
  cases e.key.name? <;> simp [isSome_ofKey?]

theorem isSome_lastInitializer? {root : Node} {name : String} :
    (lastInitializer? root name).isSome = true ↔ ∃ m, (name, m) ∈ initializers root := by
  rw [lastInitializer?, Option.isSome_map, List.getLast?_isSome]
  constructor
  · intro h
    obtain ⟨⟨k, m⟩, hm⟩ := List.exists_mem_of_ne_nil _ h
    obtain ⟨hmem, hk⟩ := List.mem_filter.mp hm
    obtain rfl : k = name := of_decide_eq_true hk
    exact ⟨m, hmem⟩
  · rintro ⟨m, hm⟩ hnil
    have hmem : (name, m) ∈ (initializers root).filter (·.1 = name) := List.mem_filter.mpr ⟨hm, by simp⟩
    rw [hnil] at hmem
    cases hmem

theorem mem_found {root : Node} {d : Declaration} : d ∈ found (topLevelOf root) ↔
    (∃ n, lastValue? root = some n ∧ ⟨.defaultExport, none, n, none⟩ = d) ∨
    (∃ name, lastName? root = some name ∧ ∃ n, lastInitializer? root name = some n ∧
      ⟨.defaultExportedVariable, some name, n, none⟩ = d) ∨
    (∃ n, lastInitializer? root metaName = some n ∧ ⟨.metaVariable, some metaName, n, none⟩ = d) ∨
    (∃ name n, (name, n) ∈ namedExports root ∧ n.is .object = true ∧ HasPart n ∧
      ⟨.namedExport, some name, n, none⟩ = d) ∨
    (∃ a ∈ assignments root, (lastInitializer? root a.target).isSome = true ∧
      ⟨.memberAssignment, some a.target, a.value, some a.part⟩ = d) := by
  have htop := topLevelOf_eq root
  have hname : (topLevelOf root).defaultName = lastName? root := by rw [htop]
  have hvalue : (topLevelOf root).defaultValue = lastValue? root := by rw [htop]
  have hexports : (topLevelOf root).namedExports = namedExports root := by rw [htop]
  have hassignments : (topLevelOf root).assignments = assignments root := by rw [htop]
  simp [found, find?_bindings, hname, hvalue, hexports, hassignments, and_assoc, Option.bind_eq_some_iff,
    hasPart_iff]

/-- What the rules find is what they are stated to find. -/
theorem exists_found_iff {root n : Node} {rule : Provenance} :
    (∃ d ∈ found (topLevelOf root), d.provenance = rule ∧ d.node = n) ↔ Matches root rule n := by
  constructor
  · rintro ⟨d, hd, rfl, rfl⟩
    rcases mem_found.mp hd with ⟨n, hn, rfl⟩ | ⟨name, hname, n, hn, rfl⟩ | ⟨n, hn, rfl⟩ |
      ⟨name, n, hn, hobject, hpart, rfl⟩ | ⟨a, ha, hsome, rfl⟩
    · exact hn
    · exact ⟨name, hname, hn⟩
    · exact hn
    · exact ⟨hobject, hpart, name, hn⟩
    · exact ⟨a, ha, rfl, isSome_lastInitializer?.mp hsome⟩
  · intro h
    cases rule with
    | defaultExport => exact ⟨_, mem_found.mpr (.inl ⟨n, h, rfl⟩), rfl, rfl⟩
    | defaultExportedVariable =>
      obtain ⟨name, hname, hn⟩ := h
      exact ⟨_, mem_found.mpr (.inr (.inl ⟨name, hname, n, hn, rfl⟩)), rfl, rfl⟩
    | metaVariable => exact ⟨_, mem_found.mpr (.inr (.inr (.inl ⟨n, h, rfl⟩))), rfl, rfl⟩
    | namedExport =>
      obtain ⟨hobject, hpart, name, hn⟩ := h
      exact ⟨_, mem_found.mpr (.inr (.inr (.inr (.inl ⟨name, n, hn, hobject, hpart, rfl⟩)))), rfl, rfl⟩
    | memberAssignment =>
      obtain ⟨a, ha, rfl, hm⟩ := h
      exact ⟨_, mem_found.mpr (.inr (.inr (.inr (.inr ⟨a, ha, isSome_lastInitializer?.mpr hm, rfl⟩)))),
        rfl, rfl⟩

theorem pairwise_of_rank_eq {ds : List Declaration} {n : Nat} (h : ∀ d ∈ ds, d.provenance.rank = n) :
    ds.Pairwise (·.provenance.rank ≤ ·.provenance.rank) :=
  List.pairwise_of_forall_mem_list fun a ha b hb => Nat.le_of_eq ((h a ha).trans (h b hb).symm)

/-- Declarations of one rule may come before those of later ones. -/
theorem pairwise_rank_append {ds es : List Declaration} {n : Nat} (hds : ∀ d ∈ ds, d.provenance.rank = n)
    (hes : ∀ e ∈ es, n ≤ e.provenance.rank) (h : es.Pairwise (·.provenance.rank ≤ ·.provenance.rank)) :
    (ds ++ es).Pairwise (·.provenance.rank ≤ ·.provenance.rank) :=
  List.pairwise_append.mpr ⟨pairwise_of_rank_eq hds, h, fun d hd e he => by rw [hds d hd]; exact hes e he⟩

/-- What the rules find is in the order of the rules. -/
theorem pairwise_found (top : TopLevel) :
    (found top).Pairwise (·.provenance.rank ≤ ·.provenance.rank) := by
  simp only [found, List.append_assoc]
  refine pairwise_rank_append (n := 0) ?_ (by simp) (pairwise_rank_append (n := 1) ?_ ?_
    (pairwise_rank_append (n := 2) ?_ ?_ (pairwise_rank_append (n := 3) ?_ ?_
      (pairwise_of_rank_eq (n := 4) ?_)))) <;> intro d hd
  all_goals
    simp only [List.mem_append, Option.mem_toList, List.mem_map, Option.map_eq_some_iff,
      Option.bind_eq_some_iff] at hd
    grind [Provenance.rank]

/-! ### The first declaration of every node -/

/-- What a declaration is told apart by. -/
def Declaration.span (d : Declaration) : Source.Place × Source.Place := (d.node.start, d.node.stop)

theorem sameNode_iff {a b : Declaration} : a.sameNode b = true ↔ a.span = b.span := by
  simp [Declaration.sameNode, Declaration.span]

theorem any_sameNode_iff {seen : List Declaration} {d : Declaration} :
    seen.any d.sameNode = true ↔ d.span ∈ seen.map Declaration.span := by
  simp only [List.any_eq_true, sameNode_iff, List.mem_map]
  exact ⟨fun ⟨e, he, h⟩ => ⟨e, he, h.symm⟩, fun ⟨e, he, h⟩ => ⟨e, he, h.symm⟩⟩

section

variable {seen ds : List Declaration} {d e : Declaration}

theorem distinctNodes_sublist (ds seen : List Declaration) : (distinctNodes seen ds).Sublist ds := by
  induction ds generalizing seen with
  | nil => exact .slnil
  | cons d ds ih =>
    rw [distinctNodes]
    split
    · exact (ih seen).cons d
    · exact (ih (d :: seen)).cons_cons d

theorem span_notMem_of_mem_distinctNodes (ds seen : List Declaration) (h : d ∈ distinctNodes seen ds) :
    d.span ∉ seen.map Declaration.span := by
  induction ds generalizing seen with
  | nil => cases h
  | cons e ds ih =>
    rw [distinctNodes] at h
    split at h
    · exact ih seen h
    · rename_i hseen
      rcases List.mem_cons.mp h with rfl | h
      · rwa [any_sameNode_iff] at hseen
      · exact fun hmem => ih (e :: seen) h (List.mem_cons_of_mem _ hmem)

theorem nodup_span_distinctNodes (ds seen : List Declaration) :
    ((distinctNodes seen ds).map Declaration.span).Nodup := by
  induction ds generalizing seen with
  | nil => exact .nil
  | cons d ds ih =>
    rw [distinctNodes]
    split
    · exact ih seen
    · refine .cons (fun hmem => ?_) (ih (d :: seen))
      obtain ⟨e, he, hspan⟩ := List.mem_map.mp hmem
      exact span_notMem_of_mem_distinctNodes ds (d :: seen) he (by simp [hspan])

/-- Every declaration is kept itself, or an earlier one of its node is. -/
theorem exists_distinctNodes {R : Declaration → Declaration → Prop} (hrefl : ∀ a, R a a) :
    ∀ (ds seen : List Declaration), ds.Pairwise R → d ∈ ds → d.span ∉ seen.map Declaration.span →
      ∃ e ∈ distinctNodes seen ds, e.span = d.span ∧ R e d
  | e :: ds, seen, hR, hd, hseen => by
    obtain ⟨hhead, htail⟩ := List.pairwise_cons.mp hR
    rw [distinctNodes]
    split
    · rename_i hskip
      rw [any_sameNode_iff] at hskip
      rcases List.mem_cons.mp hd with rfl | hd
      · exact absurd hskip hseen
      · exact exists_distinctNodes hrefl ds seen htail hd hseen
    · by_cases hspan : e.span = d.span
      · refine ⟨e, by simp, hspan, ?_⟩
        rcases List.mem_cons.mp hd with rfl | hd
        · exact hrefl d
        · exact hhead d hd
      · have hd' : d ∈ ds := by
          rcases List.mem_cons.mp hd with rfl | hd
          · exact absurd rfl hspan
          · exact hd
        have hseen' : d.span ∉ (e :: seen).map Declaration.span := by
          rw [List.map_cons, List.mem_cons, not_or]
          exact ⟨fun h => hspan h.symm, hseen⟩
        obtain ⟨f, hf, hfd, hRf⟩ := exists_distinctNodes hrefl ds (e :: seen) htail hd' hseen'
        exact ⟨f, List.mem_cons_of_mem _ hf, hfd, hRf⟩

end

/-! ### The nodes in the order of the text -/

theorem inOrder_child {n c : Node} {role : Source.Role} (h : n.Orderly) (hc : n.child? role = some c) :
    c.Orderly ∧ n.start.byte ≤ c.start.byte ∧ c.stop.byte ≤ n.stop.byte := by
  obtain ⟨hstart, horderly, hstop⟩ := h.children.mem (List.mem_of_find?_eq_some hc)
  exact ⟨horderly, hstart, hstop⟩

theorem inOrder_unwrapped {n c : Node} {role : Source.Role} (h : n.Orderly) (hc : n.child? role = some c) :
    InOrder n.start.byte [c.unwrap] n.stop.byte := by
  obtain ⟨horderly, hstart, hstop⟩ := inOrder_child h hc
  exact (Node.Orderly.unwrap c horderly).mono hstart hstop

theorem inOrder_namedChildren {n : Node} {a b : Nat} (h : InOrder a n.children b) :
    InOrder a n.namedChildren b := h.sublist List.filter_sublist

/-- At most one node in place of each of the nodes, inside it. -/
theorem inOrder_filterMap {f : Node → Option Node} {a b : Nat} {ns : List Node} (h : InOrder a ns b)
    (hf : ∀ n m, n.Orderly → f n = some m → InOrder n.start.byte [m] n.stop.byte) :
    InOrder a (ns.filterMap f) b := by
  rw [List.filterMap_eq_flatMap_toList]
  refine h.flatMap fun n _ hn => ?_
  cases hm : f n with
  | none => exact .nil (Nat.le_of_lt hn.span)
  | some m => exact hf n m hn hm

theorem inOrder_bindingOf {n : Node} {e : String × Node} (h : n.Orderly) (he : bindingOf? n = some e) :
    InOrder n.start.byte [e.2] n.stop.byte := by
  rw [bindingOf?] at he
  split at he
  · split at he
    · rename_i hvalue
      split at he
      · cases he
        exact inOrder_unwrapped h hvalue
      · cases he
    · cases he
  · cases he

theorem inOrder_bindingsOf {n : Node} (h : n.Orderly) :
    InOrder n.start.byte ((bindingsOf n).map Prod.snd) n.stop.byte := by
  rw [bindingsOf, List.map_filterMap]
  refine inOrder_filterMap (inOrder_namedChildren h.children) fun c m hc hm => ?_
  obtain ⟨e, he, rfl⟩ := Option.map_eq_some_iff.mp hm
  exact inOrder_bindingOf hc he

theorem inOrder_assignmentOf {s : Node} {a : Assignment} (h : s.Orderly) (ha : assignmentOf? s = some a) :
    InOrder s.start.byte [a.value] s.stop.byte := by
  rw [assignmentOf?] at ha
  split at ha
  · cases ha
  · rename_i expression hfirst
    obtain ⟨hstart, horderly, hstop⟩ :=
      (inOrder_namedChildren h.children).mem (List.mem_of_head? hfirst)
    split at ha
    · split at ha
      · rename_i hright
        split at ha
        · split at ha
          · split at ha
            · obtain ⟨part, -, rfl⟩ := Option.map_eq_some_iff.mp ha
              exact (inOrder_unwrapped horderly hright).mono hstart hstop
            · cases ha
          · cases ha
        · cases ha
      · cases ha
    · cases ha

/-- The nodes of a statement that a rule may find. -/
def candidateNodes (s : Node) : List Node :=
  (exportedValue? s).toList ++ (initializersOf s).map Prod.snd ++
    (assignmentIn? s).toList.map Assignment.value

theorem inOrder_exportedVariables {s : Node} (h : s.Orderly) :
    InOrder s.start.byte ((exportedVariables s).map Prod.snd) s.stop.byte := by
  have hnone : InOrder s.start.byte [] s.stop.byte := .nil (Nat.le_of_lt h.span)
  rw [exportedVariables]
  split
  · cases hdeclaration : s.child? .declaration with
    | none => exact hnone
    | some declaration =>
      obtain ⟨horderly, hstart, hstop⟩ := inOrder_child h hdeclaration
      cases hvariables : isVariables declaration with
      | false => simpa [hvariables] using hnone
      | true => simpa [hvariables] using (inOrder_bindingsOf horderly).mono hstart hstop
  · exact hnone

theorem inOrder_candidateNodes {s : Node} (h : s.Orderly) :
    InOrder s.start.byte (candidateNodes s) s.stop.byte := by
  have hnone : InOrder s.start.byte [] s.stop.byte := .nil (Nat.le_of_lt h.span)
  cases hvariables : isVariables s with
  | true =>
    obtain ⟨hexport, hexpression⟩ := kinds_of_isVariables hvariables
    simpa [candidateNodes, exportedValue?, initializersOf, assignmentIn?, hvariables, hexport, hexpression]
      using inOrder_bindingsOf h
  | false =>
    cases hexport : s.is .exportStatement with
    | true =>
      have hexpression : s.is .expressionStatement = false := kind_unique hexport (by decide)
      cases hdefault : isDefaultExport s with
      | true =>
        cases hvalue : s.child? .value with
        | none =>
          simpa [candidateNodes, exportedValue?, initializersOf, exportedVariables, assignmentIn?,
            hvariables,
            hexport, hexpression, hdefault, hvalue] using hnone
        | some value =>
          simpa [candidateNodes, exportedValue?, initializersOf, exportedVariables, assignmentIn?,
            hvariables,
            hexport, hexpression, hdefault, hvalue] using inOrder_unwrapped h hvalue
      | false =>
        simpa [candidateNodes, exportedValue?, initializersOf, assignmentIn?, hvariables, hexport,
          hexpression,
          hdefault] using inOrder_exportedVariables h
    | false =>
      cases hexpression : s.is .expressionStatement with
      | true =>
        cases hassignment : assignmentOf? s with
        | none =>
          simpa [candidateNodes, exportedValue?, initializersOf, exportedVariables, assignmentIn?,
            hvariables,
            hexport, hexpression, hassignment] using hnone
        | some a =>
          simpa [candidateNodes, exportedValue?, initializersOf, exportedVariables, assignmentIn?,
            hvariables,
            hexport, hexpression, hassignment] using inOrder_assignmentOf h hassignment
      | false =>
        simpa [candidateNodes, exportedValue?, initializersOf, exportedVariables, assignmentIn?, hvariables,
          hexport, hexpression] using hnone

theorem mem_candidateNodes_of_initializer {root n : Node} {name : String}
    (h : (name, n) ∈ initializers root) : n ∈ root.namedChildren.flatMap candidateNodes := by
  obtain ⟨s, hs, hn⟩ := List.mem_flatMap.mp h
  refine List.mem_flatMap.mpr ⟨s, hs, ?_⟩
  exact List.mem_append_left _ (List.mem_append_right _ (List.mem_map_of_mem hn))

theorem mem_initializers_of_last {root n : Node} {name : String} (h : lastInitializer? root name = some n) :
    (name, n) ∈ initializers root := by
  obtain ⟨⟨k, m⟩, hlast, rfl⟩ := Option.map_eq_some_iff.mp h
  obtain ⟨hmem, hk⟩ := List.mem_filter.mp (List.mem_of_getLast? hlast)
  obtain rfl : k = name := of_decide_eq_true hk
  exact hmem

theorem namedExports_subset {root : Node} {e : String × Node} (h : e ∈ namedExports root) :
    e ∈ initializers root := by
  obtain ⟨s, hs, he⟩ := List.mem_flatMap.mp h
  refine List.mem_flatMap.mpr ⟨s, hs, ?_⟩
  cases hvariables : isVariables s with
  | true => simp [exportedVariables, (kinds_of_isVariables hvariables).1] at he
  | false => simpa [initializersOf, hvariables] using he

/-- What a rule finds is among the candidates. -/
theorem Matches.mem_candidateNodes {root n : Node} {rule : Provenance} (h : Matches root rule n) :
    n ∈ root.namedChildren.flatMap candidateNodes := by
  cases rule with
  | defaultExport =>
    obtain ⟨hmem, -⟩ := List.mem_filter.mp (List.mem_of_getLast? h)
    obtain ⟨s, hs, hn⟩ := List.mem_filterMap.mp hmem
    exact List.mem_flatMap.mpr ⟨s, hs, by simp [candidateNodes, hn]⟩
  | defaultExportedVariable =>
    obtain ⟨name, -, hn⟩ := h
    exact mem_candidateNodes_of_initializer (mem_initializers_of_last hn)
  | metaVariable => exact mem_candidateNodes_of_initializer (mem_initializers_of_last h)
  | namedExport =>
    obtain ⟨-, -, name, hn⟩ := h
    exact mem_candidateNodes_of_initializer (namedExports_subset hn)
  | memberAssignment =>
    obtain ⟨a, ha, rfl, -⟩ := h
    obtain ⟨s, hs, hassignment⟩ := List.mem_filterMap.mp ha
    exact List.mem_flatMap.mpr ⟨s, hs, by simp [candidateNodes, hassignment]⟩

/-- Nodes that rules find are one when they start at the same byte. -/
theorem Matches.eq_of_start {root m n : Node} {a b : Nat} (h : InOrder a root.children b)
    {rule rule' : Provenance} (hm : Matches root rule m) (hn : Matches root rule' n)
    (hstart : m.start.byte = n.start.byte) : m = n := by
  -- The candidates of one statement are inside it, and the statements come one after the other.
  have hcandidates : InOrder a (root.namedChildren.flatMap candidateNodes) b :=
    (inOrder_namedChildren h).flatMap fun s _ hs => inOrder_candidateNodes hs
  have hnodup : ((root.namedChildren.flatMap candidateNodes).map (·.start.byte)).Nodup :=
    List.pairwise_map.mpr (hcandidates.pairwise_start.imp Nat.ne_of_lt)
  exact List.inj_on_of_nodup_map hnodup hm.mem_candidateNodes hn.mem_candidateNodes hstart

/-! ### The located declarations -/

theorem mem_declarations {root : Node} {d : Declaration} :
    d ∈ declarations root ↔ d ∈ distinctNodes [] (found (topLevelOf root)) :=
  (List.mergeSort_perm _ _).mem_iff

theorem matches_of_mem_declarations {root : Node} {d : Declaration} (h : d ∈ declarations root) :
    Matches root d.provenance d.node :=
  exists_found_iff.mp ⟨d, (distinctNodes_sublist _ _).subset (mem_declarations.mp h), rfl, rfl⟩

/-- Of every node that a rule finds, a declaration by this rule or an earlier one is located. -/
theorem exists_mem_declarations {root n : Node} {a b : Nat} (h : InOrder a root.children b)
    {rule : Provenance} (hn : Matches root rule n) :
    ∃ d ∈ declarations root, d.node = n ∧ d.provenance.rank ≤ rule.rank := by
  obtain ⟨e, he, rfl, rfl⟩ := exists_found_iff.mpr hn
  obtain ⟨d, hd, hspan, hrank⟩ := exists_distinctNodes (fun _ => Nat.le_refl _) _ [] (pairwise_found _) he
    (by simp)
  rw [← mem_declarations] at hd
  have hstart : d.node.start = e.node.start := congrArg Prod.fst hspan
  exact ⟨d, hd, (matches_of_mem_declarations hd).eq_of_start h hn (by rw [hstart]), hrank⟩

theorem sorted_declarations (root : Node) :
    (declarations root).Pairwise fun a b => a.node.start.byte ≤ b.node.start.byte := by
  refine (List.pairwise_mergeSort ?_ ?_ _).imp of_decide_eq_true
  · intro a b c hab hbc
    exact decide_eq_true (Nat.le_trans (of_decide_eq_true hab) (of_decide_eq_true hbc))
  · intro a b
    simp [Nat.le_total]

end StoryManifest.Story
