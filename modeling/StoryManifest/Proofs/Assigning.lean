import StoryManifest.Proofs.TextOrder

/-!
Assignments to the metadata of a name. Only variables with an initial value count: an object literal
that is assigned is read exactly when its name is such a variable, exported or not, declared before
or after, and then all its named keys are names of properties. An assignment for a function or a
class is passed over.
-/

namespace StoryManifest.Story

open Source (Node Program InOrder parsed ofText_eq_parsed)

/-! ### Names that are declared -/

/-- The names of the variables in a declaration, with initial values or without. -/
def variableNames (n : Node) : List String :=
  (n.namedChildren.filter (·.is .variableDeclarator)).filterMap fun d =>
    ((d.child? .name).filter (·.is .identifier)).map Node.text

/-- The name of the function or the class that a node declares. -/
def functionOrClass? (n : Node) : Option String :=
  if n.is .declaration && n.children.any (fun c => c.isToken "function" || c.isToken "class") then
    (n.child? .name).map Node.text
  else none

/-- The names of the variables, the function or the class that a node declares. -/
def namesDeclared (n : Node) : List String :=
  (if isVariables n then variableNames n else []) ++ (functionOrClass? n).toList

/-- The declaration that a statement is or exports. -/
def declarationIn? (s : Node) : Option Node :=
  if s.is .exportStatement then s.child? .declaration else some s

/-- The names of variables, functions and classes that are declared at the top level, exported or not. -/
def declaredNames (root : Node) : List String :=
  root.namedChildren.flatMap fun s => (declarationIn? s).toList.flatMap namesDeclared

theorem mem_variableNames {n m : Node} {name : String} (h : (name, m) ∈ bindingsOf n) :
    name ∈ variableNames n := by
  obtain ⟨d, hd, hbinding⟩ := List.mem_filterMap.mp h
  rw [bindingOf?] at hbinding
  split at hbinding
  · rename_i hkind
    split at hbinding
    · rename_i hname _
      split at hbinding
      · rename_i hidentifier
        cases hbinding
        exact List.mem_filterMap.mpr ⟨d, List.mem_filter.mpr ⟨hd, hkind⟩,
          by simp [hname, hidentifier, Option.filter_some]⟩
      · cases hbinding
    · cases hbinding
  · cases hbinding

/-- A variable with an initial value is among the names that are declared. -/
theorem boundNames_subset (root : Node) : boundNames root ⊆ declaredNames root := by
  intro name hname
  obtain ⟨⟨name, m⟩, hm, rfl⟩ := List.mem_map.mp hname
  obtain ⟨s, hs, hm⟩ := List.mem_flatMap.mp hm
  have hdeclaration : ∃ d, declarationIn? s = some d ∧ isVariables d = true ∧ (name, m) ∈ bindingsOf d := by
    rw [initializersOf] at hm
    split at hm
    · rename_i hvariables
      exact ⟨s, by simp [declarationIn?, (kinds_of_isVariables hvariables).1], hvariables, hm⟩
    · rw [exportedVariables] at hm
      split at hm
      · rename_i hexport
        obtain ⟨d, hd, hm⟩ := List.mem_flatMap.mp hm
        obtain ⟨hd, hvariables⟩ := List.mem_filter.mp hd
        exact ⟨d, by simp [declarationIn?, (Bool.and_eq_true_iff.mp hexport).1, Option.mem_toList.mp hd],
          hvariables, hm⟩
      · cases hm
  obtain ⟨d, hd, hvariables, hm⟩ := hdeclaration
  refine List.mem_flatMap.mpr ⟨s, hs, List.mem_flatMap.mpr ⟨d, by simp [hd], ?_⟩⟩
  exact List.mem_append_left _ (by rw [if_pos hvariables]; exact mem_variableNames hm)

/-! ### Assignments that are read -/

section

variable {root : Node} {a b : Nat}

/-- Offers of nodes that share a byte are one. -/
theorem eq_of_overlap (h : InOrder a root.children b) {o o' : Offer} (ho : o ∈ offers root)
    (ho' : o' ∈ offers root) (hstart : o.node.start.byte ≤ o'.node.start.byte)
    (hstop : o'.node.start.byte < o.node.stop.byte) : o' = o := by
  have horder := inOrder_offers h
  have hdisjoint : (offers root).Pairwise fun o o' => o.node.stop.byte ≤ o'.node.start.byte :=
    List.pairwise_map.mp horder.pairwise_stop
  obtain ⟨before, later, hoffers⟩ := List.append_of_mem ho
  rw [hoffers, List.pairwise_append, List.pairwise_cons] at hdisjoint
  obtain ⟨-, ⟨hlater, -⟩, hbefore⟩ := hdisjoint
  rw [hoffers] at ho'
  rcases List.mem_append.mp ho' with hmem | hmem
  · have hspan := (horder.mem (List.mem_map_of_mem (by simp [hoffers, hmem] : o' ∈ offers root))).2.1.span
    have hle := hbefore o' hmem o List.mem_cons_self
    omega
  · rcases List.mem_cons.mp hmem with rfl | hmem
    · rfl
    · have hle := hlater o' hmem
      omega

theorem mem_offers_of_assignment {x : Assignment} (h : x ∈ assignments root) :
    Offer.assignment x ∈ offers root := by
  rw [assignments_eq] at h
  obtain ⟨o, ho, hassignment⟩ := List.mem_filterMap.mp h
  rwa [← eq_assignment_of_assignment? hassignment]

/-- What an assignment is declared as. -/
def Assignment.declaration (x : Assignment) : Declaration :=
  ⟨.memberAssignment, some x.target, x.value, some x.part⟩

/-- An assignment for a variable with an initial value is located. -/
theorem declaration_mem_declarations (h : InOrder a root.children b) {x : Assignment}
    (hx : x ∈ assignments root)
    (hbound : x.target ∈ boundNames root) : x.declaration ∈ declarations root := by
  rw [declarations_eq h]
  obtain ⟨before, later, hoffers⟩ := List.append_of_mem (mem_offers_of_assignment hx)
  exact Offer.mem_declarations.mpr ⟨before, _, later, hoffers, if_pos hbound⟩

/-- An object literal that is assigned is read exactly when the name is a variable with an initial value. -/
theorem mem_consumed_iff (h : InOrder a root.children b) {x : Assignment} (hx : x ∈ assignments root)
    (hobject : x.value.is .object = true) : x.value ∈ consumed root ↔ x.target ∈ boundNames root := by
  constructor
  · intro hmem
    obtain ⟨d, hd, hvalue⟩ := List.mem_flatMap.mp hmem
    have hd' : d ∈ offered root := declarations_eq h ▸ hd
    obtain ⟨before, o, later, hoffers, ho⟩ := Offer.mem_declarations.mp hd'
    have hnode := Offer.node_of_declaration? ho
    -- What is read of a declaration lies in its node, and no other offer does.
    obtain ⟨-, horderly, -⟩ := (inOrder_offered h).mem (List.mem_map_of_mem hd')
    obtain ⟨hstart, hvalue, hstop⟩ := (inOrder_consumedOf horderly).mem hvalue
    have hspan := hvalue.span
    rw [hnode] at hstart hstop
    have heq : Offer.assignment x = o := eq_of_overlap h (by simp [hoffers]) (mem_offers_of_assignment hx)
      hstart (Nat.lt_of_lt_of_le hspan hstop)
    rw [← heq, Offer.declaration?] at ho
    split at ho
    · assumption
    · cases ho
  · intro hbound
    refine List.mem_flatMap.mpr ⟨_, declaration_mem_declarations h hx hbound, ?_⟩
    simp [consumedOf, Assignment.declaration, hobject]

end

section

variable {v : Source.Variant} {text : String} {p : Program}

/-- The named keys of an object literal that is read are names of properties. -/
theorem mem_names_of_consumed (h : Program.ofText v text = .ok p) {n key : Node} {name : String}
    (hn : n ∈ consumed p.root) (hkey : (name, key) ∈ namedKeys n) :
    name ∈ (extract p).properties.map (·.name) := by
  rw [names_properties h]
  exact List.mem_eraseDups.mpr (List.mem_map_of_mem (List.mem_flatMap.mpr ⟨n, hn, hkey⟩))

/-- An object literal that is assigned to a part of metadata of a name is read exactly when the name
is a variable that a declaration at the top level, exported or not, before or after, gives an
initial value. Then it is a candidate for this part with all its named members, and their names are
names of properties. -/
theorem assigned_read_iff (h : Program.ofText v text = .ok p) {x : Assignment} (hx : x ∈ assignments p.root)
    (hobject : x.value.is .object = true) :
    (x.value ∈ consumed p.root ↔ x.target ∈ boundNames p.root) ∧
    (x.target ∈ boundNames p.root → x.target ∈ declaredNames p.root ∧
      (∃ c ∈ (locate p).candidates, c.part = x.part ∧ c.declaration = x.target ++ "." ++ x.part.key ∧
        c.position = x.value.start.byte ∧
          c.entries = (Literal.entries x.value).filterMap candidateEntryOf?) ∧
      ∀ name key, (name, key) ∈ namedKeys x.value → name ∈ (extract p).properties.map (·.name)) := by
  obtain ⟨b, horder⟩ := Source.inOrder_root h
  have hread := mem_consumed_iff horder hx hobject
  refine ⟨hread, fun hbound => ⟨boundNames_subset _ hbound, ?_, fun name key hkey => ?_⟩⟩
  · refine ⟨⟨x.part, .memberAssignment, x.target ++ "." ++ x.part.key, x.value.start.byte, x.value.line,
      (Literal.entries x.value).filterMap candidateEntryOf?⟩, ?_, rfl, rfl, rfl, rfl⟩
    rw [candidates_eq horder]
    refine List.mem_flatMap.mpr ⟨_, declaration_mem_declarations horder hx hbound, ?_⟩
    simp [candidatesOf, candidateOf, Assignment.declaration, Declaration.label, hobject]
  · exact mem_names_of_consumed h (hread.mpr hbound) hkey

end

/-- A variable that is exported after metadata was assigned to it. -/
def assignedVariable : String := "Primary.args=\x7bwide:true\x7d;export const Primary=T.bind(\x7b\x7d);"

theorem assigned_read_iff_assignedVariable : ∃ (p : Program) (x : Assignment),
    Program.ofText .tsx assignedVariable = .ok p ∧ x ∈ assignments p.root ∧ x.value.is .object = true ∧
    x.value ∈ consumed p.root ∧ x.target ∈ declaredNames p.root ∧
    (∃ c ∈ (locate p).candidates, c.part = x.part ∧ c.declaration = x.target ++ "." ++ x.part.key ∧
      c.position = x.value.start.byte ∧ c.entries = (Literal.entries x.value).filterMap candidateEntryOf?) ∧
    ∀ name key, (name, key) ∈ namedKeys x.value → name ∈ (extract p).properties.map (·.name) := by
  let p := parsed .tsx assignedVariable
  have ⟨hp, hassigned⟩ : (Source.syntaxFault? p.root).isNone = true ∧
      (assignments p.root).any (fun x => x.value.is .object && x.target ∈ boundNames p.root) = true := by
    decide +kernel
  have hp := ofText_eq_parsed .tsx assignedVariable hp
  obtain ⟨x, hx, hassigned⟩ := List.any_eq_true.mp hassigned
  obtain ⟨hobject, hbound⟩ := Bool.and_eq_true_iff.mp hassigned
  have hbound := of_decide_eq_true hbound
  obtain ⟨hread, hcandidate⟩ := assigned_read_iff hp hx hobject
  exact ⟨p, x, hp, hx, hobject, hread.mpr hbound, hcandidate hbound⟩

/-- A function with metadata assigned to it. -/
def assignedFunction : String := "function Primary()\x7b\x7d Primary.args=\x7bwide:true\x7d;"

/-- An object literal that is assigned to a function at the top level is not read. -/
theorem assigned_not_read : ∃ (p : Program) (x : Assignment),
    Program.ofText .tsx assignedFunction = .ok p ∧ x ∈ assignments p.root ∧ x.value.is .object = true ∧
    x.target ∈ declaredNames p.root ∧ x.value ∉ consumed p.root ∧ (locate p).candidates = [] ∧
    (extract p).properties = [] := by
  let p := parsed .tsx assignedFunction
  have ⟨hp, hassigned, hconsumed, hcandidates, hproperties⟩ : (Source.syntaxFault? p.root).isNone = true ∧
      (assignments p.root).any (fun x => x.value.is .object && x.target ∈ declaredNames p.root) = true ∧
      (consumed p.root).isEmpty = true ∧ (locate p).candidates.isEmpty = true ∧
      (extract p).properties.isEmpty = true := by
    decide +kernel
  obtain ⟨x, hx, hassigned⟩ := List.any_eq_true.mp hassigned
  obtain ⟨hobject, hdeclared⟩ := Bool.and_eq_true_iff.mp hassigned
  rw [List.isEmpty_iff] at hconsumed hcandidates hproperties
  exact ⟨p, x, ofText_eq_parsed .tsx assignedFunction hp, hx, hobject, of_decide_eq_true hdeclared,
    hconsumed ▸ List.not_mem_nil, hcandidates, hproperties⟩

end StoryManifest.Story
