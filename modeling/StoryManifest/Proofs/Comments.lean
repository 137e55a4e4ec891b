import StoryManifest.Proofs.Correspondence

/-!
Comments do not count. A tree without its comments is compared with the tree that it was: what is left
stands where it stood, in the same roles, and comments have no role and nothing below them. So expressions
keep their values, the rules find the same declarations, and these come to the same properties.
-/

namespace StoryManifest.Source

/-! ### Trees without comments -/

mutual

/-- The tree without the comments in it, at every depth. All else stays where it was. -/
def Node.withoutComments : Node → Node
  | ⟨label, role, start, stop, text, children⟩ =>
    ⟨label, role, start, stop, text, Node.withoutCommentsIn children⟩

def Node.withoutCommentsIn : List Node → List Node
  | [] => []
  | n :: rest =>
    if n.is .comment then Node.withoutCommentsIn rest
    else n.withoutComments :: Node.withoutCommentsIn rest

end

/-- The text with its tree without comments. -/
def Program.withoutComments (p : Program) : Program := { p with root := p.root.withoutComments }

/-- The nodes of a tree, the root among them. -/
inductive Node.Within (root : Node) : Node → Prop
  | root : Within root root
  | child {n c : Node} : Within root n → c ∈ n.children → Within root c

namespace Node

variable {n c root : Node} {a b : Nat} {ns : List Node}

theorem withoutCommentsIn_eq (ns : List Node) :
    withoutCommentsIn ns = (ns.filter (!·.is .comment)).map withoutComments := by
  induction ns with
  | nil => rfl
  | cons n ns ih => cases hn : n.is .comment <;> simp [withoutCommentsIn, hn, ih]

theorem withoutComments_eq (n : Node) : n.withoutComments =
    { n with children := (n.children.filter (!·.is .comment)).map withoutComments } := by
  cases n
  rw [withoutComments, withoutCommentsIn_eq]

@[simp] theorem label_withoutComments (n : Node) : n.withoutComments.label = n.label := by
  rw [withoutComments_eq]

@[simp] theorem children_withoutComments (n : Node) :
    n.withoutComments.children = (n.children.filter (!·.is .comment)).map withoutComments := by
  rw [withoutComments_eq]

theorem is_withoutComments (n : Node) (kind : Kind) : n.withoutComments.is kind = n.is kind := by
  rw [Node.is, Node.is, label_withoutComments]

theorem isNamed_withoutComments (n : Node) : n.withoutComments.isNamed = n.isNamed := by
  rw [isNamed, isNamed, label_withoutComments]

/-- The named children that are left are the parts of the grammar. -/
theorem namedChildren_withoutComments (n : Node) :
    n.withoutComments.namedChildren = n.parts.map withoutComments := by
  rw [namedChildren, children_withoutComments, List.filter_map, List.filter_filter]
  exact congrArg _
    (List.filter_congr fun c _ => by rw [Function.comp_apply, isNamed_withoutComments, isPart])

theorem Tidy.within (h : root.Tidy) (hn : root.Within n) : n.Tidy := by
  induction hn with
  | root => exact h
  | child _ hc ih => exact ih.children _ hc

end Node

/-- What is left of nodes in order is in order. -/
theorem InOrder.withoutComments {a b : Nat} {ns : List Node} (h : InOrder a ns b) :
    InOrder a ((ns.filter (!·.is .comment)).map Node.withoutComments) b := by
  induction h with
  | nil h => exact .nil h
  | @cons a b n ns hstart hspan _ _ hchildren hrest =>
    cases hn : n.is .comment with
    | true =>
      rw [List.filter_cons_of_neg (by simp [hn])]
      exact hrest.mono (by omega) (Nat.le_refl _)
    | false =>
      rw [List.filter_cons_of_pos (by simp [hn]), List.map_cons, Node.withoutComments_eq n]
      exact .cons hstart hspan hchildren hrest

/-! ### Likeness -/

/-- A tidy tree and the same tree without its comments. -/
def Uncommented (m n : Node) : Prop := m.Tidy ∧ n = m.withoutComments

theorem thinned_filter {ns : List Node} (h : ∀ n ∈ ns, n.Tidy) :
    Thinned ns (ns.filter (!·.is .comment)) := by
  induction ns with
  | nil => exact .nil
  | cons n ns ih =>
    have hrest := ih fun m hm => h m (List.mem_cons_of_mem _ hm)
    cases hn : n.is .comment with
    | true =>
      obtain ⟨hrole, hchildren⟩ := (h n (by simp)).comment hn
      rw [List.filter_cons_of_neg (by simp [hn])]
      exact .drop ⟨hn, hrole, hchildren⟩ hrest
    | false =>
      rw [List.filter_cons_of_pos (by simp [hn])]
      exact .keep hrest

/-- Where the first child is the only part that can be, comments do not come before it. -/
theorem IsHeaded.head?_parts {n : Node} (h : IsHeaded n.children) :
    n.namedChildren.head?.filter Node.isPart = n.parts.head? := by
  rw [Node.namedChildren, Node.parts]
  cases hchildren : n.children with
  | nil => rfl
  | cons c rest =>
    obtain ⟨hc, hrest⟩ := h c rest hchildren
    have hparts : rest.filter Node.isPart = [] := List.filter_eq_nil_iff.mpr fun m hm => by simp [hrest m hm]
    cases hnamed : c.isNamed with
    | true => simp [Node.isPart, hnamed, hc, Option.filter_some]
    | false =>
      have hpart : c.isPart = false := by rw [Node.isPart, hnamed, Bool.false_and]
      rw [List.filter_cons_of_neg (by simp [hnamed]), List.filter_cons_of_neg (by simp [hpart]), hparts]
      refine Option.filter_eq_none_iff.mpr fun m hm => ?_
      simp [hrest m (List.mem_of_mem_filter (List.mem_of_head? hm))]

/-- Without its comments, a tidy tree is like it was. -/
theorem likeness_uncommented : Likeness Uncommented where
  label := by
    rintro m _ ⟨-, rfl⟩
    exact m.label_withoutComments.symm
  text := by
    rintro m _ ⟨-, rfl⟩
    rw [Node.withoutComments_eq]
  children := by
    rintro m _ ⟨hm, rfl⟩
    refine ⟨_, _, thinned_filter hm.children, .refl _, ?_⟩
    rw [Node.children_withoutComments, List.forall₂_map_right_iff, List.forall₂_same]
    exact fun c hc =>
      .same (by rw [Node.withoutComments_eq]) ⟨hm.children c (List.mem_of_mem_filter hc), rfl⟩
  expression := by
    rintro m _ ⟨hm, rfl⟩ hkind
    rw [(hm.headed hkind).head?_parts, Node.namedChildren_withoutComments, List.head?_map]
    cases hhead : m.parts.head? with
    | none => exact .none
    | some c =>
      obtain ⟨hmem, hpart⟩ := List.mem_filter.mp (List.mem_of_head? hhead)
      have hpart' : c.withoutComments.isPart = true := by
        rwa [Node.isPart, Node.isNamed_withoutComments, Node.is_withoutComments]
      rw [Option.map_some, Option.filter_some, hpart']
      exact .some ⟨hm.children c hmem, rfl⟩

end StoryManifest.Source

namespace StoryManifest.Story

open Source (Node Program InOrder holdsValue_of_is likeness_uncommented parsed ofText_eq_parsed)
open Literal (evaluate)

/-! ### Programs without comments -/

/-- The declaration of a value without the comments in it. -/
def Declaration.withoutComments (d : Declaration) : Declaration := { d with node := d.node.withoutComments }

/-- A program without statements declares nothing. -/
theorem locate_of_no_statements {p : Program} (h : p.root.namedChildren = []) : locate p = ⟨[], [], []⟩ := by
  have hdeclarations : declarations p.root = [] := by
    rw [declarations, topLevelOf, h]
    exact List.mergeSort_nil
  rw [locate, hdeclarations]
  simp

theorem Declaration.Same.eq_withoutComments {d e : Declaration} (h : d.Same Source.Uncommented e) :
    d.withoutComments = e := by
  obtain ⟨provenance, name, node, part⟩ := d
  obtain ⟨hprovenance, hname, hpart, -, hnode⟩ := h
  rw [Declaration.withoutComments, hprovenance, hname, hpart, ← hnode]

/-- Without the comments in its tree, every text has the same declarations, with the same contents, and
so the same properties, and every expression in the tree has the same value. -/
theorem extract_withoutComments (v : Source.Variant) (text : String) :
    (∀ n, (parsed v text).root.Within n → evaluate n.withoutComments = evaluate n) ∧
    (locate (parsed v text).withoutComments).declarations =
      (locate (parsed v text)).declarations.map Declaration.withoutComments ∧
    (locate (parsed v text).withoutComments).candidates.map Candidate.content =
      (locate (parsed v text)).candidates.map Candidate.content ∧
    (extract (parsed v text).withoutComments).properties = (extract (parsed v text)).properties := by
  have hR := likeness_uncommented
  have htidy := Source.tidy_parsed v text
  refine ⟨fun n hn => (hR.evaluate_eq ⟨htidy.within hn, rfl⟩).symm, ?_⟩
  rcases Source.parsed_cases v text with ⟨hkind, b, hp⟩ | hnone
  · have hq : InOrder 0 (parsed v text).withoutComments.root.children b := by
      rw [Program.withoutComments, Node.children_withoutComments]
      exact hp.withoutComments
    have hdeclarations := declarations_same hR hp hq ⟨htidy, rfl⟩ fun role => holdsValue_of_is hkind rfl role
    obtain ⟨hcontents, hproperties⟩ := extract_same hR hp hq hdeclarations
    have hsame := forall₂_map_eq hdeclarations fun _ _ h => h.eq_withoutComments
    rw [List.map_id'] at hsame
    exact ⟨hsame.symm, hcontents.symm, hproperties.symm⟩
  · have hnone' : (parsed v text).withoutComments.root.namedChildren = [] := by
      have hparts : (parsed v text).root.parts = [] := by
        rw [Source.parts_eq, hnone, List.filter_nil]
      rw [Program.withoutComments, Node.namedChildren_withoutComments, hparts, List.map_nil]
    have hlocate : locate (parsed v text).withoutComments = locate (parsed v text) := by
      rw [locate_of_no_statements hnone, locate_of_no_statements hnone']
    refine ⟨?_, by rw [hlocate], by rw [extract, extract, hlocate]⟩
    rw [hlocate, locate_of_no_statements hnone, List.map_nil]

/-- Comments between all kinds of tokens: before a statement, next to commas, in parentheses, by
an operator. -/
def scattered : String :=
  "/*a*/export default(/*b*/\x7bargs:/*c*/\x7bx/*d*/:[/*e*/1/*f*/,-/*g*/2]\x7d/*h*/\x7d as/*i*/T);//j"

/-- The value that the first statement exports is a node of the tree. -/
theorem exists_within_of_value {root : Node} (h : (root.parts.head?.bind (·.child? .value)).isSome = true) :
    ∃ n, root.Within n ∧ n.role = some .value := by
  obtain ⟨n, hn⟩ := Option.isSome_iff_exists.mp h
  obtain ⟨s, hs, hn⟩ := Option.bind_eq_some_iff.mp hn
  have hmem : s ∈ root.children := List.mem_of_mem_filter (List.mem_of_head? hs)
  exact ⟨n, .child (.child .root hmem) (List.mem_of_find?_eq_some hn), by simpa using List.find?_some hn⟩

theorem extract_withoutComments_scattered :
    Program.ofText .tsx scattered = .ok (parsed .tsx scattered) ∧
    (parsed .tsx scattered).root.children.any (·.is .comment) = true ∧
    (∃ n, (parsed .tsx scattered).root.Within n ∧ n.role = some .value ∧
      evaluate n.withoutComments = evaluate n) ∧
    (locate (parsed .tsx scattered).withoutComments).declarations =
      (locate (parsed .tsx scattered)).declarations.map Declaration.withoutComments ∧
    (locate (parsed .tsx scattered).withoutComments).candidates.map Candidate.content =
      (locate (parsed .tsx scattered)).candidates.map Candidate.content ∧
    (extract (parsed .tsx scattered).withoutComments).properties =
      (extract (parsed .tsx scattered)).properties := by
  have ⟨haccepted, hcomment, hvalue⟩ : (Source.syntaxFault? (parsed .tsx scattered).root).isNone = true ∧
      (parsed .tsx scattered).root.children.any (·.is .comment) = true ∧
      ((parsed .tsx scattered).root.parts.head?.bind (·.child? .value)).isSome = true := by decide +kernel
  obtain ⟨n, hwithin, hrole⟩ := exists_within_of_value hvalue
  obtain ⟨hevaluate, hsame⟩ := extract_withoutComments .tsx scattered
  exact ⟨ofText_eq_parsed .tsx scattered haccepted, hcomment,
    ⟨n, hwithin, hrole, hevaluate n hwithin⟩, hsame⟩

end StoryManifest.Story
