import StoryManifest.Source.Program

/-!
Which fault of a tree is reported. The search walks through the tree and leaves out what is not marked as
faulty. Where the marks are right, it leaves out no fault: it finds the first faulty node in reading
order, and it finds one whenever there is one. It is over after fewer moves than the tree has nodes,
whatever is marked.
-/

namespace StoryManifest.Source

open Node (nodesIn)

variable {marked : Node → Bool} {root m n : Node} {ns ms : List Node} {w next : Walk}

/-! ### Marks -/

/-- The marks of some nodes are right: a node is marked when it, or one below it, is faulty. -/
def Marks (marked : Node → Bool) (ns : List Node) : Prop :=
  ∀ n ∈ ns, marked n = true ↔ ∃ m ∈ n.nodes, m.isFaulty = true

theorem Marks.subset (h : Marks marked ns) (hms : ms ⊆ ns) : Marks marked ms := fun n hn => h n (hms hn)

/-- Some node of a row has a fault when one of the row, or one below it, is faulty. -/
theorem anyFault_iff (hns : ∀ n ∈ ns, n.hasFault = true ↔ ∃ m ∈ n.nodes, m.isFaulty = true) :
    Node.anyFault ns = true ↔ ∃ m ∈ nodesIn ns, m.isFaulty = true := by
  induction ns with
  | nil => simp [Node.anyFault, nodesIn]
  | cons n ns ih =>
    have hn := hns n (by simp)
    have hrest := ih fun m hm => hns m (List.mem_cons_of_mem _ hm)
    simp [Node.anyFault, nodesIn, hn, hrest, or_and_right, exists_or]

/-- Whether a node has a fault tells whether a node of its tree is faulty. -/
theorem hasFault_iff (n : Node) : n.hasFault = true ↔ ∃ m ∈ n.nodes, m.isFaulty = true := by
  obtain ⟨label, role, start, stop, text, children⟩ := n
  have ih := anyFault_iff fun child (hchild : child ∈ children) => hasFault_iff child
  simp [Node.hasFault, Node.nodes, Node.isFaulty, ih]

theorem marks_hasFault (ns : List Node) : Marks Node.hasFault ns := fun n _ => hasFault_iff n

/-- Nothing faulty is in a tree that a search passes by: it is not marked, or it is one node that is
not faulty. -/
theorem Marks.find?_passed (h : Marks marked w.ahead) (hnode : w.node.isFaulty = false)
    (hpassed : marked w.node = true → w.node.children = []) : w.node.nodes.find? Node.isFaulty = none := by
  cases hmarked : marked w.node with
  | false =>
    rw [List.find?_eq_none]
    intro m hm hfaulty
    have hself : w.node ∈ w.ahead := by simp [Walk.ahead, Node.nodes_eq]
    rw [(h w.node hself).mpr ⟨m, hm, hfaulty⟩] at hmarked
    cases hmarked
  | true => simp [Node.nodes_eq, hpassed hmarked, nodesIn, hnode]

/-! ### The search -/

/-- Where the marks are right, a search finds the first faulty node of all that lies ahead. -/
theorem Marks.search?_eq (h : Marks marked w.ahead) : w.search? marked = w.ahead.find? Node.isFaulty := by
  fun_induction Walk.search? marked w with
  | case1 w hnode => simp [Walk.ahead, Node.nodes_eq, hnode]
  | case2 w hnode next hmove ih =>
    rw [Bool.not_eq_true] at hnode
    rcases Walk.move?_cases hmove with hinto | ⟨hpast, hpassed⟩
    · rw [ih (h.subset (by simp [hinto])), hinto, List.find?_cons_of_neg (by simp [hnode])]
    · have hnone := h.find?_passed hnode hpassed
      rw [ih (h.subset (by simp [hpast])), hpast, List.find?_append, hnone, Option.none_or]
  | case3 w hnode hmove =>
    rw [Bool.not_eq_true] at hnode
    obtain ⟨hend, hpassed⟩ := Walk.move?_eq_none hmove
    rw [hend, h.find?_passed hnode hpassed]

/-- Where a walk is after so many moves, unless it was over before. -/
def Walk.after? (marked : Node → Bool) : Nat → Walk → Option Walk
  | 0, w => some w
  | count + 1, w => (w.move? marked).bind (after? marked count)

theorem Walk.length_ahead_after? : ∀ {count : Nat} {w next : Walk}, w.after? marked count = some next →
    count + next.ahead.length ≤ w.ahead.length
  | 0, w, next, h => by
    obtain rfl := Option.some.inj h
    omega
  | count + 1, w, next, h => by
    obtain ⟨between, hmove, hrest⟩ := Option.bind_eq_some_iff.mp h
    have hfirst := length_ahead_move? hmove
    have hothers := length_ahead_after? hrest
    omega

/-- What a search finds is where its walk stands after some moves. -/
theorem Walk.exists_after?_of_search? (h : w.search? marked = some n) :
    ∃ count found, w.after? marked count = some found ∧ found.node = n := by
  fun_induction Walk.search? marked w with
  | case1 w hnode => exact ⟨0, w, rfl, Option.some.inj h⟩
  | case2 w hnode next hmove ih =>
    obtain ⟨count, found, hfound, hn⟩ := ih h
    exact ⟨count + 1, found, by rw [after?, hmove, Option.bind_some, hfound], hn⟩
  | case3 w hnode hmove => cases h

/-! ### Faults of trees -/

/-- Where the marks are right, a search from the root finds the first faulty node of the tree. -/
theorem Marks.search?_start (h : Marks marked root.nodes) :
    (Walk.start root).search? marked = root.nodes.find? Node.isFaulty := by
  rw [Marks.search?_eq (Walk.ahead_start root ▸ h), Walk.ahead_start]

/-- Where the marks are right, the fault of a tree is its first faulty node, and never the tree as
a whole. -/
theorem Marks.markedFault?_eq (h : Marks marked root.nodes) :
    markedFault? marked root = (root.nodes.find? Node.isFaulty).map .node := by
  have hroot := h root (by simp [Node.nodes_eq])
  cases hmarked : marked root with
  | false =>
    have hnone : root.nodes.find? Node.isFaulty = none := by
      rw [List.find?_eq_none]
      intro m hm hfaulty
      rw [hroot.mpr ⟨m, hm, hfaulty⟩] at hmarked
      cases hmarked
    rw [markedFault?_eq_none hmarked, hnone, Option.map_none]
  | true =>
    -- A tree that is marked has a faulty node, so the search does not come back with nothing.
    obtain ⟨m, hm, hfaulty⟩ := hroot.mp hmarked
    obtain ⟨n, hn⟩ := Option.isSome_iff_exists.mp (List.find?_isSome.mpr ⟨m, hm, hfaulty⟩)
    simp only [markedFault?, hmarked, if_true, h.search?_start, hn, Option.map_some]

/-- What is wrong with a node is told by its name or by its text, so never only that the syntax
is invalid. -/
theorem detail_node_ne (text : List Char) (n : Node) : (TreeFault.node n).detail text ≠
    "invalid syntax" := by
  intro h
  have hchars := congrArg (·.toList.head?) h
  simp only [TreeFault.detail, Node.faultDetail] at hchars
  split at hchars <;> simp [String.toList_append] at hchars

/-- A text is a program when no node of its tree is faulty; otherwise the first one that is faulty
is reported. -/
theorem Program.ofText_eq (v : Variant) (text : String) : Program.ofText v text =
    match (treeOf v text.toList).nodes.find? Node.isFaulty with
    | some n => .error ⟨n.start.row + 1, n.start.column + 1, n.faultDetail text.toList⟩
    | none => .ok ⟨v, text.toList, treeOf v text.toList⟩ := by
  rw [Program.ofText, syntaxFault?, (marks_hasFault _).markedFault?_eq]
  cases (treeOf v text.toList).nodes.find? Node.isFaulty <;> rfl

/-- The first fault of a tree whose marks are right. The search makes fewer moves than the tree has
nodes. It finds nothing exactly when no node is faulty; otherwise it stops at the first faulty node in
reading order, and that node is reported. -/
theorem markedFault?_first (h : Marks marked root.nodes) (text : List Char) :
    (∀ count w, (Walk.start root).after? marked count = some w → count < root.nodes.length) ∧
    (markedFault? marked root = none ↔ ∀ n ∈ root.nodes, n.isFaulty = false) ∧
    ∀ before n after, root.nodes = before ++ n :: after → (∀ m ∈ before, m.isFaulty = false) →
      n.isFaulty = true →
      (∃ count w, (Walk.start root).after? marked count = some w ∧ w.node = n) ∧
      ∃ fault, markedFault? marked root = some fault ∧
        fault.report text = ⟨n.start.row + 1, n.start.column + 1,
          if n.isMissing then "missing \x60" ++ n.kindName ++ "\x60"
          else "unexpected \x60" ++ snippet (n.textIn text) ++ "\x60"⟩ ∧
        (fault.report text).detail ≠ "invalid syntax" := by
  refine ⟨fun count w hw => ?_, ?_, fun before n after hnodes hbefore hn => ?_⟩
  · have hlength := Walk.length_ahead_after? hw
    rw [Walk.ahead_start] at hlength
    have hahead : 0 < w.ahead.length := by simp [Walk.ahead, Node.nodes_eq]
    omega
  · rw [h.markedFault?_eq, Option.map_eq_none_iff, List.find?_eq_none]
    simp
  · have hfirst : root.nodes.find? Node.isFaulty = some n :=
      List.find?_eq_some_iff_append.mpr ⟨hn, before, after, hnodes, fun m hm => by simp [hbefore m hm]⟩
    refine ⟨Walk.exists_after?_of_search? (h.search?_start.trans hfirst), .node n, ?_, rfl,
      detail_node_ne text n⟩
    rw [h.markedFault?_eq, hfirst, Option.map_some]

/-- A comment, then a block with a statement in it, text that could not be read, and no bracket at
its end. -/
def brokenTree : Node :=
  ⟨.named .program, none, .origin, ⟨12, 1, 7⟩, "",
    [.leaf (.named .comment) .origin ⟨4, 0, 4⟩ "// a",
      ⟨.named .block, none, ⟨5, 1, 0⟩, ⟨12, 1, 7⟩, "",
        [.leaf (.token "\x7b") ⟨5, 1, 0⟩ ⟨6, 1, 1⟩ "\x7b",
          ⟨.named .expressionStatement, none, ⟨7, 1, 2⟩, ⟨9, 1, 4⟩, "",
            [.leaf (.named .identifier) ⟨7, 1, 2⟩ ⟨8, 1, 3⟩ "a",
              .leaf (.token ";") ⟨8, 1, 3⟩ ⟨9, 1, 4⟩ ";"]⟩,
          .leaf .error ⟨10, 1, 5⟩ ⟨12, 1, 7⟩ "@@",
          .leaf (.missing "\x7d") ⟨12, 1, 7⟩ ⟨12, 1, 7⟩ ""]⟩]⟩

theorem markedFault?_first_brokenTree : Marks Node.hasFault brokenTree.nodes ∧
    markedFault? Node.hasFault brokenTree ≠ none ∧
    ∃ fault, markedFault? Node.hasFault brokenTree = some fault ∧
      fault.report "// a\n\x7b a; @@".toList = ⟨2, 6, "unexpected \x60@@\x60"⟩ := by
  obtain ⟨-, hnone, hfirst⟩ := markedFault?_first (marks_hasFault brokenTree.nodes) "// a\n\x7b a; @@".toList
  obtain ⟨-, fault, hfault, hreport, -⟩ := hfirst (brokenTree.nodes.take 7)
    (.leaf .error ⟨10, 1, 5⟩ ⟨12, 1, 7⟩ "@@") [.leaf (.missing "\x7d") ⟨12, 1, 7⟩ ⟨12, 1, 7⟩ ""]
    rfl (by decide) rfl
  refine ⟨marks_hasFault _, fun h => ?_, fault, hfault, hreport.trans (by decide +kernel)⟩
  rw [hfault] at h
  cases h

end StoryManifest.Source
