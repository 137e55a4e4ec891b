import StoryManifest.Source.Node

/-!
Walks over syntax trees. A walk stands at a node and goes on to the first child, to the next sibling or
back to the parent. The search for a fault walks in reading order and enters only the trees that are
marked as faulty.
-/

namespace StoryManifest.Source

namespace Node

mutual

/-- The node and all below it, in reading order. -/
def nodes : Node → List Node
  | ⟨label, role, start, stop, text, children⟩ =>
    ⟨label, role, start, stop, text, children⟩ :: nodesIn children

def nodesIn : List Node → List Node
  | [] => []
  | n :: rest => nodes n ++ nodesIn rest

end

theorem nodes_eq (n : Node) : n.nodes = n :: nodesIn n.children := by
  cases n
  rw [nodes]

end Node

/-- A walk over a tree: the node where it stands, the siblings after that node, and the nodes that were
entered on the way there, the innermost one first, each with the siblings after it. -/
structure Walk where
  node : Node
  later : List Node
  entered : List (Node × List Node)

namespace Walk

/-- A walk that starts at the root of a tree. -/
def start (root : Node) : Walk := ⟨root, [], []⟩

/-- On to the first child. -/
def firstChild? (w : Walk) : Option Walk :=
  match w.node.children with
  | [] => none
  | n :: rest => some ⟨n, rest, (w.node, w.later) :: w.entered⟩

/-- On to the next sibling. -/
def nextSibling? (w : Walk) : Option Walk :=
  match w.later with
  | [] => none
  | n :: rest => some ⟨n, rest, w.entered⟩

/-- Back to the parent. -/
def parent? (w : Walk) : Option Walk :=
  match w.entered with
  | [] => none
  | (n, later) :: outer => some ⟨n, later, outer⟩

theorem children_of_firstChild? {w : Walk} (h : w.firstChild? = none) : w.node.children = [] := by
  unfold firstChild? at h
  split at h
  · assumption
  · cases h

theorem later_of_nextSibling? {w : Walk} (h : w.nextSibling? = none) : w.later = [] := by
  unfold nextSibling? at h
  split at h
  · assumption
  · cases h

theorem entered_parent? {w above : Walk} (h : w.parent? = some above) :
    above.entered.length < w.entered.length := by
  unfold parent? at h
  split at h
  · cases h
  · rename_i hentered
    obtain rfl := Option.some.inj h
    simp [hentered]

/-- On to the node after the tree that the walk stands at: the next sibling, or that of the nearest node
around it that has one. -/
def leave? (w : Walk) : Option Walk :=
  match w.nextSibling? with
  | some next => some next
  | none =>
    match _h : w.parent? with
    | some above => above.leave?
    | none => none
termination_by w.entered.length
decreasing_by exact entered_parent? _h

/-- A move of a search: into a tree that is marked and has children, else past it. -/
def move? (marked : Node → Bool) (w : Walk) : Option Walk :=
  (if marked w.node then w.firstChild? else none).or w.leave?

/-! ### What lies ahead -/

/-- The nodes that a walk through everything has yet to see, in the order in which it sees them. -/
def ahead (w : Walk) : List Node :=
  w.node.nodes ++ (Node.nodesIn w.later ++ w.entered.flatMap fun e => Node.nodesIn e.2)

theorem ahead_start (root : Node) : (start root).ahead = root.nodes := by simp [ahead, start, Node.nodesIn]

theorem ahead_firstChild? {w next : Walk} (h : w.firstChild? = some next) :
    w.ahead = w.node :: next.ahead := by
  unfold firstChild? at h
  split at h
  · cases h
  · rename_i hchildren
    obtain rfl := Option.some.inj h
    rw [ahead, Node.nodes_eq, hchildren, Node.nodesIn]
    simp [ahead]

/-- Past the tree that a walk stands at lies what comes after it; where nothing does, the walk is over. -/
theorem ahead_of_leave? (w : Walk) : w.leave?.elim [] ahead =
    Node.nodesIn w.later ++ w.entered.flatMap fun e => Node.nodesIn e.2 := by
  fun_induction leave? w with
  | case1 w next hnext =>
    unfold nextSibling? at hnext
    split at hnext
    · cases hnext
    · rename_i hlater
      obtain rfl := Option.some.inj hnext
      simp [ahead, hlater, Node.nodesIn]
  | case2 w hnext above habove ih =>
    rw [ih, later_of_nextSibling? hnext]
    unfold parent? at habove
    split at habove
    · cases habove
    · rename_i hentered
      obtain rfl := Option.some.inj habove
      simp [hentered, Node.nodesIn]
  | case3 w hnext habove =>
    rw [later_of_nextSibling? hnext]
    unfold parent? at habove
    split at habove
    · rename_i hentered
      simp [hentered, Node.nodesIn]
    · cases habove

theorem ahead_eq_append {w next : Walk} (h : w.leave? = some next) :
    w.ahead = w.node.nodes ++ next.ahead := by
  rw [ahead, ← ahead_of_leave?, h, Option.elim_some]

theorem ahead_eq_nodes {w : Walk} (h : w.leave? = none) : w.ahead = w.node.nodes := by
  rw [ahead, ← ahead_of_leave?, h, Option.elim_none, List.append_nil]

/-- A move goes into a tree that is marked, or past a tree that is not marked or has nothing below it. -/
theorem move?_cases {marked : Node → Bool} {w next : Walk} (h : w.move? marked = some next) :
    w.ahead = w.node :: next.ahead ∨
      w.ahead = w.node.nodes ++ next.ahead ∧ (marked w.node = true → w.node.children = []) := by
  rw [move?, Option.or_eq_some_iff] at h
  rcases h with hinto | ⟨hinto, hpast⟩
  · rw [Option.ite_none_right_eq_some] at hinto
    exact .inl (ahead_firstChild? hinto.2)
  · refine .inr ⟨ahead_eq_append hpast, fun hmarked => ?_⟩
    rw [if_pos hmarked] at hinto
    exact children_of_firstChild? hinto

/-- A walk is over at a tree that is not marked or has nothing below it, and with nothing behind it. -/
theorem move?_eq_none {marked : Node → Bool} {w : Walk} (h : w.move? marked = none) :
    w.ahead = w.node.nodes ∧ (marked w.node = true → w.node.children = []) := by
  rw [move?, Option.or_eq_none_iff] at h
  refine ⟨ahead_eq_nodes h.2, fun hmarked => ?_⟩
  rw [if_pos hmarked] at h
  exact children_of_firstChild? h.1

/-- Every move leaves less ahead. -/
theorem length_ahead_move? {marked : Node → Bool} {w next : Walk} (h : w.move? marked = some next) :
    next.ahead.length < w.ahead.length := by
  rcases move?_cases h with hinto | ⟨hpast, -⟩
  · simp [hinto]
  · simp only [hpast, Node.nodes_eq, List.length_append, List.length_cons]
    omega

/-! ### The search -/

/-- The first faulty node that a search comes to. -/
def search? (marked : Node → Bool) (w : Walk) : Option Node :=
  if w.node.isFaulty then some w.node
  else
    match _h : w.move? marked with
    | some next => next.search? marked
    | none => none
termination_by w.ahead.length
decreasing_by exact length_ahead_move? _h

end Walk

end StoryManifest.Source
