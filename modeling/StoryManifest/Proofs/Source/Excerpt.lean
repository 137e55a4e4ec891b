import StoryManifest.Source.Program

/-!
Parts of programs, taken out of their texts. An excerpt keeps the tree and the text that each node covers;
where it stood is forgotten, places are counted from a point of the text instead.
-/

namespace StoryManifest.Source

/-! ### Excerpts -/

/-- A node taken out of its program: how many bytes after a point it starts, and the text it covers. -/
inductive Excerpt where
  | mk (label : Label) (role : Option Role) (offset : Int) (text covered : String)
    (children : List Excerpt)

/-- What an excerpt is an excerpt of. -/
def Excerpt.label : Excerpt → Label
  | .mk label _ _ _ _ _ => label

mutual

def Excerpt.decEq : (x y : Excerpt) → Decidable (x = y)
  | .mk label role offset text covered xs, .mk label' role' offset' text' covered' ys =>
    match Excerpt.decEqAll xs ys with
    | isTrue h =>
      decidable_of_iff (label = label' ∧ role = role' ∧ offset = offset' ∧ text = text' ∧ covered = covered')
        (by simp [h])
    | isFalse h => isFalse (by simp [h])

def Excerpt.decEqAll : (xs ys : List Excerpt) → Decidable (xs = ys)
  | [], [] => isTrue rfl
  | [], _ :: _ => isFalse (by simp)
  | _ :: _, [] => isFalse (by simp)
  | x :: xs, y :: ys =>
    match Excerpt.decEq x y, Excerpt.decEqAll xs ys with
    | isTrue h, isTrue hs => isTrue (by rw [h, hs])
    | isFalse h, _ => isFalse (by simp [h])
    | _, isFalse hs => isFalse (by simp [hs])

end

instance : DecidableEq Excerpt := Excerpt.decEq

namespace Program

mutual

/-- A node taken out of a program, its places counted from a byte. -/
def excerpt (p : Program) (origin : Nat) : Node → Excerpt
  | ⟨label, role, start, stop, text, children⟩ =>
    .mk label role (start.byte - origin) text (p.textOf ⟨label, role, start, stop, text, children⟩)
      (excerpts p origin children)

def excerpts (p : Program) (origin : Nat) : List Node → List Excerpt
  | [] => []
  | n :: rest => excerpt p origin n :: excerpts p origin rest

end

/-- A statement taken out of the text, its places counted from its own start. -/
def statement (p : Program) (s : Node) : Excerpt := p.excerpt s.start.byte s

/-- The statements at the top level, each taken out of the text. -/
def statements (p : Program) : List Excerpt := p.root.namedChildren.map fun s => p.excerpt s.start.byte s

theorem excerpts_eq (p : Program) (origin : Nat) (ns : List Node) :
    p.excerpts origin ns = ns.map (p.excerpt origin) := by
  induction ns with
  | nil => rfl
  | cons n ns ih => rw [excerpts, ih, List.map_cons]

theorem excerpt_eq (p : Program) (origin : Nat) (n : Node) : p.excerpt origin n =
    .mk n.label n.role (n.start.byte - origin) n.text (p.textOf n) (n.children.map (p.excerpt origin)) := by
  cases n
  rw [excerpt, excerpts_eq]

@[simp] theorem label_excerpt (p : Program) (origin : Nat) (n : Node) :
    (p.excerpt origin n).label = n.label := by
  rw [excerpt_eq, Excerpt.label]

end Program

end StoryManifest.Source
