import StoryManifest.Literal.Evaluation
import StoryManifest.Proofs.Fields
import StoryManifest.Proofs.Related
import StoryManifest.Proofs.Source.Lexemes
import StoryManifest.Proofs.Source.Rows
import StoryManifest.Proofs.Source.Strings

/-!
Which nodes are literals of which values. Evaluation looks only at the children that stand for parts of
the grammar, so a row of literals evaluates to the list or the record of their values, and a node stands
for the same value in every role.
-/

namespace StoryManifest.Literal

open Source (Node Kind Place Row IsMark)
open Source.Parser (build)

/-! ### What evaluation looks at -/

theorem evaluateItems_eq : ∀ children : List Node,
    evaluateItems children = (children.filter Node.isPart).map evaluate
  | [] => rfl
  | n :: rest => by
    have ih := evaluateItems_eq rest
    by_cases h : n.isPart = true <;> simp [evaluateItems, h, ih]

theorem evaluateRole_eq : ∀ children : List Node,
    evaluateRole children = (children.find? (·.role = some .value)).map evaluate
  | [] => rfl
  | n :: rest => by
    have ih := evaluateRole_eq rest
    by_cases h : n.role = some .value <;> simp [evaluateRole, List.find?, h, ih]

theorem value_of_entryOf? {n : Node} {e : Entry} (h : n.label ≠ .named .pair)
    (he : entryOf? n = some e) : e.value = n := by
  unfold entryOf? at he
  split at he
  · rename_i hl; exact absurd hl h
  · cases he; rfl
  · cases he; rfl
  · cases he; rfl
  · cases he

theorem entryOf?_of_not_named {n : Node} (h : n.isNamed = false) : entryOf? n = none := by
  unfold entryOf?
  split <;> simp_all [Node.isNamed]

theorem evaluateMembers_cons (n : Node) (rest : List Node) : evaluateMembers (n :: rest) =
    ((entryOf? n).map fun e => (e.key, evaluate e.value)).toList ++ evaluateMembers rest := by
  by_cases h : n.label = .named .pair
  · obtain ⟨label, role, start, stop, text, children⟩ := n
    subst h
    simp only [evaluateMembers, evaluateRole_eq, entryOf?, Node.child?]
    cases children.find? (·.role = some .key) <;>
      cases children.find? (·.role = some .value) <;> simp
  · have hpair : ∀ role start stop text children,
        n = ⟨.named .pair, role, start, stop, text, children⟩ → False := by
      rintro role start stop text children rfl
      exact h rfl
    rw [evaluateMembers.eq_3 n rest hpair]
    cases he : entryOf? n with
    | none => simp
    | some e => simp [value_of_entryOf? h he]

/-- Evaluated members are the entries with their values evaluated. -/
theorem evaluateMembers_eq : ∀ children : List Node, evaluateMembers children =
    ((children.filter Node.isNamed).filterMap entryOf?).map fun e => (e.key, evaluate e.value)
  | [] => rfl
  | n :: rest => by
    rw [evaluateMembers_cons, evaluateMembers_eq rest]
    cases hn : n.isNamed with
    | false => simp [hn, entryOf?_of_not_named hn]
    | true => cases he : entryOf? n <;> simp [hn, he]

/-! ### Rows -/

/-- A row has the nodes of its items and no others that pass a test for parts of the grammar. -/
theorem filter_row {closer : String} {ns ms : List Node} {test : Node → Bool} (h : Row closer ns ms)
    (hmark : ∀ text m, IsMark text m → test m = false) (hns : ∀ n ∈ ns, test n = true) :
    ms.filter test = ns := by
  induction h with
  | close hm => simp [hmark _ _ hm]
  | @last n m hm => simp [hmark _ _ hm, hns n (by simp)]
  | @item n next comma ns ms hm _ ih =>
    have hrest := ih fun n hn => hns n (List.mem_cons_of_mem _ hn)
    simp [hmark _ _ hm, hns n (by simp), hrest]

theorem isPart_mark {text : String} {m : Node} (h : IsMark text m) : m.isPart = false := by
  obtain ⟨start, stop, rfl⟩ := h
  rfl

/-- No item of a row is left out. -/
theorem holeAfter_row {closer : String} (hcloser : closer = "]") {ns ms : List Node}
    (h : Row closer ns ms) (hns : ∀ n ∈ ns, n.isPart = true) : ∀ due, holeAfter due ms = false := by
  have hitem : ∀ {n : Node}, n.isPart = true → ∀ due rest,
      holeAfter due (n :: rest) = holeAfter false rest := by
    intro n hn due rest
    obtain ⟨hnamed, hcomment⟩ : n.isNamed = true ∧ n.is .comment = false := by
      simpa [Node.isPart] using hn
    have htoken : ∀ text, n.isToken text = false := by
      intro text
      cases hl : n.label <;> simp_all [Node.isNamed, Node.isToken]
    simp [holeAfter, htoken, hcomment]
  have hclose : ∀ {m : Node}, IsMark "]" m → ∀ due, holeAfter due [m] = false := by
    rintro m ⟨start, stop, rfl⟩ due
    cases due <;> rfl
  have hcomma : ∀ {m : Node}, IsMark "," m → ∀ rest, holeAfter false (m :: rest) = holeAfter true rest := by
    rintro m ⟨start, stop, rfl⟩ rest
    simp [holeAfter, Node.leaf, Node.isToken]
  subst hcloser
  induction h with
  | close hm => exact hclose hm
  | @last n m hm =>
    intro due
    rw [hitem (hns n (by simp)), hclose hm]
  | @item n next comma ns ms hm _ ih =>
    intro due
    rw [hitem (hns n (by simp)), hcomma hm]
    exact ih (fun n hn => hns n (List.mem_cons_of_mem _ hn)) true

/-! ### Literals -/

/-- A kind of nodes that wrap nothing. -/
def isBare (kind : Kind) : Bool :=
  !kind.wrapsFirst && kind ≠ .typeAssertion && kind ≠ .comment

/-- The entries of an object literal have the keys and the values of a record. -/
def HasMembers (n : Node) (fields : Fields Value) : Prop :=
  (entries n).map (fun e => (e.key, evaluate e.value)) = fields.map fun f => (.named f.1, f.2)

/-- A node is a literal of a value: it wraps nothing, holds no fault and evaluates to the value. -/
structure IsLiteral (v : Value) (n : Node) : Prop where
  bare : ∃ kind, n.label = .named kind ∧ isBare kind = true
  value : evaluate n = v
  sound : n.hasFault = false
  members : ∀ fields, v = .record fields → n.is .object = true ∧ HasMembers n fields

variable {v : Value} {n : Node}

theorem IsLiteral.isPart (h : IsLiteral v n) : n.isPart = true := by
  obtain ⟨kind, hl, hb⟩ := h.bare
  have : kind ≠ .comment := by
    rintro rfl
    exact absurd hb (by decide)
  simp [Node.isPart, Node.isNamed, Node.is, hl, this]

theorem IsLiteral.unwrap (h : IsLiteral v n) : n.unwrap = n := by
  obtain ⟨kind, hl, hb⟩ := h.bare
  obtain ⟨label, role, start, stop, text, children⟩ := n
  obtain rfl : label = .named kind := hl
  simp only [isBare, Bool.and_eq_true, Bool.not_eq_true', decide_eq_true_eq] at hb
  simp [Node.unwrap, hb.1.1, hb.1.2]

theorem evaluate_inRole (role : Source.Role) (n : Node) : evaluate (n.inRole role) = evaluate n := by
  obtain ⟨label, oldRole, start, stop, text, children⟩ := n
  cases label <;> rfl

/-- A literal is one in every role. -/
theorem IsLiteral.inRole (h : IsLiteral v n) (role : Source.Role) : IsLiteral v (n.inRole role) where
  bare := h.bare
  value := by rw [evaluate_inRole, h.value]
  sound := by rw [Source.hasFault_inRole, h.sound]
  members := h.members

/-- A node is a member of an object literal: a key and a literal of a value. -/
structure IsMember (k : String) (v : Value) (n : Node) : Prop where
  named : n.isNamed = true
  sound : n.hasFault = false
  entry : ∃ value, entryOf? n = some ⟨.named k, value⟩ ∧ IsLiteral v value

/-! ### Scalars -/

theorem isLiteral_null (start stop : Place) : IsLiteral .null (.leaf (.named .nullWord) start stop "null") :=
  ⟨⟨_, rfl, by decide⟩, rfl, rfl, by rintro _ ⟨⟩⟩

theorem isLiteral_true (start stop : Place) :
    IsLiteral (.bool true) (.leaf (.named .trueWord) start stop "true") :=
  ⟨⟨_, rfl, by decide⟩, rfl, rfl, by rintro _ ⟨⟩⟩

theorem isLiteral_false (start stop : Place) :
    IsLiteral (.bool false) (.leaf (.named .falseWord) start stop "false") :=
  ⟨⟨_, rfl, by decide⟩, rfl, rfl, by rintro _ ⟨⟩⟩

theorem isLiteral_text {text : String} (h : Source.Parser.IsString text n) : IsLiteral (.text text) n := by
  obtain ⟨⟨place, children, rfl⟩, htext, hsound⟩ := h
  refine ⟨⟨_, rfl, by decide⟩, ?_, hsound, by rintro _ ⟨⟩⟩
  rw [← htext]
  rfl

theorem isLiteral_number {text : List Char} {m : Number} (h : parseNumber? (String.ofList text) = some m)
    (start stop : Place) :
    IsLiteral (.number m) (.leaf (.named .number) start stop (String.ofList text)) := by
  refine ⟨⟨_, rfl, by decide⟩, ?_, rfl, by rintro _ ⟨⟩⟩
  simp [Node.leaf, evaluate, Kind.wrapsFirst, h]

/-- The signs that may stand before a number. -/
inductive Sign where
  | plus
  | minus
  deriving DecidableEq

/-- The character of a sign. -/
def Sign.char : Sign → Char
  | .plus => '+'
  | .minus => '-'

/-- What a sign makes of the number after it. -/
def Sign.apply : Sign → Number → Number
  | .plus, m => m
  | .minus, m => m.negate

/-- A numeral with a sign before it is the number that the sign makes of its number. -/
theorem isLiteral_signed (sign : Sign) {text : List Char} {m : Number} {argument : Node}
    (h : parseNumber? (String.ofList text) = some m)
    (hargument : ∃ start stop, argument = .leaf (.named .number) start stop (String.ofList text))
    (place start stop : Place) :
    IsLiteral (.number (sign.apply m)) (build .unaryExpression place
      [(Node.leaf (.token (String.singleton sign.char)) start stop (String.singleton sign.char)).inRole
        .operator,
        argument.inRole .argument]) := by
  obtain ⟨start', stop', rfl⟩ := hargument
  have hplus : String.singleton '+' = "+" := rfl
  have hminus : String.singleton '-' = "-" := rfl
  refine ⟨⟨_, rfl, by decide⟩, ?_, by cases sign <;> rfl, by rintro _ ⟨⟩⟩
  cases sign <;>
    simp [evaluate, signedNumber, build, Node.child?, Node.inRole, Node.leaf, Node.unwrap, Kind.wrapsFirst,
      Node.is, h, Sign.char, Sign.apply, hplus, hminus]

/-! ### Lists and records -/

theorem isLiteral_list {items : List Value} {ns ms : List Node} {m : Node} (place : Place)
    (hm : IsMark "[" m) (hrow : Row "]" ns ms) (hns : List.Forall₂ IsLiteral items ns) :
    IsLiteral (.list items) (build .array place (m :: ms)) := by
  have hparts : ∀ n ∈ ns, n.isPart = true := forall_of_forall₂ hns fun _ _ h => h.isPart
  have hsound : ∀ n ∈ ns, n.hasFault = false := forall_of_forall₂ hns fun _ _ h => h.sound
  have hvalues : ns.map evaluate = items := by
    simpa using (forall₂_map_eq (f := id) hns fun _ _ h => h.value.symm).symm
  have hhole : hasHole (build .array place (m :: ms)) = false := by
    obtain ⟨start, stop, rfl⟩ := hm
    exact holeAfter_row rfl hrow hparts true
  refine ⟨⟨_, rfl, by decide⟩, ?_, ?_, by rintro _ ⟨⟩⟩
  · show (if hasHole (build .array place (m :: ms)) = true then _ else
      Value.list (evaluateItems (m :: ms))) = _
    rw [hhole, if_neg (by decide), evaluateItems_eq, List.filter_cons_of_neg (by simp [isPart_mark hm]),
      filter_row hrow (fun _ _ => isPart_mark) hparts, hvalues]
  · rw [Source.hasFault_build, Node.anyFault, hm.hasFault, hrow.anyFault hsound]
    rfl

/-- Members that all have names make a record of their values, put in one after the other. -/
theorem recordFrom_eq : ∀ {members : List (Key × Value)} (fields : Fields Value),
    (∀ e ∈ members, e.1.name? ≠ none) → recordFrom fields members =
      .record (fields.insertAll (members.filterMap fun e => e.1.name?.map fun name => (name, e.2)))
  | [], _, _ => rfl
  | (.named name, v) :: rest, fields, h => by
    rw [recordFrom, recordFrom_eq _ fun e he => h e (List.mem_cons_of_mem _ he)]
    rfl
  | (.computed, _) :: _, _, h => absurd rfl (h _ List.mem_cons_self)
  | (.spread, _) :: _, _, h => absurd rfl (h _ List.mem_cons_self)

theorem recordFrom_named {fields : Fields Value} (h : fields.keys.Nodup) :
    recordFrom [] (fields.map fun f => (.named f.1, f.2)) = .record fields := by
  have hnamed : ∀ e ∈ fields.map fun f => (Key.named f.1, f.2), e.1.name? ≠ none := by
    intro e he
    obtain ⟨f, -, rfl⟩ := List.mem_map.mp he
    simp [Key.name?]
  rw [recordFrom_eq [] hnamed, List.filterMap_map]
  simp [Function.comp_def, Key.name?, Fields.insertAll_of_nodup (m := []) h]

/-- The entries of a row of members are those of its items. -/
theorem entries_row {ns ms : List Node} {m : Node} (place : Place) (hm : IsMark "\x7b" m)
    (hrow : Row "\x7d" ns ms) (hns : ∀ n ∈ ns, n.isNamed = true) :
    entries (build .object place (m :: ms)) = ns.filterMap entryOf? := by
  show ((m :: ms).filter Node.isNamed).filterMap entryOf? = _
  rw [List.filter_cons_of_neg (by simp [hm.isNamed]), filter_row hrow (fun _ _ => IsMark.isNamed) hns]

theorem entries_members {fields : Fields Value} {ns : List Node}
    (hns : List.Forall₂ (fun f => IsMember f.1 f.2) fields ns) :
    (ns.filterMap entryOf?).map (fun e => (e.key, evaluate e.value)) =
      fields.map fun f => (.named f.1, f.2) := by
  induction hns with
  | nil => rfl
  | cons h _ ih =>
    obtain ⟨value, hentry, hvalue⟩ := h.entry
    simp [hentry, hvalue.value, ih]

theorem isLiteral_record {fields : Fields Value} {ns ms : List Node} {m : Node} (place : Place)
    (hkeys : fields.keys.Nodup) (hm : IsMark "\x7b" m) (hrow : Row "\x7d" ns ms)
    (hns : List.Forall₂ (fun f => IsMember f.1 f.2) fields ns) :
    IsLiteral (.record fields) (build .object place (m :: ms)) := by
  have hnamed : ∀ n ∈ ns, n.isNamed = true := forall_of_forall₂ hns fun _ _ h => h.named
  have hsound : ∀ n ∈ ns, n.hasFault = false := forall_of_forall₂ hns fun _ _ h => h.sound
  have hmembers : HasMembers (build .object place (m :: ms)) fields := by
    rw [HasMembers, entries_row place hm hrow hnamed, entries_members hns]
  refine ⟨⟨_, rfl, by decide⟩, ?_, ?_, ?_⟩
  · show recordFrom [] (evaluateMembers (m :: ms)) = _
    have heval : evaluateMembers (m :: ms) = fields.map fun f => (.named f.1, f.2) := by
      rw [evaluateMembers_eq]
      exact hmembers
    rw [heval, recordFrom_named hkeys]
  · rw [Source.hasFault_build, Node.anyFault, hm.hasFault, hrow.anyFault hsound]
    rfl
  · rintro _ ⟨⟩
    exact ⟨rfl, hmembers⟩

end StoryManifest.Literal
