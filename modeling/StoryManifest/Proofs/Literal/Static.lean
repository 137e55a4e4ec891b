import StoryManifest.Proofs.Literal.Evaluation
import StoryManifest.Proofs.Literal.Numerals
import StoryManifest.Proofs.Values

/-!
Which expressions are written out in literals, so that their value needs nothing to be run. They are given
by rules: scalars, signs before numbers, arrays and objects of such expressions, and wrappers around them.
In an object the last member of a name counts, and the ones before it may be anything. The main statement
says that an expression has a static value exactly when the rules reach it.
-/

namespace StoryManifest.Literal

open Source (Node Kind)

/-! ### The rules -/

/-- A node wraps another: parentheses, `as`, `satisfies` and `!` their first part, `<T>x` its last. -/
inductive Wraps (n inner : Node) : Prop
  | first {kind : Kind} : n.label = .named kind → kind.wrapsFirst = true → n.parts.head? = some inner →
      Wraps n inner
  | last : n.is .typeAssertion = true → n.parts.getLast? = some inner → Wraps n inner

/-- A numeric literal with a number, perhaps wrapped. -/
inductive IsNumber : Node → Prop
  | literal {n : Node} : n.is .number = true → Representable n.text → IsNumber n
  | wrapped {n inner : Node} : Wraps n inner → IsNumber inner → IsNumber n

/-- The children of an array without comments and the closing bracket. -/
def rowOf (children : List Node) : List Node := children.filter fun m => !(m.isToken "]" || m.is .comment)

/-- An opening bracket or a comma is followed by a comma. -/
def HasGap (row : List Node) : Prop := ∃ m comma, [m, comma] <:+: row ∧
  (m.isToken "[" = true ∨ m.isToken "," = true) ∧ comma.isToken "," = true

/-- An element is left out of an array, which a comma at its end does not do. -/
def HasElision (n : Node) : Prop := HasGap (rowOf n.children)

/-- The key of a member is computed. A big integer and a number too large count as computed. -/
def IsComputed (key : Node) : Prop :=
  match key.label with
  | .named .propertyIdentifier => False
  | .named .privatePropertyIdentifier => False
  | .named .identifier => False
  | .named .string => False
  | .named .number => ¬Representable key.text
  | _ => True

/-- A child of an object literal is a member with a computed key. -/
inductive HasComputedKey (m : Node) : Prop
  | pair {key value : Node} : m.is .pair = true → m.child? .key = some key →
      m.child? .value = some value → IsComputed key → HasComputedKey m
  | method : m.is .methodDefinition = true → (∀ name, m.child? .name = some name → IsComputed name) →
      HasComputedKey m

/-- The name of a child of an object literal that is a member with one. -/
def memberName? (m : Node) : Option String := (entryOf? m).bind fun e => e.key.name?

/-- A child of an object literal is the last member of its name. -/
def IsLastMember (n m : Node) : Prop := ∃ before after name, n.namedChildren = before ++ m :: after ∧
  memberName? m = some name ∧ ∀ later ∈ after, memberName? later ≠ some name

/-- Expressions that are written out in literals. -/
inductive WrittenOut : Node → Prop
  | string {n : Node} : n.is .string = true → WrittenOut n
  | number {n : Node} : n.is .number = true → Representable n.text → WrittenOut n
  | word {n : Node} : n.is .trueWord = true ∨ n.is .falseWord = true ∨ n.is .nullWord = true → WrittenOut n
  | signed {n sign argument : Node} : n.is .unaryExpression = true → n.child? .operator = some sign →
      sign.text = "+" ∨ sign.text = "-" → n.child? .argument = some argument → IsNumber argument →
      WrittenOut n
  | wrapped {n inner : Node} : Wraps n inner → WrittenOut inner → WrittenOut n
  | array {n : Node} : n.is .array = true → ¬HasElision n → (∀ item ∈ n.parts, WrittenOut item) →
      WrittenOut n
  | object {n : Node} : n.is .object = true →
      (∀ m ∈ n.namedChildren, m.is .spreadElement = false ∧ ¬HasComputedKey m) →
      (∀ m, IsLastMember n m → m.is .pair = true) →
      (∀ m value, IsLastMember n m → m.child? .value = some value → WrittenOut value) → WrittenOut n

variable {n inner m : Node}

theorem IsLastMember.mem_namedChildren (h : IsLastMember n m) : m ∈ n.namedChildren := by
  obtain ⟨before, after, name, hchildren, -⟩ := h
  simp [hchildren]

/-! ### Wrappers -/

section

variable {β : Type} {f : Node → β} {g : List Node → Option β}

/-- A search that stops at the first part gives its value. -/
theorem eq_head?_parts (hnil : g [] = none)
    (hcons : ∀ n rest, g (n :: rest) = if n.isPart then some (f n) else g rest) :
    ∀ children : List Node, g children = (children.filter Node.isPart).head?.map f
  | [] => hnil
  | n :: rest => by
    have ih := eq_head?_parts hnil hcons rest
    by_cases h : n.isPart = true <;> simp [hcons, h, ih]

/-- A search that goes on to the last part gives its value. -/
theorem eq_getLast?_parts (hnil : g [] = none)
    (hcons : ∀ n rest, g (n :: rest) = (g rest).or (if n.isPart then some (f n) else none)) :
    ∀ children : List Node, g children = (children.filter Node.isPart).getLast?.map f
  | [] => hnil
  | n :: rest => by
    have ih := eq_getLast?_parts hnil hcons rest
    by_cases h : n.isPart = true
    · cases hlast : (rest.filter Node.isPart).getLast? <;> simp [hcons, h, ih, hlast, List.getLast?_cons]
    · simp [hcons, h, ih]

end

theorem evaluateFirst_eq (children : List Node) :
    evaluateFirst children = (children.filter Node.isPart).head?.map evaluate :=
  eq_head?_parts rfl (fun _ _ => rfl) children

theorem evaluateLast_eq (children : List Node) :
    evaluateLast children = (children.filter Node.isPart).getLast?.map evaluate :=
  eq_getLast?_parts rfl (fun _ _ => rfl) children

theorem unwrapFirst_eq (children : List Node) :
    Node.unwrapFirst children = (children.filter Node.isPart).head?.map Node.unwrap :=
  eq_head?_parts rfl (fun _ _ => rfl) children

theorem unwrapLast_eq (children : List Node) :
    Node.unwrapLast children = (children.filter Node.isPart).getLast?.map Node.unwrap :=
  eq_getLast?_parts rfl (fun _ _ => rfl) children

theorem sizeOf_child (h : m ∈ n.children) : sizeOf m < sizeOf n := by
  have hchildren : sizeOf n.children < sizeOf n := by
    cases n
    simp
  exact (List.sizeOf_lt_of_mem h).trans hchildren

theorem Wraps.mem_children (h : Wraps n inner) : inner ∈ n.children := by
  cases h with
  | first _ _ hpart => exact List.mem_of_mem_filter (List.mem_of_head? hpart)
  | last _ hpart => exact List.mem_of_mem_filter (List.mem_of_getLast? hpart)

/-- A wrapper has the value of what it wraps. -/
theorem Wraps.evaluate_eq (h : Wraps n inner) : evaluate n = evaluate inner := by
  obtain ⟨label, role, start, stop, text, children⟩ := n
  cases h with
  | @first kind hlabel hwraps hpart =>
    obtain rfl : label = .named kind := hlabel
    have hfirst : (children.filter Node.isPart).head? = some inner := hpart
    simp [evaluate, hwraps, evaluateFirst_eq, hfirst]
  | last hkind hpart =>
    obtain rfl : label = .named .typeAssertion := of_decide_eq_true hkind
    have hlast : (children.filter Node.isPart).getLast? = some inner := hpart
    simp [evaluate, Kind.wrapsFirst, evaluateLast_eq, hlast]

theorem Wraps.unwrap_eq (h : Wraps n inner) : n.unwrap = inner.unwrap := by
  obtain ⟨label, role, start, stop, text, children⟩ := n
  cases h with
  | @first kind hlabel hwraps hpart =>
    obtain rfl : label = .named kind := hlabel
    have hfirst : (children.filter Node.isPart).head? = some inner := hpart
    simp [Node.unwrap, hwraps, unwrapFirst_eq, hfirst]
  | last hkind hpart =>
    obtain rfl : label = .named .typeAssertion := of_decide_eq_true hkind
    have hlast : (children.filter Node.isPart).getLast? = some inner := hpart
    simp [Node.unwrap, Kind.wrapsFirst, unwrapLast_eq, hlast]

/-- Facts about all nodes go from what is wrapped to its wrappers. -/
theorem wraps_induction {P : Node → Prop} (hbare : ∀ n, (∀ inner, ¬Wraps n inner) → P n)
    (hwraps : ∀ n inner, Wraps n inner → P inner → P n) (n : Node) : P n := by
  by_cases h : ∃ inner, Wraps n inner
  · obtain ⟨inner, h⟩ := h
    have := sizeOf_child h.mem_children
    exact hwraps n inner h (wraps_induction hbare hwraps inner)
  · exact hbare n (not_exists.mp h)
termination_by sizeOf n

/-- A node that wraps nothing is its own unwrapped form. -/
theorem unwrap_of_not_wraps (h : ∀ inner, ¬Wraps n inner) : n.unwrap = n := by
  obtain ⟨label, role, start, stop, text, children⟩ := n
  cases label with
  | named kind =>
    by_cases hfirst : kind.wrapsFirst = true
    · cases hpart : (children.filter Node.isPart).head? with
      | none => simp [Node.unwrap, hfirst, unwrapFirst_eq, hpart]
      | some inner => exact absurd (.first rfl hfirst hpart) (h inner)
    · by_cases hlast : kind = .typeAssertion
      · subst hlast
        cases hpart : (children.filter Node.isPart).getLast? with
        | none => simp [Node.unwrap, hfirst, unwrapLast_eq, hpart]
        | some inner => exact absurd (.last rfl hpart) (h inner)
      · simp [Node.unwrap, hfirst, hlast]
  | token text => rfl
  | error => rfl
  | missing text => rfl

/-- Nodes of the other kinds wrap nothing. -/
theorem not_wraps {kind : Kind} (hkind : n.is kind = true) (hfirst : kind.wrapsFirst = false)
    (hlast : kind ≠ .typeAssertion) (inner : Node) : ¬Wraps n inner := by
  have hlabel : n.label = .named kind := of_decide_eq_true hkind
  rintro (⟨hlabel', hwraps, -⟩ | ⟨hassertion, -⟩)
  · rw [hlabel, Source.Label.named.injEq] at hlabel'
    rw [hlabel', hwraps] at hfirst
    cases hfirst
  · rw [Node.is, hlabel, decide_eq_true_eq, Source.Label.named.injEq] at hassertion
    exact hlast hassertion

theorem isNumber_iff (n : Node) :
    IsNumber n ↔ n.unwrap.is .number = true ∧ Representable n.unwrap.text := by
  constructor
  · intro h
    induction h with
    | @literal n hkind htext =>
      have hbare := unwrap_of_not_wraps (not_wraps hkind rfl (by decide))
      exact ⟨by rwa [hbare], by rwa [hbare]⟩
    | wrapped hwraps _ ih => rwa [hwraps.unwrap_eq]
  · induction n using wraps_induction with
    | hbare n hbare =>
      rw [unwrap_of_not_wraps hbare]
      exact fun h => .literal h.1 h.2
    | hwraps n inner hwraps ih =>
      rw [hwraps.unwrap_eq]
      exact fun h => .wrapped hwraps (ih h)

/-! ### Numbers -/

theorem not_isStatic_unsupported (kind : String) : ¬(Value.unsupported kind).isStatic = true := by
  rintro ⟨⟩

/-- A sign has a value before a plus or a minus and a number. -/
theorem isStatic_signedNumber_iff : (signedNumber n).isStatic = true ↔ ∃ sign argument,
    n.child? .operator = some sign ∧ (sign.text = "+" ∨ sign.text = "-") ∧
    n.child? .argument = some argument ∧ IsNumber argument := by
  constructor
  · intro h
    unfold signedNumber at h
    split at h
    · cases h
    · rename_i behind hbehind
      obtain ⟨argument, hargument, rfl⟩ := Option.map_eq_some_iff.mp hbehind
      split at h
      · rename_i hkind
        split at h
        · cases h
        · rename_i number hnumber
          have htext : Representable argument.unwrap.text :=
            (isSome_parseNumber?_iff _).mp (by rw [hnumber]; rfl)
          have hnumber := (isNumber_iff argument).mpr ⟨hkind, htext⟩
          split at h
          · rename_i hsign
            obtain ⟨sign, hsign, htext⟩ := Option.map_eq_some_iff.mp hsign
            exact ⟨sign, argument, hsign, .inl htext, hargument, hnumber⟩
          · rename_i hsign
            obtain ⟨sign, hsign, htext⟩ := Option.map_eq_some_iff.mp hsign
            exact ⟨sign, argument, hsign, .inr htext, hargument, hnumber⟩
          · cases h
      · cases h
  · rintro ⟨sign, argument, hsign, htext, hargument, hnumber⟩
    obtain ⟨hkind, hrepresentable⟩ := (isNumber_iff argument).mp hnumber
    obtain ⟨number, hparse⟩ := Option.isSome_iff_exists.mp ((isSome_parseNumber?_iff _).mpr hrepresentable)
    rcases htext with htext | htext <;> simp [signedNumber, hargument, hkind, hparse, hsign, htext] <;> rfl

theorem evaluate_unary (hkind : n.is .unaryExpression = true) : evaluate n = signedNumber n := by
  obtain ⟨label, role, start, stop, text, children⟩ := n
  obtain rfl : label = .named .unaryExpression := of_decide_eq_true hkind
  rfl

theorem isStatic_evaluate_number_iff (hkind : n.is .number = true) :
    (evaluate n).isStatic = true ↔ Representable n.text := by
  obtain ⟨label, role, start, stop, text, children⟩ := n
  obtain rfl : label = .named .number := of_decide_eq_true hkind
  rw [← isSome_parseNumber?_iff]
  simp only [evaluate, Kind.wrapsFirst]
  cases parseNumber? text <;> simp [Value.isStatic, Value.unsupportedKind]

/-! ### Arrays -/

/-- An element is due after a child of an array. -/
def isOpening (m : Node) : Bool := m.isToken "[" || m.isToken ","

theorem isOpening_iff : isOpening m = true ↔ m.isToken "[" = true ∨ m.isToken "," = true :=
  Bool.or_eq_true_iff ..

theorem not_hasGap_nil : ¬HasGap [] := by
  rintro ⟨m, comma, hrow, -⟩
  simpa using hrow.length_le

theorem not_hasGap_singleton (n : Node) : ¬HasGap [n] := by
  rintro ⟨m, comma, hrow, -⟩
  simpa using hrow.length_le

theorem hasGap_cons_cons {row : List Node} : HasGap (n :: m :: row) ↔
    (isOpening n = true ∧ m.isToken "," = true) ∨ HasGap (m :: row) := by
  constructor
  · rintro ⟨x, comma, hrow, hx, hcomma⟩
    rcases List.infix_cons_iff.mp hrow with hstart | hrest
    · simp only [List.cons_prefix_cons, List.nil_prefix, and_true] at hstart
      obtain ⟨rfl, rfl⟩ := hstart
      exact .inl ⟨isOpening_iff.mpr hx, hcomma⟩
    · exact .inr ⟨x, comma, hrest, hx, hcomma⟩
  · rintro (⟨hn, hm⟩ | ⟨x, comma, hrow, h⟩)
    · exact ⟨n, m, ⟨[], row, rfl⟩, isOpening_iff.mp hn, hm⟩
    · exact ⟨x, comma, hrow.trans (List.infix_cons List.infix_rfl), h⟩

theorem hasGap_cons_of_not_opening {row : List Node} (h : isOpening n = false) :
    HasGap (n :: row) ↔ HasGap row := by
  cases row with
  | nil => exact iff_of_false (not_hasGap_singleton n) not_hasGap_nil
  | cons m row => simp [hasGap_cons_cons, h]

/-- A comma is found where an element is due after what comes before the children. -/
theorem holeAfter_iff (before : Node) (children : List Node) :
    holeAfter (isOpening before) children = true ↔ HasGap (before :: rowOf children) := by
  induction children generalizing before with
  | nil => exact iff_of_false (by simp [holeAfter]) (not_hasGap_singleton before)
  | cons n rest ih =>
    by_cases haside : (n.isToken "]" || n.is .comment) = true
    · have hrow : rowOf (n :: rest) = rowOf rest := List.filter_cons_of_neg (by simp [haside])
      have hopening : n.isToken "[" = false ∧ n.isToken "," = false := by
        simp only [Node.isToken, Node.is, Bool.or_eq_true, decide_eq_true_eq] at haside
        rcases haside with hlabel | hlabel <;> simp [Node.isToken, hlabel]
      rw [hrow, ← ih, holeAfter]
      simp [hopening, haside]
    · have hrow : rowOf (n :: rest) = n :: rowOf rest := List.filter_cons_of_pos (by simp [haside])
      rw [hrow, hasGap_cons_cons, ← ih, holeAfter]
      by_cases hopen : n.isToken "[" = true
      · have hcomma : n.isToken "," = false := by
          rw [Node.isToken, decide_eq_true_eq] at hopen
          simp [Node.isToken, hopen]
        simp [isOpening, hopen, hcomma]
      · by_cases hcomma : n.isToken "," = true <;> simp [isOpening, hopen, hcomma, haside]

theorem hasHole_iff : hasHole n = true ↔ HasElision n := by
  have hbefore : isOpening (Node.leaf .error .origin .origin "") = false := rfl
  have h := holeAfter_iff (Node.leaf .error .origin .origin "") n.children
  rwa [hasGap_cons_of_not_opening hbefore, hbefore] at h

theorem isStatic_evaluate_array_iff (hkind : n.is .array = true) : (evaluate n).isStatic = true ↔
    ¬HasElision n ∧ ∀ item ∈ n.parts, (evaluate item).isStatic = true := by
  have hvalue : evaluate n =
      if hasHole n then .unsupported "array_hole" else .list (n.parts.map evaluate) := by
    obtain ⟨label, role, start, stop, text, children⟩ := n
    obtain rfl : label = .named .array := of_decide_eq_true hkind
    rw [Node.parts, ← evaluateItems_eq]
    rfl
  rw [hvalue, ← hasHole_iff]
  by_cases hhole : hasHole n = true
  · simp [hhole, not_isStatic_unsupported]
  · simp [hhole, Value.isStatic_iff, Value.marked_list]

/-! ### Objects -/

/-- The keys without names are the computed ones. -/
theorem name?_propertyKey_iff (key : Node) : (propertyKey key).name? = none ↔ IsComputed key := by
  unfold propertyKey IsComputed
  generalize key.label = label
  split
  case h_5 =>
    simp only [← isSome_parseNumber?_iff]
    cases parseNumber? key.text <;> simp [Key.name?]
  all_goals simp [Key.name?]

/-- The members without names are the spreads and those with computed keys. -/
theorem unnamed_iff (m : Node) : (∃ e, entryOf? m = some e ∧ e.key.name? = none) ↔
    m.is .spreadElement = true ∨ HasComputedKey m := by
  constructor
  · rintro ⟨e, he, hkey⟩
    unfold entryOf? at he
    split at he
    · rename_i hlabel
      split at he
      · rename_i key value hk hv
        cases he
        exact .inr (.pair (by simp [Node.is, hlabel]) hk hv ((name?_propertyKey_iff _).mp hkey))
      · cases he
    · cases he
      cases hkey
    · rename_i hlabel
      cases he
      refine .inr (.method (by simp [Node.is, hlabel]) fun name hn => ?_)
      rw [hn] at hkey
      exact (name?_propertyKey_iff _).mp hkey
    · rename_i hlabel
      exact .inl (by simp [Node.is, hlabel])
    · cases he
  · rintro (hkind | ⟨hkind, hk, hv, hkey⟩ | ⟨hkind, hkey⟩) <;>
      have hlabel := of_decide_eq_true hkind
    · exact ⟨_, by simp [entryOf?, hlabel]; rfl, rfl⟩
    · exact ⟨_, by simp [entryOf?, hlabel, hk, hv]; rfl, (name?_propertyKey_iff _).mpr hkey⟩
    · refine ⟨_, by simp [entryOf?, hlabel]; rfl, ?_⟩
      cases hn : m.child? .name with
      | none => rfl
      | some name => exact (name?_propertyKey_iff _).mpr (hkey name hn)

/-- A member without a name leaves the object without a value. -/
theorem not_isStatic_recordFrom : ∀ {members : List (Key × Value)} (fields : Fields Value),
    (∃ e ∈ members, e.1.name? = none) → ¬(recordFrom fields members).isStatic = true
  | (.named name, v) :: rest, fields, h => by
    have hrest : ∃ e ∈ rest, e.1.name? = none := by simpa [Key.name?] using h
    rw [recordFrom]
    exact not_isStatic_recordFrom _ hrest
  | (.computed, _) :: _, _, _ => not_isStatic_unsupported _
  | (.spread, _) :: _, _, _ => not_isStatic_unsupported _

theorem isStatic_record_iff {fields : Fields Value} (h : fields.keys.Nodup) :
    (Value.record fields).isStatic = true ↔ ∀ name v, fields.find? name = some v → v.isStatic = true := by
  simp only [Value.isStatic_iff, Value.marked_record, not_exists, not_and]
  constructor
  · exact fun hfields name v hv => hfields (name, v) (Fields.mem_of_find? hv)
  · rintro hfields ⟨name, v⟩ he
    exact hfields name v (Fields.find?_of_mem h he)

/-- The name and the value of a child of an object literal that is a member with a name. -/
def memberValue? (m : Node) : Option (String × Value) :=
  (entryOf? m).bind fun e => e.key.name?.map fun name => (name, evaluate e.value)

theorem memberName?_eq (m : Node) : memberName? m = (memberValue? m).map Prod.fst := by
  unfold memberName? memberValue?
  cases entryOf? m with
  | none => rfl
  | some e => cases he : e.key.name? <;> simp [he]

theorem getLast?_filterMap_eq_some_iff {α β : Type} {f : α → Option β} {l : List α} {b : β} :
    (l.filterMap f).getLast? = some b ↔
      ∃ before a after, l = before ++ a :: after ∧ f a = some b ∧ ∀ x ∈ after, f x = none := by
  rw [List.getLast?_filterMap, List.findSome?_eq_some_iff]
  constructor
  · rintro ⟨after, a, before, hl, ha, hafter⟩
    exact ⟨before.reverse, a, after.reverse, by simpa using congrArg List.reverse hl, ha,
      by simpa using hafter⟩
  · rintro ⟨before, a, after, rfl, ha, hafter⟩
    exact ⟨after.reverse, a, before.reverse, by simp, ha, by simpa using hafter⟩

theorem filter_memberValue?_eq_none {name : String} :
    (memberValue? m).filter (·.1 = name) = none ↔ memberName? m ≠ some name := by
  rw [memberName?_eq]
  cases memberValue? m <;> simp [Option.filter_some]

/-- The value of a name in an object is that of its last member of the name. -/
theorem find?_members {name : String} {v : Value} :
    (Fields.insertAll [] (n.namedChildren.filterMap memberValue?)).find? name = some v ↔
      ∃ m, IsLastMember n m ∧ memberValue? m = some (name, v) := by
  have hnone : Fields.find? name ([] : Fields Value) = none := rfl
  rw [Fields.find?_insertAll, hnone, Option.or_none, List.filter_filterMap]
  constructor
  · intro h
    obtain ⟨e, hlast, rfl⟩ := Option.map_eq_some_iff.mp h
    obtain ⟨before, m, after, hchildren, hm, hafter⟩ := getLast?_filterMap_eq_some_iff.mp hlast
    obtain ⟨hvalue, hname⟩ := Option.filter_eq_some_iff.mp hm
    obtain rfl : e.1 = name := of_decide_eq_true hname
    exact ⟨m, ⟨before, after, e.1, hchildren, by rw [memberName?_eq, hvalue]; rfl,
      fun later hlater => filter_memberValue?_eq_none.mp (hafter later hlater)⟩, hvalue⟩
  · rintro ⟨m, ⟨before, after, name', hchildren, hname, hafter⟩, hvalue⟩
    obtain rfl : name = name' := by simpa [memberName?_eq, hvalue] using hname
    refine Option.map_eq_some_iff.mpr ⟨(name, v), getLast?_filterMap_eq_some_iff.mpr
      ⟨before, m, after, hchildren, ?_, fun later hlater => ?_⟩, rfl⟩
    · simp [hvalue, Option.filter_some]
    · exact filter_memberValue?_eq_none.mpr (hafter later hlater)

theorem entryOf?_pair {e : Entry} (hkind : m.is .pair = true) (h : entryOf? m = some e) :
    m.child? .value = some e.value := by
  have hlabel := of_decide_eq_true hkind
  simp only [entryOf?, hlabel] at h
  split at h
  · rename_i hvalue
    cases h
    exact hvalue
  · cases h

theorem sizeOf_entries {e : Entry} (he : e ∈ entries n) : sizeOf e.value < sizeOf n := by
  obtain ⟨c, hc, he⟩ := List.mem_filterMap.mp he
  have hchild : sizeOf c < sizeOf n := sizeOf_child (List.mem_of_mem_filter hc)
  by_cases hpair : c.is .pair = true
  · exact (sizeOf_child (List.mem_of_find?_eq_some (entryOf?_pair hpair he))).trans hchild
  · rwa [value_of_entryOf? (fun hlabel => hpair (decide_eq_true hlabel)) he]

/-- Shorthands, methods and spreads have no static value. -/
theorem not_isStatic_of_entryOf? {e : Entry} (hkind : m.is .pair = false) (h : entryOf? m = some e) :
    ¬(evaluate e.value).isStatic = true := by
  have hlabel : m.label ≠ .named .pair := of_decide_eq_false hkind
  rw [value_of_entryOf? hlabel h]
  obtain ⟨label, role, start, stop, text, children⟩ := m
  unfold entryOf? at h
  split at h
  case h_1 => exact absurd ‹_› hlabel
  case h_5 => cases h
  all_goals
    rename_i hlabel'
    obtain rfl : label = _ := hlabel'
    exact not_isStatic_unsupported _

/-- A member's value is static when the member is a pair with a static value. -/
theorem isStatic_memberValue_iff {name : String} {v : Value} (h : memberValue? m = some (name, v)) :
    v.isStatic = true ↔ m.is .pair = true ∧
      ∀ value, m.child? .value = some value → (evaluate value).isStatic = true := by
  obtain ⟨e, he, hv⟩ := Option.bind_eq_some_iff.mp h
  obtain ⟨name', hname, heq⟩ := Option.map_eq_some_iff.mp hv
  obtain ⟨rfl, rfl⟩ := Prod.mk.inj heq
  cases hkind : m.is .pair with
  | true => simp [entryOf?_pair hkind he]
  | false => simp [not_isStatic_of_entryOf? hkind he]

/-- An object has the members that its named children are. -/
theorem evaluate_object (hkind : n.is .object = true) : evaluate n =
    recordFrom [] ((n.namedChildren.filterMap entryOf?).map fun e => (e.key, evaluate e.value)) := by
  obtain ⟨label, role, start, stop, text, children⟩ := n
  obtain rfl : label = .named .object := of_decide_eq_true hkind
  exact congrArg (recordFrom []) (evaluateMembers_eq children)

theorem isStatic_evaluate_object_iff (hkind : n.is .object = true) : (evaluate n).isStatic = true ↔
    (∀ m ∈ n.namedChildren, m.is .spreadElement = false ∧ ¬HasComputedKey m) ∧
    ∀ m, IsLastMember n m →
      m.is .pair = true ∧ ∀ value, m.child? .value = some value → (evaluate value).isStatic = true := by
  rw [evaluate_object hkind]
  by_cases hnamed : ∀ m ∈ n.namedChildren, m.is .spreadElement = false ∧ ¬HasComputedKey m
  · have hkeys : ∀ e ∈ (n.namedChildren.filterMap entryOf?).map fun e => (e.key, evaluate e.value),
        e.1.name? ≠ none := by
      intro e he hkey
      obtain ⟨e, hentry, rfl⟩ := List.mem_map.mp he
      obtain ⟨m, hm, he⟩ := List.mem_filterMap.mp hentry
      rcases (unnamed_iff m).mp ⟨e, he, hkey⟩ with hspread | hcomputed
      · exact Bool.false_ne_true ((hnamed m hm).1.symm.trans hspread)
      · exact (hnamed m hm).2 hcomputed
    have hmembers : ((n.namedChildren.filterMap entryOf?).map fun e => (e.key, evaluate e.value)).filterMap
        (fun e => e.1.name?.map fun name => (name, e.2)) = n.namedChildren.filterMap memberValue? := by
      rw [List.filterMap_map, List.filterMap_filterMap]
      rfl
    have hnodup := Fields.nodup_keys_insertAll (n.namedChildren.filterMap memberValue?)
      (m := []) List.nodup_nil
    rw [recordFrom_eq [] hkeys, hmembers, isStatic_record_iff hnodup]
    rw [and_iff_right hnamed]
    simp only [find?_members]
    constructor
    · rintro h m hlast
      obtain ⟨before, after, name, hchildren, hname, hafter⟩ := id hlast
      obtain ⟨⟨name', v⟩, hvalue, rfl⟩ := Option.map_eq_some_iff.mp (memberName?_eq m ▸ hname)
      exact (isStatic_memberValue_iff hvalue).mp (h name' v ⟨m, hlast, hvalue⟩)
    · rintro h name v ⟨m, hlast, hvalue⟩
      exact (isStatic_memberValue_iff hvalue).mpr (h m hlast)
  · refine iff_of_false (not_isStatic_recordFrom [] ?_) fun h => hnamed h.1
    push Not at hnamed
    obtain ⟨m, hm, hunnamed⟩ := hnamed
    obtain ⟨e, he, hkey⟩ := (unnamed_iff m).mpr (by
      by_cases hspread : m.is .spreadElement = true
      · exact .inl hspread
      · exact .inr (hunnamed (by simpa using hspread)))
    exact ⟨(e.key, evaluate e.value), List.mem_map.mpr ⟨e, List.mem_filterMap.mpr ⟨m, hm, he⟩, rfl⟩, hkey⟩

/-! ### All expressions -/

/-- The kinds of nodes that wrap nothing and may have a static value. -/
def literalKinds : List Kind :=
  [.string, .number, .trueWord, .falseWord, .nullWord, .unaryExpression, .array, .object]

/-- A node with a static value wraps another or is of one of these kinds. -/
theorem exists_kind_of_isStatic (hbare : ∀ inner, ¬Wraps n inner) (h : (evaluate n).isStatic = true) :
    ∃ kind ∈ literalKinds, n.is kind = true := by
  obtain ⟨label, role, start, stop, text, children⟩ := n
  cases label with
  | named kind =>
    refine ⟨kind, ?_, decide_eq_true rfl⟩
    simp only [evaluate, evaluateFirst_eq, evaluateLast_eq] at h
    split at h
    · rename_i hfirst
      cases hpart : (children.filter Node.isPart).head? with
      | none => exact absurd (by simpa [hpart] using h) (not_isStatic_unsupported kind.name)
      | some inner => exact absurd (.first rfl hfirst hpart) (hbare inner)
    split at h
    · rename_i hlast
      subst hlast
      cases hpart : (children.filter Node.isPart).getLast? with
      | none => exact absurd (by simpa [hpart] using h) (not_isStatic_unsupported _)
      | some inner => exact absurd (.last rfl hpart) (hbare inner)
    -- What is left is the table of kinds, where all others have a marker.
    split at h
    all_goals first | decide | cases h
  | token text => cases h
  | error => cases h
  | missing text => cases h

theorem isStatic_of_writtenOut (h : WrittenOut n) : (evaluate n).isStatic = true := by
  induction h with
  | @string n hkind =>
    obtain ⟨label, role, start, stop, text, children⟩ := n
    obtain rfl : label = .named .string := of_decide_eq_true hkind
    rfl
  | number hkind htext => exact (isStatic_evaluate_number_iff hkind).mpr htext
  | @word n hkind =>
    obtain ⟨label, role, start, stop, text, children⟩ := n
    rcases hkind with hkind | hkind | hkind <;> obtain rfl : label = _ := of_decide_eq_true hkind <;> rfl
  | @signed n sign argument hkind hsign htext hargument hnumber =>
    rw [evaluate_unary hkind]
    exact isStatic_signedNumber_iff.mpr ⟨sign, argument, hsign, htext, hargument, hnumber⟩
  | wrapped hwraps _ ih => rwa [hwraps.evaluate_eq]
  | array hkind helision _ ih => exact (isStatic_evaluate_array_iff hkind).mpr ⟨helision, ih⟩
  | object hkind hnamed hpairs _ ih =>
    exact (isStatic_evaluate_object_iff hkind).mpr
      ⟨hnamed, fun m hm => ⟨hpairs m hm, fun value => ih m value hm⟩⟩

theorem writtenOut_of_isStatic (n : Node) (h : (evaluate n).isStatic = true) : WrittenOut n := by
  by_cases hwraps : ∃ inner, Wraps n inner
  · obtain ⟨inner, hwraps⟩ := hwraps
    have := sizeOf_child hwraps.mem_children
    exact .wrapped hwraps (writtenOut_of_isStatic inner (hwraps.evaluate_eq ▸ h))
  obtain ⟨kind, hliteral, hkind⟩ := exists_kind_of_isStatic (not_exists.mp hwraps) h
  simp only [literalKinds, List.mem_cons, List.not_mem_nil, or_false] at hliteral
  rcases hliteral with rfl | rfl | rfl | rfl | rfl | rfl | rfl | rfl
  · exact .string hkind
  · exact .number hkind ((isStatic_evaluate_number_iff hkind).mp h)
  · exact .word (.inl hkind)
  · exact .word (.inr (.inl hkind))
  · exact .word (.inr (.inr hkind))
  · obtain ⟨sign, argument, hsign, htext, hargument, hnumber⟩ :=
      isStatic_signedNumber_iff.mp (evaluate_unary hkind ▸ h)
    exact .signed hkind hsign htext hargument hnumber
  · obtain ⟨helision, hitems⟩ := (isStatic_evaluate_array_iff hkind).mp h
    refine .array hkind helision fun item hitem => ?_
    have := sizeOf_child (List.mem_of_mem_filter hitem)
    exact writtenOut_of_isStatic item (hitems item hitem)
  · obtain ⟨hnamed, hlast⟩ := (isStatic_evaluate_object_iff hkind).mp h
    refine .object hkind hnamed (fun m hm => (hlast m hm).1) fun m value hm hvalue => ?_
    have hvalue' := sizeOf_child (List.mem_of_find?_eq_some hvalue)
    have hm' := sizeOf_child (List.mem_of_mem_filter hm.mem_namedChildren)
    exact writtenOut_of_isStatic value ((hlast m hm).2 value hvalue)
termination_by sizeOf n

/-- An expression has a static value exactly when it is written out in literals. -/
theorem isStatic_evaluate_iff (n : Node) : (evaluate n).isStatic = true ↔ WrittenOut n :=
  ⟨writtenOut_of_isStatic n, isStatic_of_writtenOut⟩

end StoryManifest.Literal
