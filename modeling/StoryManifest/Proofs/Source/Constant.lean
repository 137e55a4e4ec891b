import StoryManifest.Proofs.Source.Program

/-!
A program that declares a constant. The written text of a plain value is put after the equals sign; in
every variant the grammar fits to this text, the value is the initial value of the only variable, and
evaluating it gives the value that was written.
-/

namespace StoryManifest.Source

open Source.Parser Source.Grammar
open Literal (IsLiteral)

variable {v : Variant} {g : Grammar} {s : State}

/-! ### The declaration -/

def constWord : List Char := ['c', 'o', 'n', 's', 't']

/-- The characters of the declaration of a constant. -/
def constantChars (name text : List Char) : List Char :=
  constWord ++ ' ' :: (name ++ ' ' :: '=' :: ' ' :: (text ++ [';']))

/-- A node is a word that is bound. -/
def IsBound (name : List Char) (n : Node) : Prop :=
  ∃ start stop, n = .leaf (.named .identifier) start stop (String.ofList name)

/-- A node is a variable with a name and a literal of a value. -/
structure IsVariable (name : List Char) (x : Value) (n : Node) : Prop where
  declarator : n.is .variableDeclarator = true
  sound : n.hasFault = false
  name : ∃ bound, n.child? .name = some (bound.inRole .name) ∧ IsBound name bound
  value : ∃ literal, n.child? .value = some literal ∧ IsLiteral x literal

/-- A node declares one variable and nothing else. -/
structure IsConstant (name : List Char) (x : Value) (n : Node) : Prop where
  declaration : n.is .lexicalDeclaration = true
  sound : n.hasFault = false
  child : ∃ declarator, n.namedChildren = [declarator] ∧ IsVariable name x declarator

section

variable {name : List Char} {x : Value}

theorem isVariable_build {bound equals literal : Node} (place : Place) (hbound : IsBound name bound)
    (hequals : IsMark "=" equals) (hliteral : IsLiteral x literal) :
    IsVariable name x
      (build .variableDeclarator place [bound.inRole .name, equals, literal.inRole .value]) where
  declarator := rfl
  sound := by
    obtain ⟨start, stop, rfl⟩ := hbound
    simp [hasFault_build, Node.anyFault, hasFault_inRole, hequals.hasFault, hliteral.sound]
    rfl
  name := ⟨bound, rfl, hbound⟩
  value := by
    obtain ⟨start, stop, rfl⟩ := hequals
    exact ⟨literal.inRole .value, rfl, hliteral.inRole .value⟩

theorem IsVariable.isNamed {n : Node} (h : IsVariable name x n) : n.isNamed = true := by
  have hlabel : n.label = .named .variableDeclarator := of_decide_eq_true h.declarator
  rw [Node.isNamed, hlabel]

theorem isConstant_build {m n m' : Node} (place : Place) (hm : IsMark "const" m)
    (hn : IsVariable name x n) (hm' : IsMark ";" m') :
    IsConstant name x (build .lexicalDeclaration place [m, n, m']) where
  declaration := rfl
  sound := by simp [hasFault_build, Node.anyFault, hm.hasFault, hn.sound, hm'.hasFault]
  child := ⟨n, by simp [Node.namedChildren, build, hm.isNamed, hn.isNamed, hm'.isNamed], hn⟩

end

section

variable {name text cs : List Char} {x : Value}

theorem operatorOf_equals (cs : List Char) : operatorOf ('=' :: ' ' :: cs) = "=" := rfl

/-- An initial value is read after an equals sign. -/
theorem Ensures.optionalInitializer {Q : Unit → State → Prop} (hx : ReadsLiteral g text x)
    (hs : s.cursor.rest = ' ' :: '=' :: ' ' :: (text ++ cs)) (hcs : Stops cs)
    (hQ : ∀ m n t, IsMark "=" m → IsLiteral x n → Moves s t cs (n.inRole .value :: m :: s.made) → Q () t) :
    Ensures (optionalInitializer g true) s Q := by
  have hfresh : Fresh ('=' :: ' ' :: (text ++ cs)) := .cons (by decide)
  have hs' : s.cursor.rest = [' '] ++ ("=".toList ++ ' ' :: (text ++ cs)) := hs
  have hahead : afterTrivia s.cursor.rest = '=' :: ' ' :: (text ++ cs) := by
    rw [hs']
    exact afterTrivia_append blanks_space hfresh
  have hread : Ensures (do
      mark "="
      Parser.field .value (g (.expression { ends := true }))) s Q := by
    rw [ensures_bind]
    refine Ensures.mark hs' blanks_space hfresh fun stop t ht => ?_
    have ht' : t.cursor.rest = [' '] ++ (text ++ cs) := ht.rest_eq
    refine Ensures.field ht' blanks_space (hx.starts.fresh cs) fun u hu => ?_
    refine (hx.apply { ends := true } hu.rest_eq hcs).mono fun n w hw => ?_
    obtain ⟨hn, -, hw⟩ := hw
    have hmoves := ht.trans (hu.trans hw)
    rw [hu.made_eq, ht.made_eq] at hmoves
    exact hQ _ n _ ⟨_, stop, rfl⟩ hn (hmoves.push _)
  simpa [Grammar.optionalInitializer, seesAssign, ahead, hahead, operatorOf_equals] using hread

/-- A word is bound as it stands. -/
theorem Ensures.binding (hname : IsWord name) (hs : s.cursor.rest = name ++ ' ' :: cs) :
    Ensures (binding g) s fun n t => IsBound name n ∧ Moves s t (' ' :: cs) s.made := by
  have hread : Ensures (word .identifier) s fun n t =>
      IsBound name n ∧ Moves s t (' ' :: cs) s.made :=
    Ensures.word hname endsWord_space hs fun stop t ht => ⟨⟨_, stop, rfl⟩, ht⟩
  cases name with
  | nil => exact absurd hname (by decide)
  | cons c w =>
    have hne : c ∉ ['\x7b', '['] := notMem_of_isWordPart hname.head.1 (by decide)
    simp only [List.mem_cons, List.not_mem_nil, or_false, not_or] at hne
    simpa [Grammar.binding, hs, hne] using hread

/-- A variable is read with its initial value; no type comes before it. -/
theorem Ensures.declarator {Q : Node → State → Prop} (hname : IsWord name) (hx : ReadsLiteral g text x)
    (hs : s.cursor.rest = name ++ ' ' :: '=' :: ' ' :: (text ++ cs)) (hcs : Stops cs)
    (hQ : ∀ n t, IsVariable name x n → Moves s t cs s.made → Q n t) : Ensures (declarator v g) s Q := by
  have hfresh : Fresh ('=' :: ' ' :: (text ++ cs)) := .cons (by decide)
  have hname' : Fresh (name ++ ' ' :: '=' :: ' ' :: (text ++ cs)) := hname.fresh _
  have hblank : s.cursor.rest = [] ++ (name ++ ' ' :: '=' :: ' ' :: (text ++ cs)) := hs
  rw [Grammar.declarator]
  refine Ensures.node ?_
  rw [ensures_bind]
  refine Ensures.field (s := { s with made := [] }) hblank Blanks.nil hname' fun t ht => ?_
  refine (Ensures.binding hname ht.rest_eq).mono fun n u hu => ?_
  obtain ⟨hn, hu⟩ := hu
  have hvalue : Ensures (Grammar.optionalInitializer g true) { u with made := [n.inRole .name] } fun _ w =>
      Q (build .variableDeclarator s.cursor.place w.made.reverse) { w with made := s.made } := by
    refine Ensures.optionalInitializer hx hu.rest_eq hcs fun m literal w hm hliteral hw => ?_
    rw [hw.made_eq]
    exact hQ _ _ (isVariable_build _ hn hm hliteral)
      ⟨hw.rest_eq, rfl, (ht.trans hu).byte_le.trans hw.byte_le⟩
  have hmade : n.inRole .name :: u.made = [n.inRole .name] := by rw [hu.made_eq, ht.made_eq]
  have hahead : afterTrivia u.cursor.rest = '=' :: ' ' :: (text ++ cs) := by
    rw [hu.rest_eq]
    exact afterTrivia_append blanks_space hfresh
  cases htyped : v.typed <;>
    simpa [hmade, htyped, ahead, hahead, operatorOf_equals, optionalColonType, sees, List.isPrefixOf]
      using hvalue

/-- No further variable follows before a semicolon. -/
theorem Ensures.noComma {item : Parser Unit} {Q : Unit → State → Prop} (hs : s.cursor.rest = ';' :: cs)
    (hQ : Q () s) : Ensures (loop do
      if ← sees "," then
        mark ","
        item
        pure true
      else pure false) s Q := by
  have hstep : ∃ t, Repeats (do
      if ← sees "," then
        mark ","
        item
        pure true
      else pure false) s t ∧ Q () t := by
    refine Ensures.repeats_stop ?_
    rw [ensures_bind]
    have hblank : s.cursor.rest = [] ++ ';' :: cs := hs
    refine Ensures.sees_char (show ",".toList = [','] from rfl) hblank Blanks.nil (.cons (by decide)) ?_
    rw [if_neg (by decide), ensures_pure]
    exact ⟨rfl, hQ⟩
  obtain ⟨t, hrepeats, hQt⟩ := hstep
  exact hrepeats.ensures_loop hQt

/-- The declaration of a constant is read whole. -/
theorem Ensures.constant {fuel : Nat} {Q : Node → State → Prop} (hname : IsWord name)
    (henum : String.ofList name ≠ "enum") (hx : ReadsLiteral (derive v fuel) text x)
    (hs : s.cursor.rest = constantChars name text)
    (hQ : ∀ n t, IsConstant name x n → Moves s t [] s.made → Q n t) :
    Ensures (wordStatement v (derive v fuel)) s Q := by
  have hstop : Stops [';'] := ⟨[], ';', [], Blanks.nil, by simp, rfl⟩
  have hconst : IsWord constWord := by decide
  have hs' : s.cursor.rest = [] ++ (constWord ++ ' ' :: (name ++ ' ' :: '=' :: ' ' :: (text ++ [';']))) := hs
  have hstatement : Ensures (variableStatement v (derive v fuel) .lexicalDeclaration "const") s Q := by
    rw [variableStatement]
    refine Ensures.node ?_
    rw [ensures_bind]
    refine Ensures.keyword (s := { s with made := [] }) rfl hconst endsWord_space hs' Blanks.nil
      fun m t hm ht => ?_
    have ht' : t.cursor.rest = [' '] ++ (name ++ ' ' :: '=' :: ' ' :: (text ++ [';'])) := ht.rest_eq
    rw [declarators, commaSeparated, ensures_bind, ensures_bind, add, ensures_bind]
    refine Ensures.wideGap ht' blanks_space (hname.fresh _) fun u hu => ?_
    rw [ensures_bind]
    refine Ensures.declarator hname hx hu.rest_eq hstop fun n w hn hw => ?_
    rw [ensures_push]
    have hmoves := (ht.trans (hu.trans hw)).push n
    rw [hu.made_eq, ht.made_eq] at hmoves
    refine Ensures.noComma hmoves.rest_eq ?_
    rw [ensures_bind]
    refine (ensures_of_eq rfl).mpr (Ensures.semicolon hmoves.rest_eq fun m' y hm' hy => ?_)
    have hmade : y.made.reverse = [m, n, m'] := by rw [hy.made_eq, hmoves.made_eq]; rfl
    rw [hmade]
    exact hQ _ _ (isConstant_build _ hm hn hm') ⟨hy.rest_eq, rfl, (hmoves.trans hy).byte_le⟩
  have hword : wordOf s.cursor.rest = "const" := by
    rw [hs']
    exact wordOf_append hconst endsWord_space _
  have hskip : afterTrivia (' ' :: (name ++ ' ' :: '=' :: ' ' :: (text ++ [';']))) =
      name ++ ' ' :: '=' :: ' ' :: (text ++ [';']) := afterTrivia_append blanks_space (hname.fresh _)
  have hafter : wordOf (afterWord s.cursor.rest) ≠ "enum" := by
    rw [hs', List.nil_append, afterWord, wordLength_append hconst endsWord_space, List.drop_left, hskip,
      wordOf_append hname endsWord_space]
    exact henum
  rw [wordStatement, ensures_bind, ensures_rest, hword]
  simpa [hafter] using hstatement

end

/-- The declaration of a constant is a program in every variant if its initial value is read. -/
theorem ofText_constant {x : Value} (name : List Char) (hname : IsWord name)
    (henum : String.ofList name ≠ "enum")
    {literal text : List Char} (htext : text = constantChars name literal) (hnul : '\x00' ∉ literal)
    (hread : ReadsLiteral (derive v (4 * text.length + 15)) literal x) :
    ∃ place n, IsConstant name x n ∧
      Program.ofText v (String.ofList text) = .ok ⟨v, text, build .program place [n]⟩ := by
  have hnul' : '\x00' ∉ text := by
    have hpart : '\x00' ∉ name := fun h => absurd (List.all_eq_true.mp hname.2 _ h) (by decide)
    simp [htext, constantChars, constWord, hpart, hnul]
  have hfuel : depthFor text = (4 * text.length + 15) + 1 := rfl
  refine ofText_statement (by decide) htext hnul' hfuel (fun n hn => hn.sound) fun t ht => ?_
  exact Ensures.constant hname henum hread ht fun n u hn hu => ⟨hn, hu⟩

/-- The declaration of a constant with a written plain value is a program in every variant. -/
theorem ofText_constantChars (v : Variant) (sp : Json.Spacing) {x : Value} (hx : x.Plain FitsReal)
    (name : List Char) (hname : IsWord name) (henum : String.ofList name ≠ "enum") {text : List Char}
    (htext : text = constantChars name (Json.chars sp 0 x)) :
    ∃ place n, IsConstant name x n ∧
      Program.ofText v (String.ofList text) = .ok ⟨v, text, build .program place [n]⟩ := by
  have hdepth := Json.nesting_le_length sp hx 0
  have hlength : (Json.chars sp 0 x).length ≤ text.length := by
    rw [htext]
    simp only [constantChars, List.length_append, List.length_cons]
    omega
  exact ofText_constant name hname henum htext (Json.nul_notMem_chars sp hx 0)
    (readsLiteral_chars sp hx 0 _ (by omega))

end StoryManifest.Source

namespace StoryManifest.Literal

open Source (Program Variant FitsReal)

/-- The text of the declaration of a constant. -/
def constantText (text : String) : String := "const x = " ++ text ++ ";"

theorem constantText_eq (text : List Char) :
    constantText (String.ofList text) = String.ofList (Source.constantChars ['x'] text) := by
  rw [← String.toList_inj]
  simp [constantText, Source.constantChars, Source.constWord]

/-- A text is an expression with a value: declaring a constant with this text as its initial value makes a
program whose only variable has an initial value that evaluates to the value. -/
def EvaluatesTo (v : Variant) (text : List Char) (x : Value) : Prop :=
  ∃ program declaration declarator initializer,
    Program.ofText v (constantText (String.ofList text)) = .ok program ∧
    program.root.namedChildren = [declaration] ∧ declaration.is .lexicalDeclaration = true ∧
    declaration.namedChildren = [declarator] ∧ declarator.is .variableDeclarator = true ∧
    declarator.child? .value = some initializer ∧ evaluate initializer = x

/-- A text has at most one value as an expression. -/
theorem EvaluatesTo.unique {v : Variant} {text : List Char} {x y : Value} (h : EvaluatesTo v text x)
    (h' : EvaluatesTo v text y) : x = y := by
  obtain ⟨p, declaration, declarator, initializer, hp, hroot, -, hchild, -, hvalue, rfl⟩ := h
  obtain ⟨q, declaration', declarator', initializer', hq, hroot', -, hchild', -, hvalue', rfl⟩ := h'
  obtain rfl : p = q := Except.ok.inj (hp.symm.trans hq)
  obtain rfl : declaration = declaration' := List.singleton_inj.mp (hroot.symm.trans hroot')
  obtain rfl : declarator = declarator' := List.singleton_inj.mp (hchild.symm.trans hchild')
  rw [Option.some.inj (hvalue.symm.trans hvalue')]

/-- A text that the grammar reads as a literal of a value has that value. -/
theorem evaluatesTo_of_reads {v : Variant} {text : List Char} {x : Value} (hnul : '\x00' ∉ text)
    (h : ∀ fuel, Source.ReadsLiteral (Source.Grammar.derive v (fuel + 2)) text x) :
      EvaluatesTo v text x := by
  obtain ⟨place, n, hn, hprogram⟩ := Source.ofText_constant ['x'] (by decide) (by decide) rfl hnul (h _)
  obtain ⟨declarator, hchildren, hdeclarator⟩ := hn.child
  obtain ⟨literal, hvalue, hliteral⟩ := hdeclarator.value
  have hlabel : n.label = .named .lexicalDeclaration := of_decide_eq_true hn.declaration
  rw [← constantText_eq] at hprogram
  refine ⟨_, n, declarator, literal, hprogram, ?_, hn.declaration, hchildren, hdeclarator.declarator, hvalue,
    hliteral.value⟩
  simp [Source.Parser.build, Source.Node.namedChildren, Source.Node.isNamed, hlabel]

/-- Evaluating undoes writing: in every variant the compact text of a plain value is the initial value
of a constant, and evaluates to that value. -/
theorem evaluate_constantText (v : Variant) {x : Value} (hx : x.Plain FitsReal) :
    ∃ text program declaration declarator name initializer,
      Json.compact x = some text ∧ Program.ofText v (constantText text) = .ok program ∧
      program.root.namedChildren = [declaration] ∧ declaration.is .lexicalDeclaration = true ∧
      declaration.namedChildren = [declarator] ∧ declarator.is .variableDeclarator = true ∧
      declarator.child? .name = some name ∧ name.text = "x" ∧
      declarator.child? .value = some initializer ∧ evaluate initializer = x := by
  obtain ⟨place, n, hn, hprogram⟩ := Source.ofText_constantChars v .compact hx ['x'] (by decide)
    (by decide) rfl
  obtain ⟨declarator, hchildren, hdeclarator⟩ := hn.child
  obtain ⟨bound, hname, start, stop, rfl⟩ := hdeclarator.name
  obtain ⟨literal, hvalue, hliteral⟩ := hdeclarator.value
  have hlabel : n.label = .named .lexicalDeclaration := of_decide_eq_true hn.declaration
  rw [← constantText_eq] at hprogram
  refine ⟨_, _, n, declarator, _, literal, Json.write_of_not_marked .compact 0 hx.not_marked, hprogram, ?_,
    hn.declaration, hchildren, hdeclarator.declarator, hname, rfl, hvalue, hliteral.value⟩
  simp [Source.Parser.build, Source.Node.namedChildren, Source.Node.isNamed, hlabel]

/-- Nested values with escapes, a negative number and an empty key. -/
def sampleValue : Value :=
  .record [("", .list [.null, .number (.integer (-9007199254740992)), .bool false]),
    ("__proto__", .record [("q\"uote\n", .text "\x00\u2028\u1F600\\")]), ("e", .record [])]

theorem evaluate_constantText_sampleValue :
    ∃ text program declaration declarator name initializer,
      Json.compact sampleValue = some text ∧ Program.ofText .tsx (constantText text) = .ok program ∧
      program.root.namedChildren = [declaration] ∧ declaration.is .lexicalDeclaration = true ∧
      declaration.namedChildren = [declarator] ∧ declarator.is .variableDeclarator = true ∧
      declarator.child? .name = some name ∧ name.text = "x" ∧
      declarator.child? .value = some initializer ∧ evaluate initializer = sampleValue := by
  refine evaluate_constantText .tsx (.record (by decide) ?_)
  have hlist : Value.Plain FitsReal (.list [.null, .number (.integer (-9007199254740992)), .bool false]) :=
    .list (by simpa using ⟨.null, .number (by decide), .bool false⟩)
  have hnested : Value.Plain FitsReal (.record [("q\"uote\n", .text "\x00\u2028\u1F600\\")]) :=
    .record (by decide) (by simpa using .text _)
  simpa using ⟨hlist, hnested, .record (by decide) (by simp)⟩

end StoryManifest.Literal
