import StoryManifest.Proofs.Source.Program

/-!
References to modules. The text `require('…').default` around characters that stand for themselves is a
program of one expression: a member of a call of `require` for a string, which stands for the characters.
-/

namespace StoryManifest.Source

open Source.Parser Source.Grammar

/-! ### The tree of a reference -/

/-- A leaf with a label and a text, in whatever role. -/
structure Node.Spells (n : Node) (label : Label) (text : String) : Prop where
  label : n.label = label
  text : n.text = text
  children : n.children = []

/-- A node of a kind with just these parts. -/
structure Node.Over (n : Node) (kind : Kind) (parts : List Node) : Prop where
  label : n.label = .named kind
  children : n.children = parts

/-- Arguments that are a single string. -/
def IsSingleArgument (literal n : Node) : Prop :=
  ∃ opening closing : Node, n.Over .arguments [opening, literal, closing] ∧ opening.Spells (.token "(") "(" ∧
    literal.is .string = true ∧ closing.Spells (.token ")") ")"

/-- A call of `require` for a string. -/
def IsRequireCall (literal n : Node) : Prop :=
  ∃ callee list : Node, n.Over .callExpression [callee, list] ∧
    callee.Spells (.named .identifier) "require" ∧ IsSingleArgument literal list

/-- The member `default` of such a call. -/
def IsDefaultMember (literal n : Node) : Prop :=
  ∃ call dot property : Node, n.Over .memberExpression [call, dot, property] ∧ IsRequireCall literal call ∧
    dot.Spells (.token ".") "." ∧ property.Spells (.named .propertyIdentifier) "default"

/-- Such a member as a statement. -/
def IsReferenceStatement (literal n : Node) : Prop :=
  ∃ access : Node, n.Over .expressionStatement [access] ∧ IsDefaultMember literal access

/-- A program that is such a statement. -/
def IsReference (literal root : Node) : Prop :=
  ∃ statement : Node, root.Over .program [statement] ∧ IsReferenceStatement literal statement

/-! ### The text of a reference -/

/-- The word that names the function that is called. -/
def requireWord : List Char := ['r', 'e', 'q', 'u', 'i', 'r', 'e']

/-- The word that names the member of what it returns. -/
def memberWord : List Char := ['d', 'e', 'f', 'a', 'u', 'l', 't']

/-- What follows the word for the function, around some characters. -/
def callChars (shown : List Char) : List Char := '(' :: '\'' :: (shown ++ '\'' :: ')' :: '.' :: memberWord)

/-- The text of a reference around some characters. -/
def referenceChars (shown : List Char) : List Char := requireWord ++ callChars shown

theorem isWord_require : IsWord requireWord := by decide

theorem endsWord_parenthesis : EndsWord '(' := ⟨by decide, by decide⟩

variable {v : Variant} {g : Grammar} {setting : Setting} {s : State}

namespace Parser

variable {α : Type} {Q : α → State → Prop}

/-! ### Rewriting in several steps -/

/-- Steps rewrite a value until one of them gives none, and every other one reads something. -/
inductive Rewrites (step : α → Parser (Option α)) : α → State → α → State → Prop
  | stop {a : α} {s t : State} : step a s = .done none t → Rewrites step a s a t
  | more {a b c : α} {s t u : State} : step a s = .done (some b) t →
      t.cursor.rest.length < s.cursor.rest.length → Rewrites step b t c u → Rewrites step a s c u

theorem iterateOver_of_rewrites {step : α → Parser (Option α)} {a b : α} {s t : State}
    (h : Rewrites step a s b t) :
    ∀ text : List Char, s.cursor.rest.length ≤ text.length → iterateOver step text a s = .done b t := by
  induction h with
  | stop hstep =>
    intro text _
    cases text <;> simp [iterateOver, hstep]
  | more hstep hlt _ ih =>
    intro text hle
    cases text with
    | nil => exact absurd hlt (by rw [List.length_nil] at hle; omega)
    | cons c text =>
      rw [List.length_cons] at hle
      simp only [iterateOver, hstep]
      exact ih text (by omega)

theorem Rewrites.ensures_iterate {step : α → Parser (Option α)} {a b : α} {t : State}
    (h : Rewrites step a s b t)
    (hQ : Q b t) : Ensures (iterate step a) s Q :=
  ⟨b, t, iterateOver_of_rewrites h _ (Nat.le_refl _), hQ⟩

theorem Ensures.rewrites_stop {step : α → Parser (Option α)} {a : α} {R : α → State → Prop}
    (h : Ensures (step a) s fun o t => o = none ∧ R a t) : ∃ b t, Rewrites step a s b t ∧ R b t := by
  obtain ⟨o, t, hstep, rfl, hR⟩ := h
  exact ⟨a, t, .stop hstep, hR⟩

theorem Ensures.rewrites_more {step : α → Parser (Option α)} {a : α} {R : α → State → Prop}
    (h : Ensures (step a) s fun o t => ∃ b, o = some b ∧ t.cursor.rest.length < s.cursor.rest.length ∧
      ∃ c u, Rewrites step b t c u ∧ R c u) : ∃ c u, Rewrites step a s c u ∧ R c u := by
  obtain ⟨o, t, hstep, b, rfl, hlt, c, u, hu, hR⟩ := h
  exact ⟨c, u, .more hstep hlt hu, hR⟩

end Parser

/-! ### What comes after an operand -/

section

variable {c : Char} {cs : List Char}

/-- No statement ends before punctuation that goes on with an expression. -/
theorem endsSoon_cons (hc : isBlank c = false ∧ c ∉ ['/', '-', '<', '\x7d', '\n', '\u2028', '\u2029']) :
    endsSoon v true false (c :: cs) = false := by
  obtain ⟨hblank, hne⟩ := hc
  simp only [List.mem_cons, List.not_mem_nil, or_false, not_or] at hne
  have hplain : isPlainBlank c = false := by
    simp only [isBlank, Bool.or_eq_false_iff] at hblank
    exact hblank.1.1.1.1
  have hfresh : Fresh (c :: cs) := .cons ⟨hblank, by simp [hne]⟩
  have hends : endsStatement v true false (c :: cs) = false := by
    cases v <;> simp [endsStatement, Variant.typed, endsTyped, endsPlain, hplain, isLineEnd, hne]
  have hskip : (c :: cs).dropWhile isBlank = c :: cs := List.dropWhile_cons_of_neg (by simp [hblank])
  rw [endsSoon, endsSoonUpTo, hends, if_neg (by decide), hskip]
  simp only [hfresh.comment]

theorem afterTrivia_cons (hc : isBlank c = false ∧ c ∉ ['/', '-', '<']) : afterTrivia (c :: cs) = c :: cs :=
  afterTrivia_append Blanks.nil (.cons hc)

/-- A parenthesis after what can be called opens its arguments. -/
theorem extend_parenthesis {left : Node} (hlevel : setting.level ≤ Level.target)
    (hs : s.cursor.rest = '(' :: cs) :
    extend v g setting left s = (do
      return some (← node .callExpression do
        push left
        add (arguments g)) : Parser (Option Node)) s := by
  have htrivia : afterTrivia ('(' :: cs) = '(' :: cs := afterTrivia_cons (by decide)
  rw [extend, rest_bind, hs, endsSoon_cons (by decide), Bool.and_false, if_neg (by decide), htrivia]
  simp [hlevel]

/-- A point after an operand names a member of it. -/
theorem extend_point {left : Node} (hs : s.cursor.rest = '.' :: cs) :
    extend v g setting left s = (do return some (← memberAccess left ".") : Parser (Option Node)) s := by
  have htrivia : afterTrivia ('.' :: cs) = '.' :: cs := afterTrivia_cons (by decide)
  rw [extend, rest_bind, hs, endsSoon_cons (by decide), Bool.and_false, if_neg (by decide), htrivia]
  simp

/-- At the end of a text nothing makes a larger expression of an operand. -/
theorem Ensures.extend_end {left : Node} {Q : Option Node → State → Prop} (hs : s.cursor.rest = [])
    (hQ : Q none s) : Ensures (extend v g setting left) s Q := by
  have htrivia : afterTrivia [] = [] := rfl
  rw [extend, ensures_bind, ensures_rest, hs, htrivia]
  split <;> simpa using hQ

end

/-! ### Reading a reference -/

section

variable {cs : List Char}

theorem wordOf_require : wordOf (requireWord ++ '(' :: cs) = "require" :=
  wordOf_append isWord_require endsWord_parenthesis cs

theorem afterWord_require : afterWord (requireWord ++ '(' :: cs) = '(' :: cs := by
  rw [afterWord, wordLength_append isWord_require endsWord_parenthesis, List.drop_left]
  exact afterTrivia_cons (by decide)

variable (hs : s.cursor.rest = requireWord ++ '(' :: cs)

include hs

/-- A name that stands for nothing else is read where it is called. -/
theorem operand_require : operand v g setting s = word .identifier s := by
  have harrow : startsArrow ('(' :: cs) = false := rfl
  have hoperand : operand v g setting s = wordOperand v g setting s := by
    rw [operand, rest_bind, hs]
    rfl
  rw [hoperand, wordOperand, rest_bind, hs, wordOf_require]
  simp only [fixedWord?, unaryWords, nameOrArrow]
  simp [rest_bind, hs, afterWord_require, harrow]

/-- A call of a name is a statement of its own. -/
theorem wordStatement_require : wordStatement v g s = expressionStatement v g s := by
  rw [wordStatement, rest_bind, hs, wordOf_require]
  simp only [opensFunction, opensClass, opensAmbient, isLabelled, typedDeclaration?, opensAlias, opensModule,
    wordOf_require, afterWord_require]
  simp

theorem Ensures.word_require {Q : Node → State → Prop}
    (hQ : ∀ n t, n.Spells (.named .identifier) "require" → n.hasFault = false →
      Moves s t ('(' :: cs) s.made → Q n t) :
    Ensures (word .identifier) s Q :=
  Ensures.word isWord_require endsWord_parenthesis hs fun _ _ ht => hQ _ _ ⟨rfl, rfl, rfl⟩ rfl ht

end

/-- The word for the member is read up to the end of the text. -/
theorem Ensures.word_member {kind : Kind} {Q : Node → State → Prop} (hs : s.cursor.rest = memberWord)
    (hQ : ∀ stop t, Moves s t [] s.made → Q (.leaf (.named kind) s.cursor.place stop "default") t) :
    Ensures (word kind) s Q := by
  have hlength : wordLength memberWord = memberWord.length := by decide
  have hs' : s.cursor.rest = memberWord ++ [] := by rw [hs, List.append_nil]
  simp only [word, ensures_bind, ensures_rest, ensures_require, hs, hlength]
  exact ⟨by decide, Ensures.take hs' rfl hQ⟩

/-- Characters that stand for themselves are a row of them. -/
theorem body_of_isPlain {quote next : Char} : ∀ {cs : List Char}, (∀ c ∈ cs, isPlain quote c = true) →
    Body quote next cs (Text.Utf16.units cs)
  | [], _ => .nil
  | c :: cs, h => by
    rw [List.forall_mem_cons] at h
    exact .plain h.1 (body_of_isPlain h.2)

section

variable {shown cs : List Char} (hshown : ∀ c ∈ shown, isPlain '\'' c = true)

include hshown

/-- A string before a closing parenthesis is a whole expression. -/
theorem Ensures.expression_quoted {Q : Node → State → Prop}
    (hs : s.cursor.rest = '\'' :: (shown ++ '\'' :: ')' :: cs))
    (hQ : ∀ n t, IsString (String.ofList shown) n → Moves s t (')' :: cs) s.made → Q n t) :
    Ensures (Grammar.expression v g setting) s Q := by
  rw [Grammar.expression, ensures_bind]
  refine Ensures.operand_quote (by decide) hs (Ensures.quoted (by decide) (body_of_isPlain hshown) hs
    fun n t hn _ ht => ?_)
  rw [Text.Utf16.ofUnits_units] at hn
  have htrivia : afterTrivia t.cursor.rest = ')' :: cs := by
    rw [ht.rest_eq]
    exact afterTrivia_cons (by decide)
  exact Ensures.iterate (Ensures.extend_inert (by decide) htrivia ⟨rfl, hQ n t hn ht⟩)

/-- A string in parentheses is read as arguments. -/
theorem Ensures.arguments_quoted {fuel : Nat} {Q : Node → State → Prop}
    (hs : s.cursor.rest = '(' :: '\'' :: (shown ++ '\'' :: ')' :: cs))
    (hQ : ∀ literal n t, IsString (String.ofList shown) literal → IsSingleArgument literal n →
      n.hasFault = false →
      Moves s t cs s.made → Q n t) : Ensures (arguments (derive v (fuel + 1))) s Q := by
  have hquote : Fresh ('\'' :: (shown ++ '\'' :: ')' :: cs)) := .cons (by decide)
  have hclose : Fresh (')' :: cs) := .cons (by decide)
  have hopen : Fresh ('(' :: '\'' :: (shown ++ '\'' :: ')' :: cs)) := .cons (by decide)
  refine Ensures.node ?_
  rw [Grammar.bracketed, ensures_bind]
  have hs' : s.cursor.rest = [] ++ ("(".toList ++ '\'' :: (shown ++ '\'' :: ')' :: cs)) := hs
  refine Ensures.mark (s := { s with made := [] }) hs' Blanks.nil hopen fun stop t ht => ?_
  have hcloser : ")".toList = [')'] := rfl
  have hlist : ∃ u, Repeats (Grammar.listStep ")" true (spreadOr (derive v (fuel + 1)))) t u ∧
      ∃ literal, IsString (String.ofList shown) literal ∧ Moves t u (')' :: cs) (literal :: t.made) := by
    refine Ensures.repeats_stop (Ensures.listStep_item (show t.cursor.rest = [] ++ _ from ht.rest_eq)
      Blanks.nil hquote
      hcloser (by decide) (by decide) fun u hu => ?_)
    rw [spreadOr, ensures_bind]
    refine Ensures.sees (show u.cursor.rest = [] ++ _ from hu.rest_eq) Blanks.nil hquote ?_
    rw [if_neg (by simp), add, ensures_bind]
    refine Ensures.wideGap_none hu.rest_eq hquote fun w hw => ?_
    rw [ensures_bind]
    refine Ensures.expression_quoted hshown hw.rest_eq fun literal x hliteral hx => ?_
    rw [ensures_push]
    refine Ensures.furtherItem_none (show x.cursor.rest = [] ++ _ from hx.rest_eq) Blanks.nil
      (by decide) hclose
      ⟨rfl, literal, hliteral, ?_⟩
    rw [hw.made_eq, hu.made_eq] at hx
    exact (hu.trans (hw.trans hx)).push literal
  obtain ⟨u, hu, literal, hliteral, hmoves⟩ := hlist
  rw [ensures_bind]
  refine hu.ensures_loop ?_
  have hu' : u.cursor.rest = [] ++ (")".toList ++ cs) := hmoves.rest_eq
  refine Ensures.mark hu' Blanks.nil hclose fun stop' w hw => ?_
  have hmade : w.made.reverse = [.leaf (.token "(") s.cursor.place stop "(", literal,
      .leaf (.token ")") u.cursor.place stop' ")"] := by
    rw [hw.made_eq, hmoves.made_eq, ht.made_eq]
    rfl
  obtain ⟨place, children, hkind⟩ := hliteral.node
  have hstring : literal.is .string = true := by rw [hkind]; rfl
  rw [hmade]
  refine hQ literal _ _ hliteral ⟨_, _, ⟨rfl, rfl⟩, ⟨rfl, rfl, rfl⟩, hstring, ⟨rfl, rfl, rfl⟩⟩ ?_
    ⟨hw.rest_eq, rfl, ?_⟩
  · simp [hasFault_build, Node.anyFault, hliteral.sound, hasFault_token]
  · exact ht.byte_le.trans (hmoves.byte_le.trans hw.byte_le)

/-- A call of a name with a string in parentheses. -/
theorem Ensures.extend_call {fuel : Nat} {left : Node} {Q : Option Node → State → Prop}
    (hleft : left.Spells (.named .identifier) "require") (hsound : left.hasFault = false)
    (hlevel : setting.level ≤ Level.target)
    (hs : s.cursor.rest = '(' :: '\'' :: (shown ++ '\'' :: ')' :: cs))
    (hQ : ∀ literal n t, IsString (String.ofList shown) literal → IsRequireCall literal n →
      n.hasFault = false →
      Moves s t cs s.made → Q (some n) t) : Ensures (extend v (derive v (fuel + 1)) setting left) s Q := by
  have hopen : Fresh ('(' :: '\'' :: (shown ++ '\'' :: ')' :: cs)) := .cons (by decide)
  refine Ensures.of_eq (extend_parenthesis hlevel hs) ?_
  rw [ensures_bind]
  refine Ensures.node ?_
  rw [ensures_bind, ensures_push, add, ensures_bind]
  refine Ensures.wideGap_none (s := { s with made := [left] }) hs hopen fun t ht => ?_
  rw [ensures_bind]
  refine Ensures.arguments_quoted hshown ht.rest_eq fun literal list u hliteral hlist hfault hu => ?_
  rw [ensures_push, ensures_pure]
  have hmade : (list :: u.made).reverse = [left, list] := by rw [hu.made_eq, ht.made_eq]; rfl
  rw [hmade]
  refine hQ literal _ _ hliteral ⟨_, _, ⟨rfl, rfl⟩, hleft, hlist⟩ ?_
    ⟨hu.rest_eq, rfl, ht.byte_le.trans hu.byte_le⟩
  simp [hasFault_build, Node.anyFault, hsound, hfault]

omit hshown in
/-- A point and the last word of the text make a member. -/
theorem Ensures.extend_default {left literal : Node} {Q : Option Node → State → Prop}
    (hleft : IsRequireCall literal left) (hsound : left.hasFault = false)
    (hs : s.cursor.rest = '.' :: memberWord)
    (hQ : ∀ n t, IsDefaultMember literal n → n.hasFault = false → Moves s t [] s.made → Q (some n) t) :
    Ensures (extend v g setting left) s Q := by
  have hword : left.is .importWord = false := by
    obtain ⟨callee, list, hcall, -⟩ := hleft
    simp [Node.is, hcall.label]
  refine Ensures.of_eq (extend_point hs) ?_
  rw [ensures_bind, memberAccess, ensures_bind, ahead, ensures_bind, ensures_rest, ensures_pure, hword,
    Bool.false_and]
  dsimp only
  rw [if_neg (by decide)]
  refine Ensures.node ?_
  rw [ensures_bind, ensures_push, ensures_bind]
  have hs' : s.cursor.rest = [] ++ (".".toList ++ memberWord) := hs
  refine Ensures.mark (s := { s with made := [left.inRole .object] }) hs' Blanks.nil (.cons (by decide))
    fun stop t ht => ?_
  have hfresh : Fresh memberWord := .cons (by decide)
  rw [ensures_bind]
  refine Ensures.wideGap_none ht.rest_eq hfresh fun u hu => ?_
  rw [ensures_bind]
  refine Ensures.sees (show u.cursor.rest = [] ++ memberWord from hu.rest_eq) Blanks.nil hfresh ?_
  rw [if_neg (by decide), ensures_bind]
  refine Ensures.word_member hu.rest_eq fun stop' w hw => ?_
  rw [ensures_push, ensures_pure]
  have hmade : (Node.inRole .property (.leaf (.named .propertyIdentifier) u.cursor.place stop' "default") ::
      w.made).reverse = [left.inRole .object, .leaf (.token ".") s.cursor.place stop ".",
        Node.inRole .property (.leaf (.named .propertyIdentifier) u.cursor.place stop' "default")] := by
    rw [hw.made_eq, hu.made_eq, ht.made_eq]
    rfl
  rw [hmade]
  have hcall : IsRequireCall literal (left.inRole .object) := by
    obtain ⟨callee, list, ⟨hlabel, hchildren⟩, hparts⟩ := hleft
    exact ⟨callee, list, ⟨hlabel, hchildren⟩, hparts⟩
  refine hQ _ _ ⟨_, _, _, ⟨rfl, rfl⟩, hcall, ⟨rfl, rfl, rfl⟩, ⟨rfl, rfl, rfl⟩⟩ ?_ ⟨hw.rest_eq, rfl, ?_⟩
  · have hproperty :
        ∀ start stop, (Node.leaf (.named .propertyIdentifier) start stop "default").hasFault = false :=
      fun _ _ => rfl
    simp [hasFault_build, Node.anyFault, hasFault_inRole, hsound, hasFault_token, hproperty]
  · exact ht.byte_le.trans (hu.byte_le.trans hw.byte_le)

/-- The text of a reference is read whole as one expression. -/
theorem Ensures.expression_reference {fuel : Nat} {Q : Node → State → Prop}
    (hlevel : setting.level ≤ Level.target)
    (hs : s.cursor.rest = referenceChars shown)
    (hQ : ∀ literal n t, IsString (String.ofList shown) literal → IsDefaultMember literal n →
      n.hasFault = false →
      Moves s t [] s.made → Q n t) : Ensures (Grammar.expression v (derive v (fuel + 1)) setting) s Q := by
  rw [Grammar.expression, ensures_bind]
  refine Ensures.of_eq (operand_require hs) (Ensures.word_require hs fun callee t hcallee hsound ht => ?_)
  -- Two steps make a larger expression of the name, and the third one finds the end of the text.
  have hsteps : ∃ n w, Rewrites (extend v (derive v (fuel + 1)) setting) callee t n w ∧ Q n w := by
    refine Ensures.rewrites_more (Ensures.extend_call hshown hcallee hsound hlevel ht.rest_eq
      fun literal call u hliteral hcall hfault hu => ⟨call, rfl, ?_, ?_⟩)
    · rw [hu.rest_eq, ht.rest_eq]
      simp only [List.length_cons, List.length_append]
      omega
    refine Ensures.rewrites_more (Ensures.extend_default hcall hfault hu.rest_eq
      fun n w hn hfault' hw => ⟨n, rfl, ?_, ?_⟩)
    · rw [hw.rest_eq, hu.rest_eq]
      simp
    refine Ensures.rewrites_stop (Ensures.extend_end hw.rest_eq ⟨rfl, ?_⟩)
    rw [hu.made_eq, ht.made_eq] at hw
    exact hQ literal n w hliteral hn hfault' (ht.trans (hu.trans hw))
  obtain ⟨n, w, hrewrites, hQn⟩ := hsteps
  exact hrewrites.ensures_iterate hQn

omit hshown in
/-- Nothing need follow the last statement of a text. -/
theorem Ensures.semicolon_end {afterOperand : Bool} {Q : Unit → State → Prop} (hs : s.cursor.rest = [])
    (hQ : Q () s) : Ensures (Parser.semicolon v afterOperand) s Q := by
  have hends : endsStatement v afterOperand false [] = true := by cases v <;> rfl
  have hstep : ∃ t, Repeats (semicolonStep v afterOperand false) s t ∧ Q () t := by
    refine Ensures.repeats_stop ?_
    simpa [semicolonStep, hs, hends] using hQ
  obtain ⟨t, hrepeats, hQt⟩ := hstep
  exact hrepeats.ensures_loop hQt

/-- The text of a reference is read whole as one statement. -/
theorem Ensures.statement_reference {fuel : Nat} (hs : s.cursor.rest = referenceChars shown) :
    Ensures (wordStatement v (derive v (fuel + 3))) s fun n t =>
      (n.hasFault = false ∧ ∃ literal, IsString (String.ofList shown) literal ∧
        IsReferenceStatement literal n) ∧
        Moves s t [] s.made := by
  refine Ensures.of_eq (wordStatement_require hs) ?_
  refine Ensures.node ?_
  rw [ensures_bind]
  have hsequence : Ensures (Grammar.sequence (derive v (fuel + 2)) true) { s with made := [] } fun n t =>
      ∃ literal, IsString (String.ofList shown) literal ∧ IsDefaultMember literal n ∧ n.hasFault = false ∧
        Moves s t [] [] := by
    rw [Grammar.sequence, ensures_bind]
    show Ensures (Grammar.expression v (derive v (fuel + 1)) { ends := true }) _ _
    refine Ensures.expression_reference hshown (Nat.zero_le _) hs fun literal n t hliteral hn hfault ht => ?_
    rw [ensures_bind]
    refine Ensures.sees (show t.cursor.rest = [] ++ [] from ht.rest_eq) Blanks.nil Fresh.nil ?_
    rw [if_neg (by decide), ensures_pure]
    exact ⟨literal, hliteral, hn, hfault, ht.rest_eq, ht.made_eq, ht.byte_le⟩
  refine hsequence.mono ?_
  rintro access t ⟨literal, hliteral, haccess, hfault, ht⟩
  rw [ensures_bind, ensures_push]
  refine Ensures.semicolon_end ht.rest_eq ⟨⟨?_, literal, hliteral, access, ⟨rfl, ?_⟩, haccess⟩,
    ht.rest_eq, rfl, ht.byte_le⟩
  · simp [hasFault_build, ht.made_eq, Node.anyFault, hfault]
  · simp [build, ht.made_eq]

end

/-- The text of a reference around characters that stand for themselves is a program, in every variant,
and its string stands for the characters. -/
theorem ofText_reference (v : Variant) {shown : List Char} (hshown : ∀ c ∈ shown, isPlain '\'' c = true)
    (hnul : '\x00' ∉ shown) : ∃ p literal, Program.ofText v (String.ofList (referenceChars shown)) = .ok p ∧
      IsReference literal p.root ∧ Literal.decodeString literal = String.ofList shown := by
  have hnul' : '\x00' ∉ referenceChars shown := by
    simp [referenceChars, requireWord, callChars, memberWord, hnul]
  have hlength : ∃ n, depthFor (referenceChars shown) = n + 3 + 1 := ⟨_, rfl⟩
  obtain ⟨fuel, hfuel⟩ := hlength
  obtain ⟨place, n, ⟨-, literal, hliteral, hn⟩, hprogram⟩ :=
    ofText_statement isWord_require (rfl : _ = _ ++ callChars shown)
    hnul' hfuel (fun n hn => hn.1) fun t ht => Ensures.statement_reference hshown ht
  exact ⟨_, literal, hprogram, ⟨n, ⟨rfl, rfl⟩, hn⟩, hliteral.text⟩

end StoryManifest.Source
