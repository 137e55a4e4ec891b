import StoryManifest.Proofs.Source.Program

/-!
A program that exports metadata. Two written records are put into the text of a story that exports them
by default as `args` and `argTypes`, or a single argument into the text of one that exports nothing else.
In every variant the grammar fits to this text, and the tree holds what was put into it as literals, in
the same order.
-/

namespace StoryManifest.Source

open Source.Parser Source.Grammar
open Literal (IsLiteral IsMember)

variable {v : Variant} {g : Grammar} {s : State}

/-! ### Names and decorators -/

/-- No decorator comes next. -/
theorem Ensures.decorators_none {bs cs : List Char} {c : Char} {Q : Unit → State → Prop}
    (hs : s.cursor.rest = bs ++ c :: cs) (hb : Blanks bs) (hc : Fresh (c :: cs)) (hne : c ≠ '@')
    (hQ : ∀ t, Moves s t (c :: cs) s.made → Q () t) : Ensures (decorators v g) s Q := by
  have hat : ¬('@' == c) = true := by
    intro h
    exact hne (eq_of_beq h).symm
  have hstep : ∃ t, Repeats (do
      wideGap
      if ← sees "@" then
        add (decorator v g)
        pure true
      else pure false) s t ∧ Moves s t (c :: cs) s.made := by
    refine Ensures.repeats_stop ?_
    rw [ensures_bind]
    refine Ensures.wideGap hs hb hc fun t ht => ?_
    have ht' : t.cursor.rest = [] ++ c :: cs := ht.rest_eq
    rw [ensures_bind]
    refine Ensures.sees_char (show "@".toList = ['@'] from rfl) ht' Blanks.nil hc ?_
    rw [if_neg hat, ensures_pure]
    exact ⟨rfl, ht⟩
  obtain ⟨t, hrepeats, ht⟩ := hstep
  exact hrepeats.ensures_loop (hQ t ht)

/-! ### The metadata -/

/-- The words that name the two parts of metadata. -/
def argsWord : List Char := ['a', 'r', 'g', 's']

def argTypesWord : List Char := ['a', 'r', 'g', 'T', 'y', 'p', 'e', 's']

/-- The characters of metadata: an object literal with two members. -/
def metadataChars (args types : List Char) : List Char :=
  '\x7b' :: ' ' :: (argsWord ++ ':' :: ' ' :: (args ++
    ',' :: ' ' :: (argTypesWord ++ ':' :: ' ' :: (types ++ [' ', '\x7d']))))

/-- A node is an object literal with two members, literals of two values in the order of the text. -/
structure IsMetadata (A T : Value) (n : Node) : Prop where
  object : n.is .object = true
  sound : n.hasFault = false
  entries : ∃ args types, Literal.entries n = [⟨.named "args", args⟩, ⟨.named "argTypes", types⟩] ∧
    IsLiteral A args ∧ IsLiteral T types ∧ args.start.byte ≤ types.start.byte

theorem starts_word {c : Char} {w : List Char} (hw : IsWord (c :: w)) : Starts (c :: w) :=
  ⟨hw.fresh, c, w, rfl, notMem_of_isWordPart hw.head.1 (by decide)⟩

/-- A member whose name is a word that modifies nothing. -/
theorem Ensures.member_word {c : Char} {w bs text rest : List Char} {x : Value} {Q : Unit → State → Prop}
    (hw : IsWord (c :: w)) (hmodifier : String.ofList (c :: w) ∉ methodModifiers v)
    (hs : s.cursor.rest = (c :: w) ++ ':' :: (bs ++ (text ++ rest))) (hb : Blanks bs)
    (hvalue : ReadsLiteral g text x) (hrest : Stops rest)
    (hQ : ∀ n value t, n.isNamed = true → n.hasFault = false →
      Literal.entryOf? n = some ⟨.named (String.ofList (c :: w)), value⟩ → IsLiteral x value →
      s.cursor.place.byte ≤ value.start.byte → value.start.byte ≤ t.cursor.place.byte →
      Moves s t rest (n :: s.made) → Q () t) :
    Ensures (Grammar.member v g) s Q := by
  have hmod : isModifier v s.cursor.rest = false := by
    rw [hs, isModifier, wordOf_append hw (endsWord_stop (by decide)), decide_eq_false hmodifier,
      Bool.false_and]
  have hstar : s.cursor.rest.head? ≠ some '*' := by
    rw [hs]
    intro h
    obtain rfl : c = '*' := by simpa using h
    exact absurd hw.head.1 (by decide)
  have hname : Ensures (propertyName g) s fun n t =>
      IsName (String.ofList (c :: w)) n ∧ Moves s t (':' :: (bs ++ (text ++ rest))) s.made :=
    Ensures.propertyName_word hw hs fun stop t ht => ⟨⟨rfl, rfl⟩, ht⟩
  exact Ensures.member (starts_word hw) hs hb hmod hstar hname hvalue hrest hQ

/-- A member whose name is a word with a colon right behind it and the value behind that. -/
theorem ReadsLiteral.readsItem_word {c : Char} {w text : List Char} {x : Value} (h : ReadsLiteral g text x)
    (hw : IsWord (c :: w)) (hmodifier : String.ofList (c :: w) ∉ methodModifiers v) :
    ReadsItem (Grammar.member v g) ((c :: w) ++ ':' :: text) (IsMember (String.ofList (c :: w)) x) where
  starts := ⟨fun rest => by simpa using hw.fresh (':' :: (text ++ rest)), c, w ++ ':' :: text, rfl,
    notMem_of_isWordPart hw.head.1 (by decide)⟩
  apply {s rest} hs hrest := by
    have hs' : s.cursor.rest = (c :: w) ++ ':' :: ([] ++ (text ++ rest)) := by simpa using hs
    refine Ensures.member_word hw hmodifier hs' Blanks.nil h hrest ?_
    intro n value t hnamed hsound hentry hvalue _ _ ht
    exact ⟨n, ⟨hnamed, hsound, value, hentry, hvalue⟩, ht⟩

/-- Two nodes are the members of metadata, in the order of the text. -/
structure AreMembers (A T : Value) (a b : Node) : Prop where
  named : ∀ n ∈ [a, b], n.isNamed = true
  sound : ∀ n ∈ [a, b], n.hasFault = false
  entries : ∃ args types, Literal.entryOf? a = some ⟨.named "args", args⟩ ∧
    Literal.entryOf? b = some ⟨.named "argTypes", types⟩ ∧ IsLiteral A args ∧ IsLiteral T types ∧
    args.start.byte ≤ types.start.byte

theorem isMetadata_build {A T : Value} {m a comma b m' : Node} (place : Place) (hm : IsMark "\x7b" m)
    (hcomma : IsMark "," comma) (hm' : IsMark "\x7d" m') (h : AreMembers A T a b) :
    IsMetadata A T (build .object place [m, a, comma, b, m']) := by
  have hrow : Row "\x7d" [a, b] [a, comma, b, m'] := .item hcomma (.last hm')
  obtain ⟨args, types, ha, hb, hargs, htypes, hle⟩ := h.entries
  refine ⟨rfl, ?_, args, types, ?_, hargs, htypes, hle⟩
  · rw [hasFault_build, Node.anyFault, hm.hasFault, hrow.anyFault h.sound]
    rfl
  · rw [Literal.entries_row _ hm hrow h.named]
    simp [ha, hb]

/-- The steps after the opening brace make the two members and stop before the closing brace. -/
theorem repeats_members {args types rest : List Char} {A T : Value} (hA : ReadsLiteral g args A)
    (hT : ReadsLiteral g types T)
    (hs : s.cursor.rest = [' '] ++ (argsWord ++ ':' :: ' ' :: (args ++
      ',' :: ' ' :: (argTypesWord ++ ':' :: ' ' :: (types ++ ' ' :: '\x7d' :: rest))))) :
    ∃ t, Repeats (Grammar.listStep "\x7d" true (Grammar.member v g)) s t ∧
      ∃ a comma b, IsMark "," comma ∧ AreMembers A T a b ∧
        Moves s t (' ' :: '\x7d' :: rest) ([b, comma, a] ++ s.made) := by
  have hclosing : "\x7d".toList = ['\x7d'] := rfl
  have hargs : String.ofList argsWord ∉ methodModifiers v := by cases v <;> decide
  have htypes : String.ofList argTypesWord ∉ methodModifiers v := by cases v <;> decide
  have hcomma : Stops (',' :: ' ' :: (argTypesWord ++ ':' :: ' ' :: (types ++ ' ' :: '\x7d' :: rest))) :=
    ⟨[], ',', _, Blanks.nil, by simp, rfl⟩
  have hbrace : Stops ([' '] ++ '\x7d' :: rest) := ⟨[' '], '\x7d', rest, blanks_space, by simp, rfl⟩
  -- the first member and the comma
  refine Ensures.repeats_more ?_
  refine Ensures.listStep hs blanks_space (starts_word (by decide)) hclosing (by simp)
    fun t₁ ht₁ => ?_
  have hfirst : t₁.cursor.rest = argsWord ++ ':' :: ([' '] ++ (args ++ ',' :: ' ' :: (argTypesWord ++
      ':' :: ' ' :: (types ++ ' ' :: '\x7d' :: rest)))) := ht₁.rest_eq
  refine Ensures.member_word (by decide) hargs hfirst blanks_space hA hcomma
    fun a x u hnamed hsound ha hx _ hle hu => ?_
  refine Ensures.furtherItem_comma hu.rest_eq fun comma w hm hw => ⟨rfl, ?_, ?_⟩
  · rw [hw.rest_eq, hs]
    simp only [List.length_append, List.length_cons]
    omega
  -- the second member, which no comma follows
  have hw' : w.cursor.rest = [' '] ++ (argTypesWord ++
      ':' :: ' ' :: (types ++ ([' '] ++ '\x7d' :: rest))) := hw.rest_eq
  refine Ensures.repeats_stop ?_
  refine Ensures.listStep hw' blanks_space (starts_word (by decide)) hclosing (by simp)
    fun t₂ ht₂ => ?_
  have hsecond : t₂.cursor.rest = argTypesWord ++ ':' :: ([' '] ++ (types ++ ([' '] ++ '\x7d' :: rest))) :=
    ht₂.rest_eq
  refine Ensures.member_word (by decide) htypes hsecond blanks_space hT hbrace
    fun b y z hnamed' hsound' hb hy hle' _ hz => ?_
  have hbyte : x.start.byte ≤ y.start.byte :=
    Nat.le_trans hle (Nat.le_trans hw.byte_le (Nat.le_trans ht₂.byte_le hle'))
  have hmembers : AreMembers A T a b :=
    ⟨by simp [hnamed, hnamed'], by simp [hsound, hsound'], x, y, ha, hb, hx, hy, hbyte⟩
  refine Ensures.furtherItem_none hz.rest_eq blanks_space (by decide) (.stop (by simp) rest)
    ⟨rfl, a, comma, b, hm, hmembers, ?_⟩
  rw [ht₂.made_eq, hw.made_eq, hu.made_eq, ht₁.made_eq] at hz
  exact ht₁.trans (hu.trans (hw.trans (ht₂.trans hz)))

/-- Metadata are read as an object literal that holds the two values. -/
theorem Ensures.metadata {args types rest : List Char} {A T : Value} {Q : Node → State → Prop}
    (hA : ReadsLiteral g args A) (hT : ReadsLiteral g types T)
    (hs : s.cursor.rest = metadataChars args types ++ rest)
    (hQ : ∀ n t, IsMetadata A T n → Moves s t rest s.made → Q n t) : Ensures (Grammar.object v g) s Q := by
  have hopening : "\x7b".toList = ['\x7b'] := rfl
  have hclosing : "\x7d".toList = ['\x7d'] := rfl
  simp only [metadataChars, List.cons_append, List.append_assoc, List.nil_append] at hs
  have hs' : s.cursor.rest = [] ++ ("\x7b".toList ++ ([' '] ++ (argsWord ++ ':' :: ' ' :: (args ++
      ',' :: ' ' :: (argTypesWord ++ ':' :: ' ' :: (types ++ ' ' :: '\x7d' :: rest)))))) := hs
  rw [Grammar.object]
  refine Ensures.node ?_
  rw [Grammar.bracketed, ensures_bind]
  refine Ensures.mark hs' Blanks.nil (by rw [hopening]; exact .cons (by decide)) fun stop t ht => ?_
  obtain ⟨u, hrepeats, a, comma, b, hcomma, hmembers, hu⟩ := repeats_members hA hT ht.rest_eq
  rw [ensures_bind]
  refine hrepeats.ensures_loop ?_
  have hu' : u.cursor.rest = [' '] ++ ("\x7d".toList ++ rest) := hu.rest_eq
  refine Ensures.mark hu' blanks_space (by rw [hclosing]; exact .stop (by simp) rest) fun stop' w hw => ?_
  obtain ⟨m, m', hm, hm', hmade⟩ : ∃ m m', IsMark "\x7b" m ∧ IsMark "\x7d" m' ∧
      w.made.reverse = [m, a, comma, b, m'] := by
    rw [hw.made_eq, hu.made_eq, ht.made_eq]
    exact ⟨_, _, ⟨_, _, rfl⟩, ⟨_, _, rfl⟩, rfl⟩
  rw [hmade]
  exact hQ _ _ (isMetadata_build _ hm hcomma hm' hmembers)
    ⟨hw.rest_eq, rfl, Nat.le_trans ht.byte_le (Nat.le_trans hu.byte_le hw.byte_le)⟩

/-! ### The export -/

/-- What is said of object literals without faults, whatever role they have. -/
structure OfObjects (P : Node → Prop) : Prop where
  object : ∀ {n : Node}, P n → n.is .object = true
  sound : ∀ {n : Node}, P n → n.hasFault = false
  inRole : ∀ {n : Node}, P n → ∀ role : Role, P (n.inRole role)

theorem ofObjects_isMetadata (A T : Value) : OfObjects (IsMetadata A T) where
  object h := h.object
  sound h := h.sound
  inRole h role := ⟨h.object, by rw [hasFault_inRole, h.sound], h.entries⟩

def exportWord : List Char := ['e', 'x', 'p', 'o', 'r', 't']

def defaultWord : List Char := ['d', 'e', 'f', 'a', 'u', 'l', 't']

/-- The characters of a default export of an object literal. -/
def defaultExportChars (object : List Char) : List Char :=
  exportWord ++ ' ' :: (defaultWord ++ ' ' :: (object ++ [';']))

/-- The characters of a default export of metadata. -/
def exportChars (args types : List Char) : List Char := defaultExportChars (metadataChars args types)

/-- A node exports an object literal of some kind by default. -/
structure IsExport (P : Node → Prop) (n : Node) : Prop where
  statement : n.is .exportStatement = true
  sound : n.hasFault = false
  default : n.children.any (·.isToken "default") = true
  value : ∃ object, n.child? .value = some object ∧ P object

theorem isExport_build {P : Node → Prop} {m m' object m'' : Node} (hP : OfObjects P) (place : Place)
    (hm : IsMark "export" m) (hm' : IsMark "default" m') (hobject : P object) (hm'' : IsMark ";" m'') :
    IsExport P (build .exportStatement place [m, m', object.inRole .value, m'']) where
  statement := rfl
  sound := by
    simp [hasFault_build, Node.anyFault, hm.hasFault, hm'.hasFault, hP.sound (hP.inRole hobject .value),
      hm''.hasFault]
  default := by
    obtain ⟨start, stop, rfl⟩ := hm'
    simp [build, Node.isToken, Node.leaf]
  value := by
    obtain ⟨start, stop, rfl⟩ := hm
    obtain ⟨start', stop', rfl⟩ := hm'
    exact ⟨object.inRole .value, rfl, hP.inRole hobject .value⟩

theorem typedDeclaration?_brace (cs : List Char) : typedDeclaration? v g ('\x7b' :: cs) = none := by
  have hword : wordOf ('\x7b' :: cs) = "" := rfl
  simp [typedDeclaration?, hword, opensAlias, opensModule]

/-- What starts with a brace is exported as a value. -/
theorem Ensures.exportDefault_brace {bs cs : List Char} {Q : Unit → State → Prop}
    (hs : s.cursor.rest = bs ++ (defaultWord ++ ' ' :: '\x7b' :: cs)) (hb : Blanks bs)
    (h : ∀ m t, IsMark "default" m → Moves s t ('\x7b' :: cs) (m :: s.made) →
      Ensures (g (.expression { ends := true })) t fun n u =>
        Ensures (Parser.semicolon v true) { u with made := n.inRole .value :: u.made } Q) :
    Ensures (exportDefault v g) s Q := by
  have hfresh : Fresh ('\x7b' :: cs) := .cons (by decide)
  have hword : wordOf ('\x7b' :: cs) = "" := rfl
  have hfunction : opensFunction v ('\x7b' :: cs) = false := by simp [opensFunction, hword]
  have hclass : opensClass v ('\x7b' :: cs) = false := by simp [opensClass, hword]
  rw [exportDefault, ensures_bind]
  refine Ensures.keyword (show "default".toList = defaultWord from rfl) (by decide) endsWord_space hs hb
    fun m t hm ht => ?_
  have ht' : t.cursor.rest = [' '] ++ '\x7b' :: cs := ht.rest_eq
  rw [ensures_bind]
  refine Ensures.wideGap ht' blanks_space hfresh fun u hu => ?_
  have hahead : afterTrivia u.cursor.rest = '\x7b' :: cs := by
    rw [hu.rest_eq]
    exact afterTrivia_append Blanks.nil hfresh
  have hvalue : Ensures (do
      Parser.field .value (g (.expression { ends := true }))
      Parser.semicolon v true) u Q := by
    have hblank : u.cursor.rest = [] ++ '\x7b' :: cs := hu.rest_eq
    rw [ensures_bind]
    refine Ensures.field hblank Blanks.nil hfresh fun w hw => ?_
    have hmade : w.made = m :: s.made := by rw [hw.made_eq, hu.made_eq, ht.made_eq]
    have hw' : Moves s w ('\x7b' :: cs) (m :: s.made) :=
      ⟨hw.rest_eq, hmade, (ht.trans (hu.trans hw)).byte_le⟩
    exact h m w hm hw'
  cases htyped : v.typed <;>
    simpa [ahead, hahead, hfunction, hclass, htyped, typedDeclaration?_brace] using hvalue

section

variable {fuel : Nat} {cs : List Char} {P : Node → Prop} (hP : OfObjects P)
  (hobject : ∀ t : State, t.cursor.rest = '\x7b' :: (cs ++ [';']) →
    Ensures (Grammar.object v (derive v fuel)) t fun n u => P n ∧ Moves t u [';'] t.made)

include hP hobject

/-- A default export of an object literal that is read is read in every variant. -/
theorem Ensures.exportStatement {Q : Node → State → Prop}
    (hs : s.cursor.rest = defaultExportChars ('\x7b' :: cs))
    (hQ : ∀ n t, IsExport P n → Moves s t [] s.made → Q n t) :
    Ensures (exportStatement v (derive v (fuel + 1))) s Q := by
  have hexport : Fresh (exportWord ++ ' ' :: (defaultWord ++ ' ' :: '\x7b' :: (cs ++ [';']))) :=
    IsWord.fresh (by decide) _
  have hdefault : Fresh (defaultWord ++ ' ' :: '\x7b' :: (cs ++ [';'])) := IsWord.fresh (by decide) _
  rw [Grammar.exportStatement]
  refine Ensures.node ?_
  have hs' :
      s.cursor.rest = [] ++ (exportWord ++ ' ' :: (defaultWord ++ ' ' :: '\x7b' :: (cs ++ [';']))) := hs
  rw [ensures_bind]
  refine Ensures.decorators_none hs' Blanks.nil hexport (by decide) fun t ht => ?_
  have ht' : t.cursor.rest = [] ++ (exportWord ++ ' ' :: (defaultWord ++ ' ' :: '\x7b' :: (cs ++ [';']))) :=
    ht.rest_eq
  rw [ensures_bind]
  refine Ensures.keyword (show "export".toList = exportWord from rfl) (by decide) endsWord_space ht'
    Blanks.nil
    fun m u hm hu => ?_
  have hahead : afterTrivia u.cursor.rest = defaultWord ++ ' ' :: '\x7b' :: (cs ++ [';']) := by
    rw [hu.rest_eq]
    exact afterTrivia_append blanks_space hdefault
  have hword : wordOf (defaultWord ++ ' ' :: '\x7b' :: (cs ++ [';'])) = "default" :=
    wordOf_append (by decide) endsWord_space _
  have hbody : Ensures (exportDefault v (derive v (fuel + 1))) u fun _ t =>
      Q (build .exportStatement s.cursor.place t.made.reverse) { t with made := s.made } := by
    have hu' : u.cursor.rest = [' '] ++ (defaultWord ++ ' ' :: '\x7b' :: (cs ++ [';'])) := hu.rest_eq
    refine Ensures.exportDefault_brace hu' blanks_space fun m' w hm' hw => ?_
    have hsemicolon : Stops [';'] := ⟨[], ';', [], Blanks.nil, by simp, rfl⟩
    refine Ensures.expression (Ensures.operand_brace hw.rest_eq (Ensures.literalOrTarget ?_))
    refine (hobject w hw.rest_eq).mono fun object x hx => ?_
    obtain ⟨hobject, hx⟩ := hx
    refine ⟨by rw [hx.rest_eq]; exact hsemicolon, by rw [hx.rest_eq]; exact hsemicolon, ?_⟩
    refine Ensures.semicolon hx.rest_eq fun m'' y hm'' hy => ?_
    have hmade : y.made.reverse = [m, m', object.inRole .value, m''] := by
      rw [hy.made_eq, hx.made_eq, hw.made_eq, hu.made_eq, ht.made_eq]
      rfl
    have hbyte := (ht.trans (hu.trans (hw.trans hx))).byte_le
    rw [hmade]
    exact hQ _ _ (isExport_build hP _ hm hm' hobject hm'') ⟨hy.rest_eq, rfl, Nat.le_trans hbyte hy.byte_le⟩
  simpa [ahead, hahead, hword] using hbody

/-! ### The program -/

/-- A default export of an object literal that is read is a program in every variant. -/
theorem ofText_export {text : List Char} (htext : text = defaultExportChars ('\x7b' :: cs))
    (hnul : '\x00' ∉ text) (hfuel : depthFor text = fuel + 1 + 1) :
    ∃ place n, IsExport P n ∧
      Program.ofText v (String.ofList text) = .ok ⟨v, text, build .program place [n]⟩ := by
  refine ofText_statement (by decide) htext hnul hfuel (fun n hn => hn.sound) fun t ht => ?_
  have hword : wordOf t.cursor.rest = "export" := by
    rw [ht]
    exact wordOf_append (by decide) endsWord_space _
  rw [wordStatement, ensures_bind, ensures_rest, hword]
  simpa using Ensures.exportStatement hP hobject ht fun n u hn hu => ⟨hn, hu⟩

end

theorem length_le_exportChars (args types : List Char) :
    args.length ≤ (exportChars args types).length ∧ types.length ≤ (exportChars args types).length := by
  simp only [exportChars, defaultExportChars, metadataChars, List.length_append, List.length_cons]
  omega

theorem nul_notMem_defaultExportChars {object : List Char} (h : '\x00' ∉ object) :
    '\x00' ∉ defaultExportChars object := by
  simp [defaultExportChars, exportWord, defaultWord, h]

theorem nul_notMem_exportChars {args types : List Char} (hargs : '\x00' ∉ args)
    (htypes : '\x00' ∉ types) : '\x00' ∉ exportChars args types :=
  nul_notMem_defaultExportChars (by simp [metadataChars, argsWord, argTypesWord, hargs, htypes])

/-- A default export of two written plain values is a program in every variant. -/
theorem ofText_exportChars (v : Variant) (sp : Json.Spacing) {A T : Value} (hA : A.Plain FitsReal)
    (hT : T.Plain FitsReal) {text : List Char}
    (htext : text = exportChars (Json.chars sp 0 A) (Json.chars sp 0 T)) :
    ∃ place n, IsExport (IsMetadata A T) n ∧
      Program.ofText v (String.ofList text) = .ok ⟨v, text, build .program place [n]⟩ := by
  have hlength := length_le_exportChars (Json.chars sp 0 A) (Json.chars sp 0 T)
  have hdepthA := Json.nesting_le_length sp hA 0
  have hdepthT := Json.nesting_le_length sp hT 0
  have hnul : '\x00' ∉ text := htext ▸
    nul_notMem_exportChars (Json.nul_notMem_chars sp hA 0) (Json.nul_notMem_chars sp hT 0)
  have hfuel : depthFor text = (4 * text.length + 14) + 1 + 1 := rfl
  rw [← htext] at hlength
  exact ofText_export (ofObjects_isMetadata A T) (fun t ht => Ensures.metadata
    (readsLiteral_chars sp hA 0 _ (by omega)) (readsLiteral_chars sp hT 0 _ (by omega)) ht
    fun n u hn hu => ⟨hn, hu⟩) htext hnul hfuel

/-! ### One argument -/

/-- A node is an object literal with one member, a literal of a value that is the first part of metadata. -/
structure IsArgs (A : Value) (n : Node) : Prop where
  object : n.is .object = true
  sound : n.hasFault = false
  entries : ∃ args, Literal.entries n = [⟨.named "args", args⟩] ∧ IsLiteral A args

theorem ofObjects_isArgs (A : Value) : OfObjects (IsArgs A) where
  object h := h.object
  sound h := h.sound
  inRole h role := ⟨h.object, by rw [hasFault_inRole, h.sound], h.entries⟩

/-- The characters of an object literal with one member, without blanks. -/
def oneMemberChars (word value : List Char) : List Char := '\x7b' :: (word ++ ':' :: value ++ ['\x7d'])

section

variable {fuel : Nat} {c : Char} {w text : List Char} {x : Value} (hw : IsWord (c :: w))
  (hmodifier : String.ofList (c :: w) ∉ methodModifiers v)

include hw hmodifier

theorem readsLiteral_oneMember (h : ReadsLiteral (derive v fuel) text x) :
    ReadsLiteral (derive v (fuel + 1)) (oneMemberChars (c :: w) text)
      (.record [(String.ofList (c :: w), x)]) := by
  have hrow :
      oneMemberChars (c :: w) text = Json.row .compact 0 '\x7b' '\x7d' [(c :: w) ++ ':' :: text] := rfl
  rw [hrow]
  exact readsLiteral_record fuel .compact 0 (by simp) (.cons (h.readsItem_word hw hmodifier) .nil)

/-- Metadata that give one argument are read in every variant. -/
theorem Ensures.argument {rest : List Char} (h : ReadsLiteral (derive v fuel) text x)
    (hs : s.cursor.rest = oneMemberChars argsWord (oneMemberChars (c :: w) text) ++ rest) :
    Ensures (Grammar.object v (derive v (fuel + 1))) s fun n t =>
      IsArgs (.record [(String.ofList (c :: w), x)]) n ∧ Moves s t rest s.made := by
  have hargs : String.ofList argsWord ∉ methodModifiers v := by cases v <;> decide
  have hmembers : List.Forall₂
      (fun text f => ReadsItem (Grammar.member v (derive v (fuel + 1))) text (IsMember f.1 f.2))
      [argsWord ++ ':' :: oneMemberChars (c :: w) text]
      [(String.ofList argsWord, Value.record [(String.ofList (c :: w), x)])] :=
    .cons ((readsLiteral_oneMember hw hmodifier h).readsItem_word (by decide) hargs) .nil
  have hspaced :=
    @Spaced.last '\x7d' [] [] (argsWord ++ ':' :: oneMemberChars (c :: w) text) Blanks.nil Blanks.nil
  refine Ensures.object hs hspaced hmembers fun stop ms ns t hrow hns ht => ⟨?_, ht⟩
  cases hns with
  | @cons _ n _ _ hmember hnil =>
    cases hnil
    obtain ⟨args, hentry, hliteral⟩ := hmember.entry
    refine ⟨rfl, ?_, args, ?_, hliteral⟩
    · rw [hasFault_build, Node.anyFault, hrow.anyFault (by simp [hmember.sound])]
      rfl
    · rw [Literal.entries_row _ ⟨_, _, rfl⟩ hrow (by simp [hmember.named])]
      simp [hentry, argsWord]

/-- A default export of metadata that give one plain argument is a program in every variant. -/
theorem ofText_argument (hx : x.Plain FitsReal) (htext : text =
    defaultExportChars (oneMemberChars argsWord (oneMemberChars (c :: w) (Json.chars .compact 0 x)))) :
    ∃ place n, IsExport (IsArgs (.record [(String.ofList (c :: w), x)])) n ∧
      Program.ofText v (String.ofList text) = .ok ⟨v, text, build .program place [n]⟩ := by
  have hdepth := Json.nesting_le_length .compact hx 0
  have hlength : (Json.chars .compact 0 x).length ≤ text.length := by
    simp only [htext, defaultExportChars, oneMemberChars, List.length_append, List.length_cons]
    omega
  have hnul : '\x00' ∉ text := by
    rw [htext]
    have hword : '\x00' ∉ c :: w := fun h => absurd (List.all_eq_true.mp hw.2 _ h) (by decide)
    refine nul_notMem_defaultExportChars ?_
    simpa [oneMemberChars, argsWord, Json.nul_notMem_chars .compact hx 0] using hword
  have hfuel : depthFor text = (4 * text.length + 13) + 1 + 1 + 1 := rfl
  exact ofText_export (ofObjects_isArgs _) (fun t ht => Ensures.argument hw hmodifier
    (readsLiteral_chars .compact hx 0 _ (by omega)) ht) htext hnul hfuel

end

end StoryManifest.Source
