import StoryManifest.Proofs.Source.Expressions
import StoryManifest.Source.Program

/-!
Programs of one statement. Words and the semicolon of a statement are read where they are written, and a
text that is read whole as one statement without faults is a program whose tree holds just this
statement.
-/

namespace StoryManifest.Source

open Source.Parser Source.Grammar

variable {v : Variant} {s : State}

/-! ### Words in place -/

theorem IsWord.fresh {w : List Char} (hw : IsWord w) (cs : List Char) : Fresh (w ++ cs) := by
  cases w with
  | nil => exact absurd hw (by decide)
  | cons c w =>
    have hpart := hw.head.1
    have hblank : isBlank c = false := by
      simp only [isWordPart, Bool.and_eq_true, Bool.not_eq_true'] at hpart
      exact hpart.1.2
    exact .cons ⟨hblank, notMem_of_isWordPart hw.head.1 (by decide)⟩

theorem endsWord_space : EndsWord ' ' := ⟨by decide, by decide⟩

theorem blanks_space : Blanks [' '] := fun b hb => by rw [List.mem_singleton.mp hb]; decide

/-- A word is appended as a token, whatever blanks come before it. -/
theorem Ensures.keyword {text : String} {bs w cs : List Char} {c : Char} {Q : Unit → State → Prop}
    (htext : text.toList = w) (hw : IsWord w) (hc : EndsWord c)
    (hs : s.cursor.rest = bs ++ (w ++ c :: cs)) (hb : Blanks bs)
    (hQ : ∀ m t, IsMark text m → Moves s t (c :: cs) (m :: s.made) → Q () t) :
    Ensures (keyword text) s Q := by
  subst htext
  have hmoves := moves_blanks hs
  have hword : wordOf (text.toList ++ c :: cs) = text := by
    rw [wordOf_append hw hc, String.ofList_toList]
  refine Ensures.gap_push hs hb (hw.fresh _) ?_
  rw [keywordToken, ensures_bind, ensures_rest, ensures_bind, ensures_require]
  refine ⟨by simp [hs, hword], ?_⟩
  refine Ensures.take hmoves.rest_eq String.length_toList.symm fun stop t ht => ?_
  rw [String.ofList_toList]
  exact hQ _ _ ⟨_, stop, rfl⟩ ((hmoves.trans ht).push _)

/-- What a parser reads past the blanks is appended in a role. -/
theorem Ensures.field {role : Role} {p : Parser Node} {bs cs : List Char} {Q : Unit → State → Prop}
    (hs : s.cursor.rest = bs ++ cs) (hb : Blanks bs) (hc : Fresh cs)
    (hp : ∀ t, Moves s t cs s.made → Ensures p t fun n u =>
      Q () { u with made := n.inRole role :: u.made }) : Ensures (field role p) s Q := by
  rw [Parser.field, ensures_bind]
  refine Ensures.wideGap hs hb hc fun t ht => ?_
  rw [ensures_bind]
  simpa using hp t ht

theorem Ensures.semicolon {afterOperand : Bool} {cs : List Char} {Q : Unit → State → Prop}
    (hs : s.cursor.rest = ';' :: cs)
    (hQ : ∀ m t, IsMark ";" m → Moves s t cs (m :: s.made) → Q () t) :
    Ensures (semicolon v afterOperand) s Q := by
  have hends : endsStatement v afterOperand false (';' :: cs) = false := by
    cases v <;> simp [endsStatement, Variant.typed, endsTyped, endsPlain, isPlainBlank, isLineEnd]
  have hblank : blankLength (';' :: cs) = 0 := rfl
  have hmark : ";".toList.isPrefixOf (';' :: cs) = true := by simp
  have hs' : s.cursor.rest = [';'] ++ cs := hs
  have htake : Ensures (Parser.take (.token ";") ";".length) s fun n t =>
      Q () { t with made := n :: t.made } :=
    Ensures.take hs' rfl fun stop t ht => hQ _ _ ⟨_, stop, rfl⟩ (ht.push _)
  have hstep : ∃ t, Repeats (semicolonStep v afterOperand false) s t ∧ Q () t := by
    refine Ensures.repeats_stop ?_
    simpa [semicolonStep, hs, hends, hblank, commentLength?, exactly] using htake
  obtain ⟨t, hrepeats, hQt⟩ := hstep
  exact hrepeats.ensures_loop hQt

/-! ### The statement -/

/-- A statement that starts with a word is what the word makes of it. -/
theorem statement_eq_wordStatement {g : Grammar} {c : Char} {w cs : List Char} (hw : IsWord (c :: w))
    (hs : s.cursor.rest = (c :: w) ++ cs) : statement v g s = wordStatement v g s := by
  have hne : c ∉ ['\x7b', ';', '@'] := notMem_of_isWordPart hw.head.1 (by decide)
  simp only [List.mem_cons, List.not_mem_nil, or_false, not_or] at hne
  rw [statement, rest_bind, hs]
  refine congrFun ?_ s
  split
  · rename_i heq; exact absurd (List.cons.inj heq).1 hne.1
  · rename_i heq; exact absurd (List.cons.inj heq).1 hne.2.1
  · rename_i heq; exact absurd (List.cons.inj heq).1 hne.2.2
  · rfl

/-- No line that names an interpreter starts with a word. -/
theorem hashBangLength_word {c : Char} {w cs : List Char} (hw : IsWord (c :: w)) :
    hashBangLength ((c :: w) ++ cs) = 0 := by
  have hne : c ∉ ['#'] := notMem_of_isWordPart hw.head.1 (by decide)
  unfold hashBangLength
  split
  · rename_i heq; exact absurd (List.cons.inj heq).1 (by simpa using hne)
  · rfl

section

variable {fuel : Nat} {c : Char} {w cs : List Char} {P : Node → Prop} (hw : IsWord (c :: w))
  (hreads : ∀ t, t.cursor.rest = (c :: w) ++ cs →
    Ensures (wordStatement v (derive v fuel)) t fun n u => P n ∧ Moves t u [] t.made)

include hw hreads

/-- A text that is one statement is read whole. -/
theorem Ensures.wholeProgram (hs : s.cursor.rest = (c :: w) ++ cs) :
    Ensures (wholeProgram v (fuel + 1)) s fun root _ =>
      ∃ place n, P n ∧ root = build .program place [n] := by
  rw [Source.wholeProgram]
  refine Ensures.node ?_
  simp only [ensures_bind, ensures_rest, ensures_skip, hs, hashBangLength_word hw, Cursor.advance_zero]
  have hsteps : ∃ t, Repeats (statementStep (derive v (fuel + 1)) (fun _ => false))
      { s with made := [] } t ∧ ∃ n, P n ∧ t.cursor.rest = [] ∧ t.made = [n] := by
    refine Ensures.repeats_more ?_
    rw [statementStep, ensures_bind]
    refine Ensures.wideGap_none hs (hw.fresh cs) fun t ht => ?_
    rw [ensures_bind, ensures_rest, ht.rest_eq, if_neg (by simp), ensures_bind]
    refine Ensures.of_eq (statement_eq_wordStatement hw ht.rest_eq) ((hreads t ht.rest_eq).mono ?_)
    rintro n u ⟨hn, hu⟩
    rw [ensures_bind, ensures_push, ensures_pure]
    refine ⟨rfl, by simp [hu.rest_eq, hs], ?_⟩
    refine Ensures.repeats_stop ?_
    rw [ensures_bind]
    refine Ensures.wideGap_none hu.rest_eq Fresh.nil fun x hx => ?_
    rw [ensures_bind, ensures_rest, hx.rest_eq, if_pos (by simp), ensures_pure]
    refine ⟨rfl, n, hn, hx.rest_eq, ?_⟩
    rw [hx.made_eq, hu.made_eq, ht.made_eq]
  obtain ⟨t, hrepeats, n, hn, hrest, hmade⟩ := hsteps
  refine hrepeats.ensures_loop ?_
  rw [ensures_require, hmade]
  exact ⟨by simp [hrest], _, n, hn, rfl⟩

end

/-! ### Faults -/

/-- A text that is one statement without faults is a program. -/
theorem ofText_statement {fuel : Nat} {c : Char} {w cs text : List Char} {P : Node → Prop}
    (hw : IsWord (c :: w)) (htext : text = (c :: w) ++ cs) (hnul : '\x00' ∉ text)
    (hfuel : depthFor text = fuel + 1) (hsound : ∀ n, P n → n.hasFault = false)
    (hreads : ∀ t, t.cursor.rest = (c :: w) ++ cs →
      Ensures (wordStatement v (derive v fuel)) t fun n u => P n ∧ Moves t u [] t.made) :
    ∃ place n, P n ∧
      Program.ofText v (String.ofList text) = .ok ⟨v, text, build .program place [n]⟩ := by
  obtain ⟨root, t, hrun, place, n, hn, rfl⟩ :=
    Ensures.wholeProgram (s := ⟨.ofText text, [], .origin⟩) hw hreads htext
  have hread : readProgram v text = .done (build .program place [n]) t := by
    rw [readProgram, if_neg hnul, hfuel, hrun]
  have htree : treeOf v text = build .program place [n] := by rw [treeOf, hread]
  have hfault : syntaxFault? (build .program place [n]) = none := by
    refine markedFault?_eq_none ?_
    simp [hasFault_build, Node.anyFault, hsound n hn]
  refine ⟨place, n, hn, ?_⟩
  simp only [Program.ofText, String.toList_ofList, htree, hfault]

end StoryManifest.Source
