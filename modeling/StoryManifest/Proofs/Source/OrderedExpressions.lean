import StoryManifest.Proofs.Source.OrderedTypes
import StoryManifest.Source.Grammar.Expression

/-!
Object literals, classes, markup and expressions keep nodes in order, if the rules they refer to do. What
an operator makes of an expression starts where the expression starts.
-/

namespace StoryManifest.Source.Grammar

open Source.Parser

variable {v : Variant} {self : Grammar} (hself : ∀ rule, Reads [] (self rule))

/-! ### Members -/

include hself

theorem appends_statementStep (isOver : List Char → Bool) : Appends [] false (statementStep self isOver) :=
  .relax (.bind appends_wideGap fun _ => .look .rest fun _ => .ite (fun _ => .pure false)
    fun _ => .read (hself _) fun _ => .bind .push fun _ => .pure true)

theorem reads_block (afterOperand : Bool) : Reads [] (block v self afterOperand) :=
  .node (.bind (appends_mark rfl) fun _ => .bind (.loop (appends_statementStep hself _)) fun _ =>
    .bind (appends_mark rfl) fun _ => appends_softEnd v afterOperand) rfl

omit hself in
theorem ne_empty_of_isModifier {cs : List Char} (h : isModifier v cs = true) : wordOf cs ≠ "" := by
  intro hw
  have hnone : "" ∉ methodModifiers v := by cases v <;> decide
  simp [isModifier, hw, hnone] at h

omit hself in
theorem appends_modifierStep (inClass : Bool) : Appends [] false (modifierStep v inClass) :=
  .relax (.look .ahead fun cs => .ite
    (fun h => .bind (appends_keywordOf (ne_empty_of_isModifier (v := v) (by simp_all))) fun _ => .pure true)
    fun _ => .pure false)

theorem appends_methodTail : Appends [] true (methodTail v self) :=
  .of (.joinIf (fun k => .bind (appends_optionalMark rfl) fun _ => k)
    (.bind (appends_signature hself true) fun _ => appends_add (reads_block hself false))) rfl

omit hself in
theorem keeps_seesParameters : Keeps (seesParameters v) := .bind .ahead fun _ => .pure _

theorem reads_modifiedMethod : Reads [] (modifiedMethod v self) :=
  .node (.bind (.loop (appends_modifierStep false)) fun _ => .bind (appends_optionalMark rfl) fun _ =>
    .bind (appends_field .name (reads_propertyName hself)) fun _ => appends_methodTail hself) rfl

theorem reads_namedMember : Reads [] (namedMember v self) :=
  .bind (reads_propertyName hself) fun _ => .look .sees fun _ => .ite
    (fun _ => .node (.bind .pushAs fun _ => .bind (appends_mark rfl) fun _ =>
      appends_field .value (reads_inner hself)) rfl)
    fun _ => .look keeps_seesParameters fun _ => .ite
      (fun _ => .node (.bind .pushAs fun _ => appends_methodTail hself) rfl)
      fun _ => .look (.require _) fun _ => .pureAs rfl

theorem appends_member : Appends [] true (member v self) :=
  .of (.look .rest fun _ => .look .sees fun _ => .ite (fun _ => appends_spreadOr hself) fun _ => .ite
    (fun _ => .read (reads_modifiedMethod hself) fun _ => .push)
    fun _ => .read (reads_namedMember hself) fun _ => .push) rfl

theorem reads_object : Reads [] (object v self) :=
  .node (appends_bracketed rfl rfl (appends_member hself)) rfl

/-! ### Classes and functions -/

theorem appends_classMemberTail : Appends [] false (classMemberTail v self) :=
  .relax (.look keeps_seesParameters fun _ => .ite
    (fun _ => .joinIf (fun k => .bind (appends_optionalMark rfl) fun _ => k)
      (.bind (appends_signature hself true) fun _ => .look .sees fun _ => .ite
        (fun _ => appends_add (reads_block hself false))
        fun _ => .look (.require _) fun _ => .look .sees fun _ => .ite (fun _ => appends_mark rfl)
          fun _ => appends_semicolon v false))
    fun _ => .join
      (fun k => .ite
        (fun _ => .look .sees fun _ => .ite (fun _ => .bind (appends_mark rfl) fun _ => k)
          fun _ => .bind (appends_optionalMark rfl) fun _ => k)
        fun _ => k)
      (.bind (appends_optionalColonType hself true) fun _ => .look keeps_seesAssign fun _ =>
        .bind (appends_optionalInitializer hself true) fun _ => .look .sees fun _ => .ite
          (fun _ => appends_mark rfl) fun _ => appends_semicolon v _))

omit hself in
theorem keeps_seesStaticBlock : Keeps seesStaticBlock := .bind .ahead fun _ => .pure _

theorem reads_classMember : Reads [] (classMember v self) :=
  have hnamed : Appends [] true (do
      add (propertyName self)
      classMemberTail v self : Parser Unit) :=
    .of (.bind (appends_add (reads_propertyName hself)) fun _ => appends_classMemberTail hself) rfl
  .node (.bind (appends_decorators hself) fun _ => .look keeps_seesStaticBlock fun _ => .ite
    (fun _ => .bind (appends_keyword rfl) fun _ => appends_add (reads_block hself false))
    fun _ => .bind (.loop (appends_modifierStep true)) fun _ => .bind (appends_optionalMark rfl) fun _ =>
      .look .sees fun _ => .ite
        (fun _ => .orElse
          (.look (.require _) fun _ => .bind (appends_indexSignature hself) fun _ =>
            .bind (appends_optionalColonType hself true) fun _ => .look .sees fun _ => .ite
              (fun _ => appends_mark rfl) fun _ => appends_semicolon v false)
          hnamed)
        fun _ => hnamed) rfl

theorem reads_classBody : Reads [] (classBody v self) :=
  .node (.bind (appends_mark rfl) fun _ => .bind (.loop (.relax (.bind appends_wideGap fun _ =>
    .look .sees fun _ => .ite (fun _ => .pure false) fun _ => .look .sees fun _ => .ite
      (fun _ => .bind (appends_mark rfl) fun _ => .pure true)
      fun _ => .bind (appends_add (reads_classMember hself)) fun _ => .pure true))) fun _ =>
        appends_mark rfl) rfl

theorem appends_heritage : Appends [] false (heritage v self) :=
  .relax (.look keeps_seesWord fun _ => .join
    (fun k => .ite
      (fun _ => .bind (appends_keyword rfl) fun _ => .ite
        (fun _ => .bind (appends_commaSeparated (appends_add (hself _))) fun _ => k)
        fun _ => .bind (appends_add (hself _)) fun _ => k)
      fun _ => k)
    (.look keeps_seesWord fun _ => .ite
      (fun _ => .bind (appends_keyword rfl) fun _ => appends_commaSeparated (appends_add (hself _)))
      fun _ => .pure ()))

theorem appends_classTail : Appends [] true (classTail v self) :=
  .of (.bind (appends_keyword rfl) fun _ => .look .ahead fun _ => .joinIf
    (fun k => .bind (appends_field .name (reads_word rfl)) fun _ => k)
    (.bind (appends_optionalTypeParameters hself) fun _ => .bind (appends_heritage hself) fun _ =>
      appends_add (reads_classBody hself))) rfl

theorem reads_classExpression : Reads [] (classExpression v self) :=
  .node (.bind (appends_decorators hself) fun _ => appends_classTail hself) rfl

theorem appends_functionTail (afterOperand : Bool) : Appends [] true (functionTail v self afterOperand) :=
  .of (.bind (appends_optionalWord rfl) fun _ => .bind (appends_keyword rfl) fun _ =>
    .bind (appends_optionalMark rfl) fun _ =>
    .look .ahead fun _ => .joinIf (fun k => .bind (appends_field .name (reads_word rfl)) fun _ => k)
      (.bind (appends_signature hself false) fun _ => appends_add (reads_block hself afterOperand))) rfl

theorem reads_functionExpression : Reads [] (functionExpression v self) :=
  .look .ahead fun _ => .node (appends_functionTail hself true) (isOrdinary_ite rfl rfl)

/-! ### Markup -/

omit hself in
theorem of_referenceLength? {cs : List Char} {n : Nat} (h : referenceLength? cs = some n) :
    cs ≠ [] ∧ n ≠ 0 := by
  unfold referenceLength? at h
  split at h
  · dsimp only at h
    split at h <;> split at h <;> cases h <;> simp
  · dsimp only at h
    split at h <;> cases h
    simp
  · cases h

omit hself in
theorem reads_reference : Reads [] reference := fun s => by
  refine .bind_rest ?_
  split
  · rename_i length hlength
    obtain ⟨hrest, hpos⟩ := of_referenceLength? hlength
    exact .take hrest hpos rfl
  · exact Reads.fail s

omit hself in
theorem reads_tagWord : Reads [] tagWord := fun s => by
  refine .bind_rest ?_
  dsimp only
  split
  · exact reads_word rfl s
  · rename_i hlonger
    refine .require fun hword => ?_
    have hne : wordLength s.cursor.rest ≠ 0 := by simpa [startsWord] using hword
    exact .take (rest_ne_nil_of_wordLength hne) (by omega) rfl

omit hself in
theorem reads_tagName : Reads [] tagName :=
  .node (.read reads_tagWord fun _ => .bind .push fun _ => .look .sees fun _ => .ite
    (fun _ => .bind (appends_mark rfl) fun _ => appends_add reads_tagWord)
    fun _ => .loop (.relax (.look .sees fun _ => .ite
      (fun _ => .bind (appends_mark rfl) fun _ => .bind (appends_add (reads_word rfl)) fun _ => .pure true)
      fun _ => .pure false))) rfl

omit hself in
theorem appends_attributeStringStep (quote : Char) : Appends [] false (attributeStringStep quote) := fun s =>
  by
  refine .bind_rest ?_
  split
  · exact Appends.fail.relax s
  · rename_i c more heq
    split
    · exact Appends.pure false s
    · rename_i hquote
      split
      · split
        · rename_i length _ hlength
          obtain ⟨hrest, hpos⟩ := of_referenceLength? hlength
          exact .piece hrest hpos
        · exact .require fun _ => .piece (by simp [heq]) (by decide)
        · exact Appends.fail.relax s
      · rename_i hmark
        refine .piece (by simp [heq]) ?_
        rw [heq]
        exact length_takeWhile_ne_zero (by simp [hquote, hmark])

omit hself in
theorem reads_attributeString (quote : Char) : Reads [] (attributeString quote) :=
  .node (.read (reads_exactly (isEmpty_singleton quote)) fun _ => .bind .push fun _ =>
    .bind (.loop (appends_attributeStringStep quote)) fun _ =>
      .read (reads_exactly (isEmpty_singleton quote)) fun _ => .push) rfl

theorem reads_insertion : Reads [] (insertion self) :=
  .node (.bind (appends_mark rfl) fun _ => .bind appends_wideGap fun _ => .look .sees fun _ => .join
    (fun k => .ite
      (fun _ => .look .sees fun _ => .ite (fun _ => .bind (appends_spreadOr hself) fun _ => k)
        fun _ => .bind (appends_add (hself _)) fun _ => k)
      fun _ => k)
    (appends_mark rfl)) rfl

theorem reads_attributeValue : Reads [] (attributeValue self) := by
  refine .look .rest fun cs => ?_
  split
  · exact reads_attributeString _
  · exact reads_attributeString _
  · exact reads_insertion hself
  · exact hself _

theorem reads_attribute : Reads [] (node .clause do
    push (← tagWord)
    if ← sees ":" then
      mark ":"
      add tagWord
    if ← sees "=" then
      mark "="
      add (attributeValue self)) :=
  .node (.read reads_tagWord fun _ => .bind .push fun _ => .look .sees fun _ => .joinIf
    (fun k => .bind (appends_mark rfl) fun _ => .bind (appends_add reads_tagWord) fun _ => k)
    (.look .sees fun _ => .ite
      (fun _ => .bind (appends_mark rfl) fun _ => appends_add (reads_attributeValue hself)) fun _ =>
        .pure ())) rfl

theorem appends_attributeStep : Appends [] false (attributeStep self) := by
  refine .relax (.bind appends_wideGap fun _ => .look .rest fun cs => (?_ : Appends [] false _))
  split
  · exact .pure false
  · exact .pure false
  · exact .relax (.read (reads_insertion hself) fun _ => .bind .push fun _ => .pure true)
  · exact .relax (.read (reads_attribute hself) fun _ => .bind .push fun _ => .pure true)

theorem appends_markupStep : Appends [] false (markupStep self) := fun s => by
  refine .bind_rest ?_
  dsimp only
  split
  · rename_i htext
    have hlength : (s.cursor.rest.takeWhile (!endsMarkupText ·)).length ≠ 0 := by
      intro hnil
      rw [List.eq_nil_of_length_eq_zero hnil] at htext
      cases htext
    refine .piece (fun hrest => hlength ?_) hlength
    rw [hrest]
    rfl
  · refine (Appends.relax (g := false || false) (.bind appends_wideGap fun _ => .look .rest fun cs => ?_)) s
    split
    · exact .pure false
    · exact .relax (.read (hself _) fun _ => .bind .push fun _ => .pure true)
    · exact .relax (.read (reads_insertion hself) fun _ => .bind .push fun _ => .pure true)
    · exact .relax (.read reads_reference fun _ => .bind .push fun _ => .pure true)
    · exact .relax .fail

theorem appends_openTag : Appends [] true (openTag v self) :=
  .of (.bind (appends_mark rfl) fun _ => .bind appends_wideGap fun _ => .look .sees fun _ => .ite
    (fun _ => .read reads_tagName fun _ => .bind .push fun _ => .look .sees fun _ => .joinIf
      (fun k => .bind (appends_add (reads_typeArguments hself)) fun _ => k)
      (.loop (appends_attributeStep hself)))
    fun _ => .pure ()) rfl

omit hself in
theorem appends_closeTag : Appends [] true closeTag :=
  .of (.bind (appends_mark rfl) fun _ => .bind appends_wideGap fun _ => .look .sees fun _ => .joinIf
    (fun k => .read reads_tagName fun _ => .bind .push fun _ => k) (appends_mark rfl)) rfl

theorem reads_element : Reads [] (element v self) :=
  .nodeOf (.of (.bind (appends_openTag hself) fun _ => .look .sees fun _ => .ite
    (fun _ => .bind (appends_mark rfl) fun _ => .pure _)
    fun _ => .bind (appends_mark rfl) fun _ => .bind (.loop (appends_markupStep hself)) fun _ =>
      .bind appends_closeTag fun _ => .pure _) rfl)
    (.bind fun _ => .bind fun _ => .ite (.bind fun _ => .pure rfl)
      (.bind fun _ => .bind fun _ => .bind fun _ => .pure rfl))

/-! ### Functions with an arrow -/

theorem appends_arrowTail (s : Setting) : Appends [] true (arrowTail v self s) :=
  have hvalue : Appends [] true (do push (← self (.expression (s.rightOf Level.whole)))) :=
    .read (hself _) fun _ => .push
  .of (.bind (appends_mark rfl) fun _ => .bind appends_wideGap fun _ => .look .sees fun _ => .ite
    (fun _ => .orElse (.read (reads_block hself true) fun _ => .push) hvalue) fun _ => hvalue) rfl

theorem reads_bareArrow (s : Setting) (isAsync : Bool) : Reads [] (bareArrow v self s isAsync) :=
  .node (.joinIf (fun k => .bind (appends_keyword rfl) fun _ => k)
    (.bind (appends_add (reads_word rfl)) fun _ => appends_arrowTail hself s)) rfl

theorem reads_arrow (s : Setting) : Reads [] (arrow v self s) :=
  .node (.look keeps_seesWord fun _ => .joinIf (fun k => .bind (appends_keyword rfl) fun _ => k)
    (.bind (appends_signature hself false) fun _ => appends_arrowTail hself s)) rfl

theorem reads_arrowInBranch (s : Setting) : Reads [] (arrowInBranch v self s) :=
  .bind (reads_arrow hself s) fun _ => .look .sees fun _ => .look (.require _) fun _ => .pure

/-- Where parentheses turn out to be parameters, they are read again from where they start. -/
theorem reads_parenthesesOrArrow (setting : Setting) : Reads [] (parenthesesOrArrow v self setting) := by
  refine fun s => .bind_here fun m n u hm h => ?_
  obtain ⟨o, t, hattempt, h⟩ := bind_eq_done.mp h
  rcases attempt_eq_done hattempt with ⟨k, rfl, hk⟩ | ⟨rfl, reach, rfl⟩
  · obtain ⟨hmade, hk⟩ := reads_parenthesized hself s hm hk
    obtain ⟨cs, t', hahead, h⟩ := bind_eq_done.mp h
    obtain ⟨hmade', hbyte⟩ := Keeps.ahead hahead
    have hk' := hk.mono (Nat.le_refl m) hbyte
    split at h
    · obtain ⟨_, w, hback, h⟩ := bind_eq_done.mp h
      obtain rfl := back_eq_done.mp hback
      exact reads_arrow hself setting { s with reach := t'.reach } hm h
    · split at h
      · obtain ⟨after, w, hafter, h⟩ := bind_eq_done.mp h
        cases hafter
        obtain ⟨_, w, hback, h⟩ := bind_eq_done.mp h
        obtain rfl := back_eq_done.mp hback
        rcases orElse_eq_done h with h | ⟨reach, h⟩
        · exact reads_arrowInBranch hself setting { s with reach := t'.reach } hm h
        · obtain ⟨_, w, hback, h⟩ := bind_eq_done.mp h
          obtain rfl := back_eq_done.mp hback
          obtain ⟨rfl, rfl⟩ := pure_eq_done.mp h
          exact ⟨hmade'.trans hmade, hk'⟩
      · obtain ⟨rfl, rfl⟩ := pure_eq_done.mp h
        exact ⟨hmade'.trans hmade, hk'⟩
  · have hrest : Reads [] (do
        let cs := beyondBrackets (← rest)
        require (setting.isOpen && (startsArrow cs || (v.typed && cs.head? = some ':')))
        arrow v self setting) :=
      .look .rest fun _ => .look (.require _) fun _ => reads_arrow hself setting
    exact hrest { s with reach } hm h

theorem reads_patternAssignment (s : Setting) {target : Parser Node} (htarget : Reads [] target) :
    Reads [] (patternAssignment self s target) :=
  .node (.read htarget fun _ => .bind .pushAs fun _ => .look keeps_seesAssign fun _ =>
    .look (.require _) fun _ => .bind (appends_mark rfl) fun _ => appends_field .right (hself _)) rfl

theorem reads_literalOrTarget (setting : Setting) {literal target : Parser Node}
    (hliteral : Reads [] literal)
    (htarget : Reads [] target) : Reads [] (literalOrTarget self setting literal target) := by
  refine fun s => .bind_here fun m n u hm h => ?_
  obtain ⟨o, t, hattempt, h⟩ := bind_eq_done.mp h
  rcases attempt_eq_done hattempt with ⟨k, rfl, hk⟩ | ⟨rfl, reach, rfl⟩
  · obtain ⟨hmade, hk⟩ := hliteral s hm hk
    obtain ⟨b, t', hsees, h⟩ := bind_eq_done.mp h
    obtain ⟨hmade', hbyte⟩ := keeps_seesAssign hsees
    split at h
    · obtain ⟨_, w, hback, h⟩ := bind_eq_done.mp h
      obtain rfl := back_eq_done.mp hback
      exact reads_patternAssignment hself setting htarget { s with reach := t'.reach } hm h
    · obtain ⟨rfl, rfl⟩ := pure_eq_done.mp h
      exact ⟨hmade'.trans hmade, hk.mono (Nat.le_refl m) hbyte⟩
  · have hrest : Reads [] (do
        require (setting.isOpen && operatorOf (beyondBrackets (← rest)) = "=")
        patternAssignment self setting target) :=
      .look .rest fun _ => .look (.require _) fun _ => reads_patternAssignment hself setting htarget
    exact hrest { s with reach } hm h

/-! ### Operands -/

theorem reads_unary (s : Setting) {operator : Parser Node} (hoperator : Reads [] operator) :
    Reads [] (unary self s operator) :=
  .node (.read hoperator fun _ => .bind .pushAs fun _ => appends_field .argument (hself _)) rfl

theorem reads_prefixUpdate (s : Setting) {operator : String} (hoperator : operator.isEmpty = false) :
    Reads [] (prefixUpdate self s operator) :=
  .node (.read (reads_exactly hoperator) fun _ => .bind .pushAs fun _ =>
    appends_field .argument (hself _)) rfl

theorem reads_yieldExpression (s : Setting) : Reads [] (yieldExpression v self s) :=
  .node (.bind (appends_keyword rfl) fun _ => .look .sees fun _ => .ite
    (fun _ => .bind (appends_mark rfl) fun _ => appends_add (hself _)) fun _ =>
      .look .rest fun _ => .ite (fun _ => .pure ()) fun _ => .look .ahead fun _ =>
        .ite (fun _ => appends_add (hself _)) fun _ => .pure ()) rfl

theorem appends_callTypes (s : Setting) : Appends [] true (callTypes v self s) :=
  .of (.bind (appends_add (reads_typeArguments hself)) fun _ => .look .ahead fun _ => .look .rest fun _ =>
    (Keeps.require _).appends) rfl

theorem reads_newExpression (s : Setting) : Reads [] (newExpression v self s) :=
  .look .rest fun _ => .ite
    (fun _ => .node (.bind (appends_keyword rfl) fun _ => .bind (appends_mark rfl) fun _ =>
      appends_keyword rfl) rfl)
    fun _ => .node (.bind (appends_keyword rfl) fun _ => .bind (appends_add (hself _)) fun _ =>
      .look .sees fun _ => .joinIf (fun k => .bind (.optional (appends_callTypes hself s)) fun _ => k)
        (.look .rest fun _ => .ite (fun _ => .pure ()) fun _ => .look .sees fun _ => .ite
          (fun _ => appends_add (reads_arguments hself)) fun _ => .pure ())) rfl

theorem reads_nameOrArrow (s : Setting) : Reads [] (nameOrArrow v self s) :=
  .look .rest fun _ => .ite (fun _ => reads_bareArrow hself s false) fun _ => reads_word rfl

theorem reads_asyncOperand (s : Setting) : Reads [] (asyncOperand v self s) :=
  .look .rest fun _ => .ite (fun _ => reads_word rfl) fun _ => .ite
    (fun _ => reads_functionExpression hself) fun _ => .ite (fun _ => reads_bareArrow hself s true) fun _ =>
      .ite
    (fun _ => .orElse (reads_arrowInBranch hself s) (reads_word rfl)) fun _ => reads_nameOrArrow hself s

omit hself in
theorem isOrdinary_of_fixedWord? {w : String} {kind : Kind} (h : fixedWord? w = some kind) :
    (Label.named kind).isOrdinary = true := by
  unfold fixedWord? at h
  repeat' split at h
  all_goals
    cases h
    try rfl

theorem reads_wordOperand (s : Setting) : Reads [] (wordOperand v self s) := by
  refine .look .rest fun cs => ?_
  dsimp only
  split
  · rename_i hword
    exact reads_word (isOrdinary_of_fixedWord? hword)
  · exact .ite (fun _ => reads_functionExpression hself) fun _ => .ite
      (fun _ => reads_asyncOperand hself s) fun _ => .ite
      (fun _ => reads_classExpression hself) fun _ => .ite
      (fun _ => reads_newExpression hself s) fun _ => .ite
      (fun _ => .node (.bind (appends_keyword rfl) fun _ => appends_add (hself _)) rfl) fun _ => .ite
      (fun _ => reads_yieldExpression hself s) fun _ => .ite
      (fun h => reads_unary hself s (reads_keywordToken (isEmpty_of_mem (by decide) h))) fun _ => .ite
      (fun _ => .look (.require _) fun _ => reads_word rfl) fun _ => reads_nameOrArrow hself s

theorem reads_castExpression (s : Setting) : Reads [] (castExpression self s) :=
  .node (.read (reads_typeArguments hself) fun _ => .bind .push fun _ => appends_add (hself _)) rfl

theorem reads_angleOperand (s : Setting) : Reads [] (angleOperand v self s) :=
  .ite (fun _ => .orElse (.look (.require _) fun _ => reads_arrow hself s)
    (.ite (fun _ => hself _) fun _ => reads_castExpression hself s)) fun _ => hself _

omit hself in
theorem reads_privateOperand : Reads [] privateOperand :=
  .bind reads_privateName fun _ => .look keeps_seesWord fun _ => .look (.require _) fun _ => .pure

theorem reads_array : Reads [] (array self) :=
  .node (appends_bracketed rfl rfl (appends_spreadOr hself)) rfl

theorem reads_operand (s : Setting) : Reads [] (operand v self s) := by
  refine .look .rest fun cs => ?_
  split
  · exact .fail
  · exact .ite (fun _ => reads_string) fun _ => .ite (fun _ => reads_number) fun _ => .ite
      (fun _ => reads_literalOrTarget hself s (reads_array hself) (reads_arrayPattern hself)) fun _ => .ite
      (fun _ => reads_literalOrTarget hself s (reads_object hself) (reads_objectPattern hself)) fun _ => .ite
      (fun _ => reads_parenthesesOrArrow hself s) fun _ => .ite
      (fun _ => reads_template (hself _)) fun _ => .ite
      (fun _ => reads_regex) fun _ => .ite
      (fun _ => reads_angleOperand hself s) fun _ => .ite
      (fun _ => .ite (fun _ => reads_prefixUpdate hself s (by simp))
        fun _ => reads_unary hself s (reads_exactly (isEmpty_singleton _))) fun _ => .ite
      (fun _ => reads_unary hself s (reads_exactly (isEmpty_singleton _))) fun _ => .ite
      (fun _ => reads_privateOperand) fun _ => .ite
      (fun _ => reads_classExpression hself) fun _ => reads_wordOperand hself s

/-! ### What follows an operand -/

section

variable {left : Node}

theorem reads_binary (s : Setting) {operator : Parser Unit} (hoperator : Appends [] true operator)
    (level : Level) : Reads [left] (binary self s left operator level) :=
  .node (.bind .pushAs fun _ => .bind hoperator fun _ => appends_field .right (hself _)) rfl

theorem reads_powerOf (s : Setting) : Reads [left] (powerOf self s left) :=
  .node (.bind .pushAs fun _ => .bind (appends_mark rfl) fun _ => appends_field .right (hself _)) rfl

theorem reads_assignment (s : Setting) (kind : Kind) {operator : String}
    (hoperator : operator.isEmpty = false)
    (hkind : (Label.named kind).isOrdinary = true) : Reads [left] (assignment self s kind left operator) :=
  .node (.bind .pushAs fun _ => .bind (appends_mark hoperator) fun _ => appends_field .right (hself _))
    hkind

theorem reads_conditional (s : Setting) : Reads [left] (conditional self s left) :=
  .node (.bind .push fun _ => .bind (appends_mark rfl) fun _ => .bind (appends_add (hself _)) fun _ =>
    .bind (appends_mark rfl) fun _ => appends_add (hself _)) rfl

omit hself in
theorem reads_memberAccess {dot : String} (hdot : dot.isEmpty = false) :
    Reads [left] (memberAccess left dot) :=
  .look .ahead fun _ => .node (.bind .pushAs fun _ => .bind (appends_mark hdot) fun _ =>
    .bind appends_wideGap fun _ => .look .sees fun _ => .ite
      (fun _ => .read reads_privateName fun _ => .pushAs) fun _ => .read (reads_word rfl) fun _ => .pushAs)
    (isOrdinary_ite rfl rfl)

theorem appends_indexTail : Appends [] true (indexTail self) :=
  .of (.bind (appends_mark rfl) fun _ => .bind (appends_add (hself _)) fun _ => appends_mark rfl) rfl

theorem reads_optionalAccess : Reads [left] (optionalAccess v self left) :=
  .look .ahead fun _ => .ite
    (fun _ => .node (.bind .push fun _ => .bind (appends_mark rfl) fun _ => .look .sees fun _ =>
      .joinIf (fun k => .bind (appends_add (reads_typeArguments hself)) fun _ => k)
        (appends_add (reads_arguments hself))) rfl) fun _ => .ite
    (fun _ => .node (.bind .pushAs fun _ => .bind (appends_mark rfl) fun _ => appends_indexTail hself) rfl)
    fun _ => reads_memberAccess rfl

theorem reads_typedCall (s : Setting) : Reads [left] (typedCall v self s left) :=
  .nodeOf (.of (.bind .push fun _ => .bind (appends_callTypes hself s) fun _ => .look .sees fun _ => .ite
    (fun _ => .bind (appends_add (reads_arguments hself)) fun _ => .pure _) fun _ => .look .sees fun _ =>
      .ite
    (fun _ => .bind (appends_add (reads_template (hself _))) fun _ => .pure _) fun _ => .pure _) rfl)
    (.bind fun _ => .bind fun _ => .bind fun _ => .ite (.bind fun _ => .pure rfl)
      (.bind fun _ => .ite (.bind fun _ => .pure rfl) (.pure rfl)))

theorem offers_extendBySign (s : Setting) (cs : List Char) :
    Offers [left] (extendBySign v self s left cs) := by
  have hlevels : ∀ {operator level}, binaryLevels.lookup operator = some level →
      operator.isEmpty = false := by
    intro operator level h
    refine String.isEmpty_eq_false_iff.mpr ?_
    rintro rfl
    cases h
  rw [extendBySign]
  refine .ite (fun _ => .ite (fun _ => .read (reads_powerOf hself s)) fun _ => .nothing) fun _ => .ite
    (fun h => .ite (fun _ => .read (.node (.bind .pushAs fun _ => appends_mark ?_) rfl)) fun _ => .nothing)
    fun _ => .ite
    (fun h => .ite (fun _ => .read (reads_assignment hself s _ (h ▸ rfl) rfl)) fun _ => .nothing)
    fun _ => .ite
    (fun h => .ite (fun _ => .read (reads_assignment hself s _ (isEmpty_of_mem (by decide) h) rfl))
      fun _ => .nothing)
    fun _ => .ite
    (fun _ => .ite (fun _ => .read (.node (.bind .push fun _ => appends_mark rfl) rfl)) fun _ => .nothing)
    fun _ => ?_
  · refine String.isEmpty_eq_false_iff.mpr fun hnone => ?_
    simp [hnone] at h
  · split
    · rename_i level hlevel
      exact .ite (fun _ => .read (reads_binary hself s (appends_mark (hlevels hlevel)) level)) fun _ =>
        .nothing
    · exact .nothing

theorem offers_extendByWord (s : Setting) (w : String) : Offers [left] (extendByWord v self s left w) :=
  .ite
    (fun h => .ite (fun _ => .read (reads_binary hself s
      (appends_keywordOf fun hnone => absurd (hnone ▸ h) (by decide)) _)) fun _ => .nothing)
    fun _ => .ite
      (fun h => .read (.node (.bind .push fun _ =>
        .bind (appends_keywordOf fun hnone => by simp [hnone] at h)
        fun _ => .look keeps_seesWord fun _ => .ite (fun _ => appends_keyword rfl) fun _ =>
          appends_add (hself _)) (isOrdinary_ite rfl rfl)))
      fun _ => .nothing

theorem offers_extend (s : Setting) (left : Node) : Offers [left] (extend v self s left) := by
  refine .look .rest fun cs => .ite (fun _ => .nothing) fun _ => ?_
  dsimp only
  split
  · exact .nothing
  · exact .ite (fun _ => .read (reads_memberAccess rfl)) fun _ => .ite
      (fun _ => .read (.node (.bind .pushAs fun _ => appends_indexTail hself) rfl)) fun _ => .ite
      (fun _ => .ite (fun _ => .read (.node (.bind .push fun _ =>
        appends_add (reads_arguments hself)) rfl)) fun _ => .nothing) fun _ => .ite
      (fun _ => .read (.node (.bind .push fun _ => appends_add (reads_template (hself _))) rfl)) fun _ =>
        .ite
      (fun _ => .ite (fun _ => .read (reads_conditional hself s)) fun _ => .nothing) fun _ => .ite
      (fun _ => .read (reads_optionalAccess hself)) fun _ => .ite
      (fun _ => .attempt (reads_typedCall hself s) (fun _ => rfl) (offers_extendBySign hself s _)) fun _ =>
        .ite
      (fun _ => offers_extendByWord hself s _) fun _ => offers_extendBySign hself s _

end

theorem reads_expression (s : Setting) : Reads [] (expression v self s) :=
  .bind (reads_operand hself s) fun n => .iterate (fun left => offers_extend hself s left) n

theorem reads_sequence (ends : Bool) : Reads [] (sequence self ends) :=
  .bind (hself _) fun _ => .look .sees fun _ => .ite
    (fun _ => .node (.bind .push fun _ => .loop (.relax (.look .sees fun _ => .ite
      (fun _ => .bind (appends_mark rfl) fun _ => .bind (appends_add (hself _)) fun _ => .pure true)
      fun _ => .pure false))) rfl)
    fun _ => .pure

end StoryManifest.Source.Grammar
