import StoryManifest.Proofs.Source.Ordering
import StoryManifest.Source.Grammar.Pattern

/-!
Parameters, types and patterns keep nodes in order, if the rules they refer to do.
-/

namespace StoryManifest.Source.Grammar

open Source.Parser

variable {v : Variant} {self : Grammar} (hself : ∀ rule, Reads [] (self rule))

/-! ### Parameters -/

theorem keeps_seesAssign : Keeps seesAssign := .bind .ahead fun _ => .pure _

include hself

theorem reads_inner : Reads [] (inner self) := hself _

theorem reads_colonType (ends : Bool) : Reads [] (colonType self ends) :=
  .node (.bind (appends_mark rfl) fun _ => appends_add (hself _)) rfl

theorem appends_optionalColonType (ends : Bool) : Appends [] false (optionalColonType v self ends) :=
  .relax (.look .sees fun _ => .ite (fun _ => appends_add (reads_colonType hself ends)) fun _ => .pure ())

theorem appends_optionalInitializer (ends : Bool) : Appends [] false (optionalInitializer self ends) :=
  .relax (.look keeps_seesAssign fun _ => .ite
    (fun _ => .bind (appends_mark rfl) fun _ => appends_field .value (hself _)) fun _ => .pure ())

theorem appends_spreadOr : Appends [] true (spreadOr self) :=
  .of (.look .sees fun _ => .ite
    (fun _ => appends_add (.node (.bind (appends_mark rfl) fun _ => appends_add (reads_inner hself)) rfl))
    fun _ => appends_add (reads_inner hself)) rfl

theorem reads_arguments : Reads [] (arguments self) :=
  .node (appends_bracketed rfl rfl (appends_spreadOr hself)) rfl

theorem reads_parenthesized : Reads [] (parenthesized v self) :=
  .node (.bind (appends_mark rfl) fun _ => .bind (appends_add (hself _)) fun _ =>
    .bind (appends_optionalColonType hself false) fun _ => appends_mark rfl) rfl

theorem reads_typeArguments : Reads [] (typeArguments self) :=
  .node (appends_bracketedSome rfl rfl (appends_add (hself _))) rfl

theorem reads_decorator : Reads [] (decorator v self) :=
  .node (.bind (appends_mark rfl) fun _ => .look .sees fun _ => .ite
    (fun _ => appends_add (reads_parenthesized hself)) fun _ => .bind (appends_add (reads_word rfl)) fun _ =>
      .bind (.loop (.look .sees fun _ => .ite
        (fun _ => .bind (appends_mark rfl) fun _ => .bind (appends_add (reads_word rfl)) fun _ => .pure true)
        fun _ => .pure false)) fun _ =>
      .look .sees fun _ => .joinIf (fun k => .bind (appends_add (reads_typeArguments hself)) fun _ => k)
        (.look .sees fun _ => .ite (fun _ => appends_add (reads_arguments hself)) fun _ => .pure ())) rfl

theorem appends_decorators : Appends [] false (decorators v self) :=
  .loop (.bind appends_wideGap fun _ => .look .sees fun _ => .ite
    (fun _ => .bind (appends_add (reads_decorator hself)) fun _ => .pure true) fun _ => .pure false)

omit hself in
theorem appends_parameterModifier : Appends [] false parameterModifier :=
  .relax (.look .ahead fun cs => .ite
    (fun h => .bind (appends_keywordOf fun hw => by simp [hw, parameterModifiers] at h) fun _ => .pure true)
    fun _ => .pure false)

theorem reads_parameter : Reads [] (parameter v self) :=
  .node (.joinIf
    (fun k => .bind (appends_decorators hself) fun _ => .bind (.loop appends_parameterModifier) fun _ => k)
    (.look keeps_seesWord fun _ => .join
      (fun k => .ite (fun _ => .bind (appends_keyword rfl) fun _ => k)
        fun _ => .bind (appends_add (hself _)) fun _ => k)
      (.joinIf (fun k => .bind (appends_optionalMark rfl) fun _ => k)
        (.bind (appends_optionalColonType hself false) fun _ =>
          appends_optionalInitializer hself false)))) rfl

theorem reads_parameters : Reads [] (parameters v self) :=
  .node (appends_bracketed rfl rfl (appends_add (reads_parameter hself))) rfl

theorem reads_typeParameter : Reads [] (typeParameter self) :=
  .node (.look keeps_seesWord fun _ => .look .ahead fun _ => .joinIf
    (fun k => .bind (appends_keyword rfl) fun _ => k)
    (.bind (appends_add (reads_word rfl)) fun _ => .look keeps_seesWord fun _ => .joinIf
      (fun k => .bind (appends_keyword rfl) fun _ => .bind (appends_add (hself _)) fun _ => k)
      (.look keeps_seesAssign fun _ => .ite
        (fun _ => .bind (appends_mark rfl) fun _ => appends_add (hself _)) fun _ => .pure ()))) rfl

theorem reads_typeParameters : Reads [] (typeParameters self) :=
  .node (appends_bracketedSome rfl rfl (appends_add (reads_typeParameter hself))) rfl

theorem appends_optionalTypeParameters : Appends [] false (optionalTypeParameters v self) :=
  .relax (.look .sees fun _ => .ite (fun _ => appends_add (reads_typeParameters hself)) fun _ => .pure ())

theorem appends_signature (ends : Bool) : Appends [] true (signature v self ends) :=
  .of (.bind (appends_optionalTypeParameters hself) fun _ => .bind (appends_add (reads_parameters hself))
    fun _ => appends_optionalColonType hself ends) rfl

/-! ### Types -/

omit hself in
theorem keeps_seesJoin : Keeps seesJoin := .bind .ahead fun _ => .pure _

theorem appends_typePath {step : Parser Bool} (hstep : Appends [] false step) :
    Appends [] true (typePath self step) :=
  .of (.bind (appends_add (reads_word rfl)) fun _ => .bind (.loop hstep) fun _ => .look .sees fun _ => .ite
    (fun _ => .optional (appends_add (reads_typeArguments hself))) fun _ => .pure ()) rfl

omit hself in
theorem appends_pathStep : Appends [] false pathStep :=
  .relax (.look .sees fun _ => .ite
    (fun _ => .bind (appends_mark rfl) fun _ => .bind (appends_add (reads_word rfl)) fun _ => .pure true)
    fun _ => .pure false)

omit hself in
theorem appends_memberStep : Appends [] false memberStep :=
  .relax (.look .sees fun _ => .look .sees fun _ => .ite
    (fun _ => .look .sees fun b => .bind (appends_mark (by cases b <;> rfl)) fun _ => .look .sees fun _ =>
      .bind (appends_add (.ite (fun _ => reads_privateName) fun _ => reads_word rfl)) fun _ => .pure true)
    fun _ => .pure false)

theorem appends_typeQuery : Appends [] true (typeQuery self) :=
  .of (.bind (appends_keyword rfl) fun _ => .look keeps_seesWord fun _ => .ite
    (fun _ => .bind (appends_keyword rfl) fun _ => .bind (appends_add (reads_arguments hself)) fun _ =>
      .bind (.loop appends_memberStep) fun _ => .look .sees fun _ => .ite
        (fun _ => .optional (appends_add (reads_typeArguments hself))) fun _ => .pure ())
    fun _ => appends_typePath hself appends_memberStep) rfl

theorem appends_functionType (ends afterOperand : Bool) :
    Appends [] true (functionType v self ends afterOperand) :=
  .of (.bind (appends_optionalTypeParameters hself) fun _ => .bind (appends_add (reads_parameters hself))
    fun _ => .bind (appends_mark rfl) fun _ => appends_add (hself _)) rfl

theorem appends_tupleMember : Appends [] true (tupleMember self) :=
  .of (.bind (appends_optionalMark rfl) fun _ => .orElse
    (.bind (appends_add (reads_word rfl)) fun _ => .bind (appends_optionalMark rfl) fun _ =>
      appends_add (reads_colonType hself false))
    (.bind (appends_add (hself _)) fun _ => appends_optionalMark rfl)) rfl

omit hself in
theorem appends_typeMemberModifier : Appends [] false (typeMemberModifier v) :=
  .relax (.look .ahead fun cs => .ite
    (fun h => .bind (appends_keywordOf fun hw => by simp [hw, memberModifiers] at h) fun _ => .pure true)
    fun _ => .pure false)

theorem appends_indexSignature : Appends [] true (indexSignature self) :=
  .of (.bind (appends_mark rfl) fun _ => .bind (appends_add (reads_word rfl)) fun _ =>
    .look keeps_seesWord fun _ => .join
      (fun k => .ite
        (fun _ => .bind (appends_keyword rfl) fun _ => .bind (appends_add (hself _)) fun _ =>
          .look keeps_seesWord fun _ => .joinIf
            (fun k => .bind (appends_keyword rfl) fun _ => .bind (appends_add (hself _)) fun _ => k) k)
        fun _ => .bind (appends_add (reads_colonType hself false)) fun _ => k)
      (.bind (appends_mark rfl) fun _ => .look .sees fun _ => .ite (fun _ => appends_mark rfl) fun _ =>
        .look .sees fun _ => .ite (fun _ => appends_mark rfl) fun _ => appends_optionalMark rfl)) rfl

theorem reads_propertyName : Reads [] (propertyName self) := by
  refine .look .rest fun cs => ?_
  split
  · exact .fail
  · exact .ite (fun _ => reads_string) fun _ => .ite (fun _ => reads_number) fun _ => .ite
      (fun _ => .node (.bind (appends_mark rfl) fun _ => .bind (appends_add (reads_inner hself)) fun _ =>
        appends_mark rfl) rfl)
      fun _ => .ite (fun _ => reads_privateName) fun _ => reads_word rfl

/-- The name of a member of an object type and what follows it. -/
theorem appends_namedType : Appends [] true (do
    add (propertyName self)
    optionalMark "?"
    if (← sees "(") || (← sees "<") then signature v self true
    else optionalColonType v self true) :=
  .of (.bind (appends_add (reads_propertyName hself)) fun _ => .bind (appends_optionalMark rfl) fun _ =>
    .look .sees fun _ => .look .sees fun _ => .ite (fun _ => appends_signature hself true)
      fun _ => appends_optionalColonType hself true) rfl

theorem reads_objectTypeMember : Reads [] (objectTypeMember v self) :=
  .node (.bind (.loop appends_typeMemberModifier) fun _ => .look .ahead fun _ => .join
    (fun k => .ite
      (fun _ => .join (fun k => .ite (fun _ => .bind (appends_mark rfl) fun _ => k)
          fun _ => .bind (appends_mark rfl) fun _ => k)
        (.bind (appends_keyword rfl) fun _ => k))
      fun _ => k)
    (.look .sees fun _ => .ite
      (fun _ => .orElse
        (.bind (appends_indexSignature hself) fun _ => appends_optionalColonType hself true)
        (appends_namedType hself))
      fun _ => .look .sees fun _ => .look .sees fun _ => .ite (fun _ => appends_signature hself true)
        fun _ => .look keeps_seesWord fun _ => .look .ahead fun _ => .ite
          (fun _ => .bind (appends_keyword rfl) fun _ => appends_signature hself true)
          fun _ => appends_namedType hself)) rfl

theorem appends_objectTypeStep : Appends [] false (objectTypeStep v self) :=
  .relax (.bind appends_wideGap fun _ => .look .sees fun _ => .look .sees fun _ =>
    .ite (fun _ => .pure false)
    fun _ => .bind (appends_add (reads_objectTypeMember hself)) fun _ => .look .sees fun _ => .ite
      (fun _ => .bind (appends_mark rfl) fun _ => .pure true)
      fun _ => .look .sees fun _ => .ite (fun _ => .bind (appends_mark rfl) fun _ => .pure true)
        fun _ => .look .rest fun _ => .pure _)

theorem reads_objectType : Reads [] (objectType v self) :=
  .node (.look .sees fun flow => .bind (appends_mark (by cases flow <;> rfl)) fun _ =>
    .look .sees fun _ => .join
      (fun k => .ite (fun _ => .bind (appends_mark rfl) fun _ => k) fun _ =>
        .bind (appends_optionalMark rfl) fun _ => k)
      (.bind (.loop (appends_objectTypeStep hself)) fun _ => appends_mark (by cases flow <;> rfl))) rfl

theorem appends_wordType (ends afterOperand : Bool) :
    Appends [] true (wordType v self ends afterOperand) :=
  .of (.look .ahead fun cs => .ite (fun _ => appends_typeQuery hself) fun _ => .ite
    (fun h => .bind (appends_keyword (h ▸ rfl)) fun _ => appends_add (hself _)) fun _ => .ite
    (fun h => .bind (appends_keyword (h ▸ rfl)) fun _ => appends_functionType hself ends afterOperand)
    fun _ => .ite
    (fun h => .bind (appends_keywordOf fun hw => by simp [hw] at h) fun _ =>
      .bind (appends_keyword rfl) fun _ => appends_functionType hself ends afterOperand)
    fun _ => .ite
    (fun h => .bind (appends_keywordOf fun hw => by simp [hw] at h) fun _ =>
      .bind (appends_add (reads_word rfl)) fun _ => .look .rest fun _ => .ite (fun _ => .pure ()) fun _ =>
        .look keeps_seesWord fun _ => .ite
          (fun _ => .bind (appends_keyword rfl) fun _ => appends_add (hself _)) fun _ => .pure ())
    fun _ => .ite
    (fun h => .bind (appends_keywordOf fun hw => by simp [hw] at h) fun _ => appends_add (hself _))
    fun _ => .ite
    (fun h => .bind (appends_keywordOf fun hw => by simp [hw] at h) fun _ => appends_add (hself _))
    fun _ => appends_typePath hself appends_pathStep) rfl

theorem appends_plainType (ends afterOperand : Bool) :
    Appends [] true (plainType v self ends afterOperand) := by
  refine .of (.bind appends_wideGap fun _ => .look .rest fun cs => (?_ : Appends [] true _)) rfl
  split
  · exact .fail
  · exact .of (.ite (fun _ => appends_add (reads_objectType hself)) fun _ => .ite
      (fun _ => appends_bracketed rfl rfl (appends_tupleMember hself)) fun _ => .ite
      (fun _ => .orElse (appends_functionType hself ends afterOperand)
        (.bind (appends_mark rfl) fun _ => .bind (appends_add (hself _)) fun _ =>
          appends_mark rfl)) fun _ => .ite
      (fun _ => appends_functionType hself ends afterOperand) fun _ => .ite
      (fun _ => appends_add reads_string) fun _ => .ite
      (fun _ => appends_add (reads_template (hself _))) fun _ => .ite
      (fun _ => .bind (appends_mark (isEmpty_singleton _)) fun _ => appends_add reads_number) fun _ => .ite
      (fun _ => appends_mark rfl) fun _ => .ite
      (fun _ => .bind (appends_mark rfl) fun _ => appends_add (hself _)) fun _ => .ite
      (fun _ => appends_add reads_number) fun _ => appends_wordType hself ends afterOperand) rfl

theorem appends_indexStep (ends afterOperand : Bool) :
    Appends [] false (indexStep v self ends afterOperand) :=
  .relax (.look .rest fun _ => .ite (fun _ => .pure false) fun _ => .look .sees fun _ => .ite
    (fun _ => .bind (appends_mark rfl) fun _ => .look .sees fun _ => .joinIf
      (fun k => .bind (appends_add (hself _)) fun _ => k) (.bind (appends_mark rfl) fun _ => .pure true))
    fun _ => .pure false)

theorem appends_indexedType (ends afterOperand : Bool) :
    Appends [] true (indexedType v self ends afterOperand) :=
  .of (.bind (appends_plainType hself ends afterOperand) fun _ =>
    .loop (appends_indexStep hself ends afterOperand)) rfl

theorem appends_joinStep (ends afterOperand : Bool) : Appends [] false (joinStep v self ends afterOperand) :=
  .relax (.look keeps_seesJoin fun _ => .ite
    (fun _ => .look .sees fun _ => .join
      (fun k => .ite (fun _ => .bind (appends_mark rfl) fun _ => k) fun _ =>
        .bind (appends_mark rfl) fun _ => k)
      (.bind (appends_indexedType hself ends afterOperand) fun _ => .pure true))
    fun _ => .pure false)

theorem reads_type (ends afterOperand : Bool) : Reads [] (type v self ends afterOperand) :=
  .node (.look keeps_seesJoin fun _ => .join
    (fun k => .ite
      (fun _ => .look .sees fun _ => .ite (fun _ => .bind (appends_mark rfl) fun _ => k)
        fun _ => .bind (appends_mark rfl) fun _ => k)
      fun _ => k)
    (.bind (appends_indexedType hself ends afterOperand) fun _ =>
      .bind (.loop (appends_joinStep hself ends afterOperand)) fun _ => .look .rest fun _ => .ite
        (fun _ => .pure ()) fun _ => .look keeps_seesWord fun _ => .ite
        (fun _ => .optional (.bind (appends_keyword rfl) fun _ => .bind (appends_add (hself _)) fun _ =>
          .bind (appends_mark rfl) fun _ => .bind (appends_add (hself _)) fun _ =>
            .bind (appends_mark rfl) fun _ => appends_add (hself _)))
        fun _ => .look keeps_seesWord fun _ => .ite
          (fun _ => .bind (appends_keyword rfl) fun _ => appends_add (hself _)) fun _ => .pure ())) rfl

/-! ### Patterns -/

theorem reads_targetExpression : Reads [] (targetExpression v self) :=
  .look .rest fun _ => .look (.require _) fun _ => .bind (hself _) fun _ => .look (.require _) fun _ => .pure

theorem reads_defaultedPattern : Reads [] (defaultedPattern self) :=
  .node (.bind (appends_add (hself _)) fun _ => appends_optionalInitializer hself false) rfl

theorem reads_restPattern : Reads [] (restPattern self) :=
  .node (.bind (appends_mark rfl) fun _ => appends_add (hself _)) rfl

theorem reads_arrayPattern : Reads [] (arrayPattern self) :=
  .node (appends_bracketed rfl rfl (appends_add (reads_defaultedPattern hself))) rfl

theorem reads_memberPattern : Reads [] (memberPattern self) :=
  .look .sees fun _ => .ite (fun _ => reads_restPattern hself) fun _ =>
    .node (.read (reads_propertyName hself) fun _ => .bind .push fun _ => .look .sees fun _ => .ite
      (fun _ => .bind (appends_mark rfl) fun _ => appends_add (reads_defaultedPattern hself))
      fun _ => .look (.require _) fun _ => appends_optionalInitializer hself false) rfl

theorem reads_objectPattern : Reads [] (objectPattern self) :=
  .node (appends_bracketed rfl rfl (appends_add (reads_memberPattern hself))) rfl

theorem reads_pattern : Reads [] (pattern v self) := by
  refine .look .rest fun cs => ?_
  split
  · exact reads_objectPattern hself
  · exact reads_arrayPattern hself
  · exact reads_restPattern hself
  · exact reads_targetExpression hself

theorem reads_binding : Reads [] (binding self) := by
  refine .look .rest fun cs => ?_
  split
  · exact reads_objectPattern hself
  · exact reads_arrayPattern hself
  · exact reads_word rfl

end StoryManifest.Source.Grammar
