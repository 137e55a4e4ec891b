import StoryManifest.Proofs.Source.OrderedExpressions
import StoryManifest.Source.Program

/-!
Statements keep nodes in order, and so do all rules applied to one another. The tree of a program is in
order as a whole: its statements come one after the other, and inside each the same holds at every depth.
It is tidy as well.
-/

namespace StoryManifest.Source.Grammar

open Source.Parser

variable {v : Variant} {self : Grammar} (hself : ∀ rule, Reads [] (self rule))

include hself

/-! ### Variables, functions and classes -/

theorem reads_declarator : Reads [] (declarator v self) :=
  .node (.bind (appends_field .name (reads_binding hself)) fun _ => .join
    (fun k => .ite
      (fun _ => .look .ahead fun _ => .joinIf
        (fun k' => .bind (appends_mark rfl) fun _ => k')
        (.bind (appends_optionalColonType hself true) fun _ => k))
      fun _ => k)
    (appends_optionalInitializer hself true)) rfl

omit hself in
theorem keeps_endsWithValue : Keeps endsWithValue := fun s b t h => by
  cases h
  exact ⟨rfl, Nat.le_refl _⟩

theorem appends_declarators : Appends [] true (declarators v self) :=
  .of (.bind (appends_commaSeparated (appends_add (reads_declarator hself))) fun _ =>
    .look keeps_endsWithValue fun _ => appends_semicolon v _) rfl

theorem reads_variableStatement {kind : Kind} {w : String} (hw : w ≠ "")
    (hkind : (Label.named kind).isOrdinary = true) : Reads [] (variableStatement v self kind w) :=
  .node (.bind (appends_keywordOf hw) fun _ => appends_declarators hself) hkind

theorem reads_expressionStatement : Reads [] (expressionStatement v self) :=
  .statement (hself _) (appends_semicolon v true) (trails_semicolon v true)

theorem reads_functionDeclaration : Reads [] (functionDeclaration v self) :=
  .node (.bind (appends_optionalWord rfl) fun _ => .bind (appends_keyword rfl) fun _ =>
    .bind (appends_optionalMark rfl) fun _ => .bind (appends_field .name (reads_word rfl)) fun _ =>
    .bind (appends_signature hself true) fun _ => .look .sees fun _ => .ite
      (fun _ => appends_semicolon v false) fun _ => appends_add (reads_block hself false)) rfl

theorem reads_classDeclaration : Reads [] (classDeclaration v self) :=
  .node (.bind (appends_decorators hself) fun _ => .joinIf
    (fun k => .bind (appends_optionalWord rfl) fun _ => k)
    (.bind (appends_classTail hself) fun _ => appends_softEnd v false)) rfl

/-! ### Declarations of typed source -/

theorem reads_typeAlias : Reads [] (typeAlias v self) :=
  .node (.bind (appends_keyword rfl) fun _ => .bind (appends_field .name (reads_word rfl)) fun _ =>
    .bind (appends_optionalTypeParameters hself) fun _ => .bind (appends_mark rfl) fun _ =>
    .bind (appends_add (hself _)) fun _ => appends_semicolon v false) rfl

theorem reads_interface : Reads [] (interface v self) :=
  .node (.bind (appends_keyword rfl) fun _ => .bind (appends_field .name (reads_word rfl)) fun _ =>
    .bind (appends_optionalTypeParameters hself) fun _ => .look keeps_seesWord fun _ => .joinIf
      (fun k => .bind (appends_keyword rfl) fun _ =>
        .bind (appends_commaSeparated (appends_add (hself _))) fun _ => k)
      (appends_add (reads_objectType hself))) rfl

theorem reads_enumeration : Reads [] (enumeration self) :=
  .node (.bind (appends_optionalWord rfl) fun _ => .bind (appends_keyword rfl) fun _ =>
    .bind (appends_field .name (reads_word rfl)) fun _ => appends_bracketed rfl rfl (appends_add
      (.node (.bind (appends_add (reads_propertyName hself)) fun _ =>
        appends_optionalInitializer hself false) rfl))) rfl

omit hself in
theorem appends_moduleStep : Appends [] false moduleStep :=
  .relax (.look .sees fun _ => .ite
    (fun _ => .bind (appends_mark rfl) fun _ => .bind (appends_add (reads_word rfl)) fun _ => .pure true)
    fun _ => .pure false)

theorem reads_module {w : String} (hw : w ≠ "") : Reads [] (module v self w) :=
  .node (.bind (appends_keywordOf hw) fun _ => .bind appends_wideGap fun _ => .look .sees fun _ =>
    .look .sees fun _ => .join
      (fun k => .ite (fun _ => .bind (appends_add reads_string) fun _ => k)
        fun _ => .bind (appends_add (reads_word rfl)) fun _ => .bind (.loop appends_moduleStep) fun _ => k)
      (.look .sees fun _ => .ite (fun _ => appends_add (reads_block hself false))
        fun _ => appends_semicolon v false)) rfl

/-- Every declaration of typed source that may start here reads a node. -/
theorem reads_typedDeclaration {cs : List Char} : ∀ p ∈ typedDeclaration? v self cs, Reads [] p := by
  intro p hp
  simp only [typedDeclaration?] at hp
  split at hp
  · cases hp; exact reads_interface hself
  · split at hp
    · cases hp; exact reads_enumeration hself
    · split at hp
      · cases hp; exact reads_classDeclaration hself
      · split at hp
        · cases hp; exact reads_typeAlias hself
        · split at hp
          · rename_i hmodule
            cases hp
            exact reads_module hself fun hw => by simp [opensModule, hw] at hmodule
          · cases hp

theorem reads_ambient : Reads [] (ambient v self) :=
  .node (.bind (appends_keyword rfl) fun _ => .bind appends_wideGap fun _ =>
    .look keeps_seesWord fun _ => .look .ahead fun _ => .ite
      (fun _ => .bind (appends_keyword rfl) fun _ => appends_add (reads_block hself false))
      fun _ => appends_add (hself _)) rfl

/-! ### Imports and exports -/

omit hself in
theorem appends_sourceClause : Appends [] true sourceClause :=
  .of (.bind (appends_keyword rfl) fun _ => appends_add reads_string) rfl

omit hself in
theorem reads_moduleName : Reads [] moduleName := by
  refine .look .rest fun cs => ?_
  split
  · exact reads_string
  · exact reads_string
  · exact reads_word rfl

omit hself in
theorem appends_optionalTypeWord : Appends [] false (optionalTypeWord v) :=
  .relax (.look .ahead fun cs => .ite (fun h => appends_keywordOf fun hw => by simp [hw] at h)
    fun _ => .pure ())

omit hself in
theorem reads_exportClause : Reads [] (exportClause v) :=
  .node (appends_bracketed rfl rfl (appends_add (.node (.bind appends_optionalTypeWord fun _ =>
    .bind (appends_field .name reads_moduleName) fun _ => .look keeps_seesWord fun _ => .ite
      (fun _ => .bind (appends_keyword rfl) fun _ => appends_field .alias reads_moduleName)
      fun _ => .pure ()) rfl))) rfl

omit hself in
theorem appends_importNames : Appends [] true (importNames v) :=
  .of (.look .sees fun _ => .ite
    (fun _ => .bind (appends_mark rfl) fun _ => .bind (appends_keyword rfl) fun _ =>
      appends_add (reads_word rfl))
    fun _ => appends_bracketed rfl rfl (appends_add (.node (.bind appends_optionalTypeWord fun _ =>
      .bind (appends_add reads_moduleName) fun _ => .look keeps_seesWord fun _ => .ite
        (fun _ => .bind (appends_keyword rfl) fun _ => appends_add (reads_word rfl))
        fun _ => .pure ()) rfl))) rfl

theorem appends_importAttributes : Appends [] false (importAttributes v self) :=
  .relax (.look .ahead fun cs => .ite
    (fun h => .bind (appends_keywordOf fun hw => by simp [hw] at h) fun _ =>
      appends_add (reads_object hself))
    fun _ => .pure ())

theorem appends_importBody : Appends [] false (importBody v self) :=
  .relax (.bind appends_wideGap fun _ => .look .sees fun _ => .look .sees fun _ => .join
    (fun k => .ite (fun _ => .bind (appends_add reads_string) fun _ => k)
      fun _ => .look .sees fun _ => .look .sees fun _ => .ite
        (fun _ => .bind appends_importNames fun _ => .bind appends_sourceClause fun _ => k)
        fun _ => .bind (appends_add (reads_word rfl)) fun _ => .look keeps_seesAssign fun _ => .ite
          (fun _ => .bind (appends_mark rfl) fun _ => .look keeps_seesWord fun _ => .look .ahead fun _ =>
            .ite
            (fun _ => .bind (appends_keyword rfl) fun _ => .bind (appends_mark rfl) fun _ =>
              .bind (appends_add reads_string) fun _ => .bind (appends_mark rfl) fun _ => k)
            fun _ => .bind (appends_add (reads_word rfl)) fun _ =>
              .bind (.loop appends_moduleStep) fun _ => k)
          fun _ => .look .sees fun _ => .joinIf
            (fun k' => .bind (appends_mark rfl) fun _ => .bind appends_importNames fun _ => k')
            (.bind appends_sourceClause fun _ => k))
    (.bind (appends_importAttributes hself) fun _ => appends_semicolon v false))

theorem reads_importStatement : Reads [] (importStatement v self) :=
  .node (.bind (appends_keyword rfl) fun _ => .look .ahead fun cs => .join
    (fun k => .ite (fun h => .bind (appends_keywordOf fun hw => by simp [hw] at h) fun _ => k) fun _ => k)
    (appends_importBody hself)) rfl

theorem appends_exportDefault : Appends [] true (exportDefault v self) := by
  have hvalue : Appends [] true (do
      field .value (self (.expression { ends := true }))
      semicolon v true) :=
    .of (.bind (appends_field .value (hself _)) fun _ => appends_semicolon v true) rfl
  refine .of (.bind (appends_keyword rfl) fun _ => .bind appends_wideGap fun _ =>
    .look .ahead fun cs =>
    (.of (.ite (fun _ => appends_field .declaration (reads_functionDeclaration hself)) fun _ => .ite
      (fun _ => .orElse (appends_field .declaration (reads_classDeclaration hself)) hvalue) fun _ => .ite
      (fun _ => (?_ : Appends [] true _)) fun _ => hvalue) rfl : Appends [] true _)) rfl
  split
  · rename_i p hp
    exact .of (.ite (fun _ => .fail)
      fun _ => .orElse (appends_field .declaration (reads_typedDeclaration hself p hp)) hvalue) rfl
  · exact hvalue

theorem appends_exportNames : Appends [] true (exportNames v self) :=
  .of (.look .sees fun _ => .join
    (fun k => .ite
      (fun _ => .bind (appends_mark rfl) fun _ => .look keeps_seesWord fun _ => .joinIf
        (fun k' => .bind (appends_keyword rfl) fun _ => .bind (appends_add reads_moduleName) fun _ => k')
        (.bind appends_sourceClause fun _ => k))
      fun _ => .bind (appends_add reads_exportClause) fun _ => .look keeps_seesWord fun _ => .ite
        (fun _ => .bind appends_sourceClause fun _ => k) fun _ => k)
    (.joinIf (fun k => .bind (appends_importAttributes hself) fun _ => k) (appends_semicolon v false))) rfl

theorem appends_typedExport : Appends [] true (typedExport v self) :=
  .of (.look .ahead fun _ => .ite
    (fun _ => .bind (appends_keyword rfl) fun _ => appends_exportNames hself) fun _ => .ite
    (fun _ => .bind (appends_mark rfl) fun _ => .bind (appends_add (hself _)) fun _ =>
      appends_semicolon v true)
    fun _ => .ite
    (fun _ => .bind (appends_keyword rfl) fun _ => .bind (appends_keyword rfl) fun _ =>
      .bind (appends_add (reads_word rfl)) fun _ => appends_semicolon v false) fun _ => .ite
    (fun _ => appends_add (.node (.bind (appends_keyword rfl) fun _ =>
      .bind appends_optionalTypeWord fun _ => .bind (appends_add (reads_word rfl)) fun _ =>
      .bind (appends_mark rfl) fun _ =>
      .bind (appends_add (reads_word rfl)) fun _ => .bind (.loop appends_moduleStep) fun _ =>
        .look .sees fun _ => .joinIf (fun k => .bind (appends_add (reads_arguments hself)) fun _ => k)
          (appends_semicolon v false)) rfl)) fun _ => .fail) rfl

theorem appends_exportDeclaration : Appends [] true (exportDeclaration v self) :=
  .of (.look .ahead fun _ => .look (.require _) fun _ => .bind appends_wideGap fun _ =>
    .read (hself _) fun _ => .look (.require _) fun _ => .pushAs) rfl

theorem reads_exportStatement : Reads [] (exportStatement v self) :=
  .node (.bind (appends_decorators hself) fun _ => .bind (appends_keyword rfl) fun _ =>
    .look .ahead fun _ => .ite
    (fun _ => appends_exportDefault hself) fun _ => .ite
    (fun _ => appends_exportNames hself) fun _ => .ite
    (fun _ => .orElse (appends_exportDeclaration hself) (appends_typedExport hself))
    fun _ => appends_exportDeclaration hself) rfl

/-! ### Control -/

theorem appends_body : Appends [] true (body self) := appends_add (hself _)

theorem reads_ifStatement : Reads [] (ifStatement v self) :=
  .node (.bind (appends_keyword rfl) fun _ => .bind (appends_add (reads_parenthesized hself)) fun _ =>
    .bind (appends_body hself) fun _ => .look keeps_seesWord fun _ => .ite
      (fun _ => .bind (appends_keyword rfl) fun _ => appends_body hself) fun _ => .pure ()) rfl

theorem appends_caseStep : Appends [] false (caseStep self) :=
  .relax (.bind appends_wideGap fun _ => .look .sees fun _ => .ite (fun _ => .pure false) fun _ =>
    .read (.node (.look keeps_seesWord fun _ => .join
        (fun k => .ite
          (fun _ => .bind (appends_keyword rfl) fun _ => .bind (appends_add (hself _)) fun _ => k)
          fun _ => .bind (appends_keyword rfl) fun _ => k)
        (.bind (appends_mark rfl) fun _ => .loop (appends_statementStep hself _))) rfl)
      fun _ => .bind .push fun _ => .pure true)

theorem reads_switchStatement : Reads [] (switchStatement v self) :=
  .node (.bind (appends_keyword rfl) fun _ => .bind (appends_add (reads_parenthesized hself)) fun _ =>
    .bind (appends_mark rfl) fun _ => .bind (.loop (appends_caseStep hself)) fun _ => appends_mark rfl) rfl

theorem appends_eachHeader : Appends [] true (eachHeader v self) :=
  .of (.look .ahead fun cs => .look .ahead fun _ => .join
    (fun k => .ite
      (fun h => .bind (appends_keywordOf fun hw => by simp [hw] at h) fun _ =>
        .bind (appends_add (reads_binding hself)) fun _ =>
        .bind (appends_optionalColonType hself false) fun _ => .ite
          (fun _ => .bind (appends_optionalInitializer hself false) fun _ => k) fun _ => k)
      fun _ => .look .sees fun _ =>
        .ite (fun _ => .bind (appends_add (reads_parenthesized hself)) fun _ => k)
        fun _ => .bind (appends_add (hself _)) fun _ => k)
    (.look keeps_seesWord fun _ => .join
      (fun k => .ite (fun _ => .bind (appends_keyword rfl) fun _ => k) fun _ =>
        .bind (appends_keyword rfl) fun _ => k)
      (appends_add (hself _)))) rfl

theorem appends_countingHeader : Appends [] true (countingHeader v self) :=
  have hlast : Appends [] false (do
      wideGap
      if !(← sees ")") then add (self (.sequence false))) :=
    .relax (.bind appends_wideGap fun _ => .look .sees fun _ => .ite (fun _ => appends_add (hself _))
      fun _ => .pure ())
  .of (.bind appends_wideGap fun _ => .look .ahead fun cs => .look .sees fun _ => .join
    (fun k => .ite (fun _ => .bind (appends_mark rfl) fun _ => k) fun _ => .ite
      (fun h => .bind (appends_keywordOf fun hw => by simp [hw] at h) fun _ =>
        .bind (appends_declarators hself) fun _ => k)
      fun _ => .bind (appends_add (reads_expressionStatement hself)) fun _ => k)
    (.bind appends_wideGap fun _ => .look .sees fun _ => .join
      (fun k => .ite (fun _ => .bind (appends_mark rfl) fun _ => k)
        fun _ => .bind (appends_add (reads_expressionStatement hself)) fun _ => k)
      hlast)) rfl

theorem reads_forStatement : Reads [] (forStatement v self) :=
  .node (.bind (appends_keyword rfl) fun _ => .bind (appends_optionalWord rfl) fun _ =>
    .bind (appends_mark rfl) fun _ => .bind appends_wideGap fun _ => .bind (.orElse
      (.bind (appends_eachHeader hself) fun _ => appends_mark rfl)
      (.bind (appends_countingHeader hself) fun _ => appends_mark rfl)) fun _ => appends_body hself) rfl

theorem reads_guardedStatement {w : String} (hw : w ≠ "") : Reads [] (guardedStatement v self w) :=
  .node (.bind (appends_keywordOf hw) fun _ => .bind (appends_add (reads_parenthesized hself)) fun _ =>
    appends_body hself) rfl

theorem reads_doStatement : Reads [] (doStatement v self) :=
  .node (.bind (appends_keyword rfl) fun _ => .bind (appends_body hself) fun _ =>
    .bind (appends_keyword rfl) fun _ =>
    .bind (appends_add (reads_parenthesized hself)) fun _ => .look .sees fun _ =>
      .ite (fun _ => appends_mark rfl)
      fun _ => appends_softEnd v false) rfl

theorem reads_tryStatement : Reads [] (tryStatement v self) :=
  .node (.bind (appends_keyword rfl) fun _ => .bind (appends_add (reads_block hself false)) fun _ =>
    .look keeps_seesWord fun _ => .join
      (fun k => .ite
        (fun _ => .bind (appends_keyword rfl) fun _ => .look .sees fun _ => .joinIf
          (fun k' => .bind (appends_mark rfl) fun _ => .bind (appends_add (reads_binding hself)) fun _ =>
            .bind (appends_optionalColonType hself false) fun _ => .bind (appends_mark rfl) fun _ => k')
          (.bind (appends_add (reads_block hself false)) fun _ => k))
        fun _ => k)
      (.look keeps_seesWord fun _ => .ite
        (fun _ => .bind (appends_keyword rfl) fun _ =>
          appends_add (reads_block hself false)) fun _ => .pure ())) rfl

omit hself in
theorem reads_jump {w : String} (hw : w ≠ "") : Reads [] (jump v w) :=
  .node (.bind (appends_keywordOf hw) fun _ => .look .rest fun _ => .look .ahead fun _ => .joinIf
    (fun k => .bind (appends_add (reads_word rfl)) fun _ => k) (appends_semicolon v false)) rfl

omit hself in
theorem reads_debuggerStatement : Reads [] (debuggerStatement v) :=
  .node (.bind (appends_keyword rfl) fun _ => appends_semicolon v false) rfl

theorem reads_returnStatement : Reads [] (returnStatement v self) :=
  .node (.bind (appends_keyword rfl) fun _ => .look .rest fun _ => .look .sees fun _ => .ite
    (fun _ => appends_semicolon v false)
    fun _ => .bind (appends_add (hself _)) fun _ => appends_semicolon v true) rfl

theorem reads_throwStatement : Reads [] (throwStatement v self) :=
  .node (.bind (appends_keyword rfl) fun _ => .bind (appends_add (hself _)) fun _ =>
    appends_semicolon v true) rfl

theorem reads_labelled : Reads [] (labelled self) :=
  .node (.bind (appends_add (reads_word rfl)) fun _ => .bind (appends_mark rfl) fun _ =>
    appends_body hself) rfl

/-! ### Statements -/

theorem reads_wordStatement : Reads [] (wordStatement v self) := by
  have hplain : Reads [] (expressionStatement v self) := reads_expressionStatement hself
  refine .look .rest fun cs => .ite (fun _ => reads_exportStatement hself) fun _ => .ite
    (fun _ => .ite (fun _ => hplain) fun _ => reads_importStatement hself) fun _ => .ite
    (fun _ => reads_enumeration hself) fun _ => .ite
    (fun h => reads_variableStatement hself (h ▸ by decide) rfl) fun _ => .ite
    (fun h => reads_variableStatement hself (h ▸ by decide) rfl) fun _ => .ite
    (fun h => reads_variableStatement hself (fun hw => by simp [hw] at h) rfl) fun _ => .ite
    (fun _ => reads_functionDeclaration hself) fun _ => .ite
    (fun _ => reads_classDeclaration hself) fun _ => .ite
    (fun _ => reads_ifStatement hself) fun _ => .ite
    (fun _ => reads_switchStatement hself) fun _ => .ite
    (fun _ => reads_forStatement hself) fun _ => .ite
    (fun h => reads_guardedStatement hself fun hw => by simp [hw] at h) fun _ => .ite
    (fun _ => reads_doStatement hself) fun _ => .ite
    (fun _ => reads_tryStatement hself) fun _ => .ite
    (fun h => reads_jump fun hw => by simp [hw] at h) fun _ => .ite
    (fun _ => reads_debuggerStatement) fun _ => .ite
    (fun _ => reads_returnStatement hself) fun _ => .ite
    (fun _ => reads_throwStatement hself) fun _ => .ite
    (fun _ => reads_ambient hself) fun _ => .ite
    (fun _ => ?_) fun _ => .ite (fun _ => reads_labelled hself) fun _ => hplain
  split
  · rename_i p hp
    exact reads_typedDeclaration hself p hp
  · exact hplain

theorem reads_statement : Reads [] (statement v self) := by
  refine .look .rest fun cs => ?_
  split
  · exact .orElse (reads_block hself false) (reads_expressionStatement hself)
  · exact .node (appends_mark rfl) rfl
  · exact .orElse (reads_exportStatement hself) (reads_classDeclaration hself)
  · exact reads_wordStatement hself

/-- A rule reads an orderly node if the rules that it refers to do. -/
theorem reads_rules : ∀ rule, Reads [] (rules v self rule)
  | .expression setting => reads_expression hself setting
  | .sequence ends => reads_sequence hself ends
  | .pattern => reads_pattern hself
  | .statement => reads_statement hself
  | .element => reads_element hself
  | .type ends afterOperand => reads_type hself ends afterOperand

omit hself in
/-- Every rule reads an orderly node, however deep rules may be applied to one another. -/
theorem reads_derive : ∀ (depth : Nat) (rule : Rule), Reads [] (derive v depth rule)
  | 0, _ => .fail
  | depth + 1, rule => reads_rules (reads_derive depth) rule

end StoryManifest.Source.Grammar

namespace StoryManifest.Source

open Source.Parser Source.Grammar

/-- The statements of a text that the grammar fits to are tidy and in order. -/
theorem laid_readProgram {v : Variant} {text : List Char} {root : Node} {t : State}
    (h : readProgram v text = .done root t) : Laid 0 root.children t.byte := by
  rw [readProgram] at h
  split at h
  · cases h
  · have hbody : Appends [] false (do
        skip (hashBangLength (← rest))
        loop (statementStep (derive v (depthFor text)) fun _ => false)
        require ((← rest) = [])) :=
      .relax (.look .rest fun _ => .look (.skip _) fun _ =>
        .bind (.loop (appends_statementStep (reads_derive (depthFor text)) _)) fun _ =>
          .look .rest fun _ => (Keeps.require _).appends)
    exact hbody.children h

theorem label_readProgram {v : Variant} {text : List Char} {root : Node} {t : State}
    (h : readProgram v text = .done root t) : root.label = .named .program := by
  rw [readProgram] at h
  split at h
  · cases h
  · obtain ⟨kind, u, hrun, rfl, -⟩ := nodeOf_eq_done h
    obtain ⟨_, w, -, hkind⟩ := bind_eq_done.mp hrun
    obtain ⟨rfl, -⟩ := pure_eq_done.mp hkind
    rfl

/-- A text that the grammar does not fit to has a fault. -/
theorem syntaxFault?_of_failed {v : Variant} {text : List Char} {reach : Place}
    (h : readProgram v text = .failed reach) : (syntaxFault? (treeOf v text)).isSome = true := by
  refine isSome_markedFault? ?_
  rw [treeOf, h]
  dsimp only
  split
  · simp [Parser.build, Node.anyFault, Node.hasFault, Node.leaf, Node.isMissing]
  · simp [errorTree, Node.hasFault, Node.leaf, Node.isError]

/-- The tree of a program is the one that the grammar gives. -/
theorem readProgram_of_ofText {v : Variant} {text : String} {p : Program}
    (h : Program.ofText v text = .ok p) : ∃ t, readProgram v text.toList = .done p.root t := by
  rw [Program.ofText] at h
  cases hread : readProgram v text.toList with
  | failed reach =>
    obtain ⟨fault, hfault⟩ := Option.isSome_iff_exists.mp (syntaxFault?_of_failed hread)
    rw [hfault] at h
    cases h
  | done root t =>
    have htree : treeOf v text.toList = root := by rw [treeOf, hread]
    rw [htree] at h
    split at h <;> cases h
    exact ⟨t, rfl⟩

/-- The statements of a program come one after the other, orderly at every depth. -/
theorem inOrder_root {v : Variant} {text : String} {p : Program} (h : Program.ofText v text = .ok p) :
    ∃ b, InOrder 0 p.root.children b := by
  obtain ⟨t, hread⟩ := readProgram_of_ofText h
  exact ⟨_, (laid_readProgram hread).inOrder⟩

/-- A text with its tree, faulty or not. -/
def parsed (v : Variant) (text : String) : Program := ⟨v, text.toList, treeOf v text.toList⟩

theorem ofText_eq_parsed (v : Variant) (text : String)
    (h : (syntaxFault? (parsed v text).root).isNone = true) :
    Program.ofText v text = .ok (parsed v text) := by
  rw [Option.isNone_iff_eq_none] at h
  rw [Program.ofText, show syntaxFault? (treeOf v text.toList) = none from h]
  rfl

/-- Every tree is tidy, with faults or without. -/
theorem tidy_parsed (v : Variant) (text : String) : (parsed v text).root.Tidy := by
  rw [parsed, treeOf]
  cases hread : readProgram v text.toList with
  | done root t => exact .of_isOrdinary (label_readProgram hread ▸ rfl) (laid_readProgram hread).tidy
  | failed reach =>
    dsimp only
    split
    · exact .of_isOrdinary rfl (by simpa [Parser.build] using Node.Tidy.leaf ..)
    · exact .leaf ..

/-- The grammar fits to a text, and the statements are in order, or the tree has no statements. -/
theorem parsed_cases (v : Variant) (text : String) :
    (parsed v text).root.is .program = true ∧ (∃ b, InOrder 0 (parsed v text).root.children b) ∨
      (parsed v text).root.namedChildren = [] := by
  rw [parsed, treeOf]
  cases hread : readProgram v text.toList with
  | done root t =>
    exact .inl ⟨decide_eq_true (label_readProgram hread), _, (laid_readProgram hread).inOrder⟩
  | failed reach =>
    dsimp only
    split
    · exact .inr rfl
    · exact .inr rfl

end StoryManifest.Source
