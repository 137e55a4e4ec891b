import StoryManifest.Proofs.Literal.Decoding
import StoryManifest.Proofs.Source.Extending
import StoryManifest.Proofs.Source.Reference

/-!
References read back. A program that is read from the text of a reference, and that is a reference
itself, holds the string that starts behind the parenthesis of the text; the string stands for the
characters that the text was put around only when each of them stands for itself.
-/

namespace StoryManifest.Source

open Source.Parser Source.Grammar

variable {v : Variant} {s t : State} {n : Node} {cs : List Char}

namespace Parser

variable {α : Type} {p : Parser α} {g : Bool}

/-! ### What was read where the text is known -/

/-- A loop appends behind what its first round made. -/
theorem exists_made_of_loop {p : Parser Bool} (hp : Appends [] g p) {a : Unit} (h : loop p s = .done a t) :
    ∃ b u ns, p s = .done b u ∧ t.made = ns ++ u.made := by
  refine rel_loop (R := fun s t => ∃ b u ns, p s = .done b u ∧ t.made = ns ++ u.made) ?_ ?_ h
  · rintro s t x ⟨b, u, ns, hu, ht⟩ ⟨b', u', ms, hu', hx⟩
    obtain ⟨ks, hmade, -⟩ := hp t (.nil (Nat.le_refl _)) hu'
    exact ⟨b, u, ms ++ (ks.reverse ++ ns), hu, by rw [hx, hmade, ht]; simp⟩
  · exact fun s b t hb => ⟨b, t, [], hb, rfl⟩

theorem moves_of_wideGap {a : Unit} (h : wideGap s = .done a t) (hs : s.cursor.rest = cs) (hc : Fresh cs) :
    Moves s t cs s.made :=
  (ensures_of_eq (Q := fun _ t => Moves s t cs s.made) h).mp (Ensures.wideGap_none hs hc fun _ ht => ht)

/-- A token that starts with another character is not seen. -/
theorem sees_bind_of_ne {β : Type} {f : Bool → Parser β} {text : String} {c d : Char} {ds : List Char}
    (htext : text.toList = d :: ds) (hs : s.cursor.rest = c :: cs) (hc : Fresh (c :: cs)) (hne : c ≠ d) :
    (sees text >>= f) s = f false s := by
  have hseen : text.toList.isPrefixOf (afterTrivia s.cursor.rest) = false := by
    rw [hs, show afterTrivia (c :: cs) = c :: cs from afterTrivia_append Blanks.nil hc, htext]
    simp [List.isPrefixOf, hne.symm]
  rw [← hseen]
  rfl

/-- What is read and appended right where a token starts. -/
theorem exists_of_add {q : Parser Node} {a : Unit} (h : add q s = .done a t) (hq : Reads [] q)
    (hs : s.cursor.rest = cs) (hc : Fresh cs) : ∃ n u x, u.cursor.rest = cs ∧ q u = .done n x ∧
      t.made = n :: s.made := by
  obtain ⟨_, u, hgap, h⟩ := bind_eq_done.mp h
  have hu := moves_of_wideGap hgap hs hc
  obtain ⟨n, x, hn, h⟩ := bind_eq_done.mp h
  obtain rfl := push_eq_done.mp h
  obtain ⟨hmade, -⟩ := hq u (.nil (Nat.le_refl _)) hn
  exact ⟨n, u, x, hu.rest_eq, hn, by rw [hmade, hu.made_eq]⟩

/-- A node without a parser for its kind has what its body made as its children. -/
theorem exists_of_node {kind : Kind} {body : Parser Unit} (h : node kind body s = .done n t) :
    ∃ u, body { s with made := [] } = .done () u ∧ n = build kind s.cursor.place u.made.reverse := by
  obtain ⟨kind', u, hrun, rfl, -⟩ := nodeOf_eq_done h
  obtain ⟨_, w, hbody, hkind⟩ := bind_eq_done.mp hrun
  obtain ⟨rfl, rfl⟩ := pure_eq_done.mp hkind
  exact ⟨u, hbody, rfl⟩

end Parser

namespace Grammar

variable {depth : Nat}

/-- A program that starts with a word has the statement of the word as its first part. -/
theorem exists_wordStatement {c : Char} {w : List Char} {root : Node} (hw : IsWord (c :: w))
    (hs : s.cursor.rest = (c :: w) ++ cs) (h : wholeProgram v (depth + 1) s = .done root t) :
    ∃ n ns u x, root.children = n :: ns ∧ u.cursor.rest = (c :: w) ++ cs ∧
      wordStatement v (derive v depth) u = .done n x := by
  obtain ⟨y, hbody, rfl⟩ := exists_of_node h
  rw [rest_bind, hs, hashBangLength_word hw] at hbody
  obtain ⟨_, s₁, hskip, hbody⟩ := bind_eq_done.mp hbody
  obtain rfl := skip_eq_done.mp hskip
  obtain ⟨_, s₂, hloop, hend⟩ := bind_eq_done.mp hbody
  rw [rest_bind] at hend
  obtain ⟨-, rfl⟩ := require_eq_done.mp hend
  obtain ⟨b, s₃, ns, hstep, hmade⟩ :=
    exists_made_of_loop (appends_statementStep (reads_derive (depth + 1)) _) hloop
  obtain ⟨_, u, hgap, hstep⟩ := bind_eq_done.mp hstep
  have hu := moves_of_wideGap hgap hs (hw.fresh cs)
  rw [rest_bind, hu.rest_eq, if_neg (by simp)] at hstep
  obtain ⟨n, x, hn, hstep⟩ := bind_eq_done.mp hstep
  obtain ⟨_, x', hpush, hstep⟩ := bind_eq_done.mp hstep
  obtain rfl := push_eq_done.mp hpush
  obtain ⟨-, rfl⟩ := pure_eq_done.mp hstep
  obtain ⟨hx, -⟩ := reads_derive (depth + 1) .statement u (.nil (Nat.le_refl _)) hn
  refine ⟨n, ns.reverse, u, x, ?_, hu.rest_eq, ?_⟩
  · simp [build, hmade, hx, hu.made_eq]
  · rw [← statement_eq_wordStatement hw hu.rest_eq]
    exact hn

/-- The first part of an expression statement is a sequence. -/
theorem exists_sequence (h : expressionStatement v (derive v depth) s = .done n t) :
    ∃ first ns x, n.children = first :: ns ∧
      derive v depth (.sequence true) { s with made := [] } = .done first x := by
  obtain ⟨u, hbody, rfl⟩ := exists_of_node h
  obtain ⟨first, x, hfirst, hbody⟩ := bind_eq_done.mp hbody
  obtain ⟨_, x', hpush, hend⟩ := bind_eq_done.mp hbody
  obtain rfl := push_eq_done.mp hpush
  obtain ⟨hx, -⟩ := reads_derive depth _ _ (.nil (Nat.le_refl _)) hfirst
  obtain ⟨ns, hmade, -⟩ := appends_semicolon v true _ (.nil (Nat.le_refl _)) hend
  exact ⟨first, ns, x, by simp [build, hmade, hx], hfirst⟩

/-- A sequence of one expression is the expression. -/
theorem expression_of_sequence {g : Grammar} {ends : Bool} (h : Grammar.sequence g ends s = .done n t)
    (hn : n.is .sequenceExpression = false) : ∃ x, g (.expression { ends }) s = .done n x := by
  obtain ⟨first, x, hfirst, h⟩ := bind_eq_done.mp h
  obtain ⟨b, y, hsees, h⟩ := bind_eq_done.mp h
  cases b with
  | false =>
    obtain ⟨rfl, -⟩ := pure_eq_done.mp h
    exact ⟨x, hfirst⟩
  | true =>
    obtain ⟨u, -, rfl⟩ := exists_of_node h
    simp [build, Node.is] at hn

/-- Where neither a closing bracket nor a comma comes next, a step of a list reads an item. -/
theorem exists_of_listStep {item : Parser Unit} {closer : String} {closing c : Char} {b : Bool}
    (h : listStep closer true item s = .done b t) (hs : s.cursor.rest = c :: cs) (hfresh : Fresh (c :: cs))
    (hcloser : closer.toList = [closing]) (hclose : c ≠ closing) (hcomma : c ≠ ',') :
    ∃ u w ns, Moves s u (c :: cs) s.made ∧ item u = .done () w ∧ t.made = ns ++ w.made := by
  obtain ⟨_, u, hgap, h⟩ := bind_eq_done.mp h
  have hu := moves_of_wideGap hgap hs hfresh
  rw [sees_bind_of_ne hcloser hu.rest_eq hfresh hclose, if_neg (by decide),
    sees_bind_of_ne (show ",".toList = [','] from rfl) hu.rest_eq hfresh hcomma, if_neg (by decide)] at h
  obtain ⟨_, w, hitem, hfurther⟩ := bind_eq_done.mp h
  have happends : Appends [] false furtherItem :=
    .look .sees fun _ => .ite (fun _ => .relax (.bind (appends_mark rfl) fun _ => .pure true)) fun _ =>
      .pure false
  obtain ⟨ns, hmade, -⟩ := happends w (.nil (Nat.le_refl _)) hfurther
  exact ⟨u, w, ns.reverse, hu, hitem, hmade⟩

/-- The first argument of a call is the expression that comes after the parenthesis. -/
theorem exists_argument {g : Grammar} {c : Char} (hself : ∀ rule, Reads [] (g rule))
    (h : arguments g s = .done n t) (hs : s.cursor.rest = '(' :: c :: cs) (hfresh : Fresh (c :: cs))
    (hc : c ∉ [')', ',', '.']) : ∃ opening argument ns u x, n.children = opening :: argument :: ns ∧
      u.cursor.rest = c :: cs ∧ g (.expression { }) u = .done argument x := by
  simp only [List.mem_cons, List.not_mem_nil, or_false, not_or] at hc
  obtain ⟨y, hbody, rfl⟩ := exists_of_node h
  obtain ⟨_, s₁, hopening, hbody⟩ := bind_eq_done.mp hbody
  obtain ⟨_, s₂, hloop, hclosing⟩ := bind_eq_done.mp hbody
  obtain ⟨opening, hs₁⟩ : ∃ opening, Moves s s₁ (c :: cs) [opening] := by
    have hs' : s.cursor.rest = [] ++ ("(".toList ++ c :: cs) := hs
    exact (ensures_of_eq (Q := fun _ t => ∃ opening, Moves s t (c :: cs) [opening]) hopening).mp
      (Ensures.mark (s := { s with made := [] }) hs' Blanks.nil (.cons (by decide)) fun stop t ht =>
        ⟨_, ht.rest_eq, ht.made_eq, ht.byte_le⟩)
  obtain ⟨ms, hms, -⟩ := appends_mark (show ")".isEmpty = false from rfl) s₂ (.nil (Nat.le_refl _)) hclosing
  obtain ⟨b, s₃, ns, hstep, hns⟩ :=
    exists_made_of_loop (appends_listStep true (appends_spreadOr hself)) hloop
  obtain ⟨u, w, ks, hu, hitem, hks⟩ := exists_of_listStep hstep hs₁.rest_eq hfresh rfl hc.1 hc.2.1
  -- What comes next is no dot, so the item is no spread one.
  rw [spreadOr, sees_bind_of_ne (show "...".toList = ['.', '.', '.'] from rfl) hu.rest_eq hfresh hc.2.2,
    if_neg (by decide)] at hitem
  obtain ⟨argument, x, x', hx, hargument, hmade⟩ := exists_of_add hitem (hself _) hu.rest_eq hfresh
  refine ⟨opening, argument, ks.reverse ++ (ns.reverse ++ ms), x, x', ?_, hx, hargument⟩
  simp [build, hms, hns, hks, hmade, hu.made_eq, hs₁.made_eq]

/-- What a call makes of a name is a node over the name and the arguments. -/
theorem exists_call {g : Grammar} {setting : Setting} {left : Node} {o : Option Node}
    (hself : ∀ rule, Reads [] (g rule))
    (hlevel : setting.level ≤ Level.target) (h : extend v g setting left s =
      .done o t) (hs : s.cursor.rest = '(' :: cs) :
    ∃ m list u x, o = some m ∧ m.Over .callExpression [left, list] ∧ u.cursor.rest = '(' :: cs ∧
      arguments g u = .done list x := by
  rw [extend_parenthesis hlevel hs] at h
  obtain ⟨m, y, hm, h⟩ := bind_eq_done.mp h
  obtain ⟨rfl, -⟩ := pure_eq_done.mp h
  obtain ⟨w, hbody, rfl⟩ := exists_of_node hm
  obtain ⟨_, w', hpush, hadd⟩ := bind_eq_done.mp hbody
  obtain rfl := push_eq_done.mp hpush
  obtain ⟨list, u, x, hu, hlist, hmade⟩ := exists_of_add hadd (reads_arguments hself) hs (.cons (by decide))
  exact ⟨_, list, u, x, rfl, ⟨rfl, by simp [build, hmade]⟩, hu, hlist⟩

variable {shown : List Char} {literal : Node}

/-- An expression that is read from the text of a reference, and is one, holds the string that starts
in it. -/
theorem exists_quoted {setting : Setting} (hlevel : setting.level ≤ Level.target)
    (h : Grammar.expression v (derive v (depth + 1)) setting s = .done n t)
    (hs : s.cursor.rest = referenceChars shown)
    (hn : IsDefaultMember literal n) : ∃ u x, quoted '\'' u = .done literal x ∧
      u.cursor.rest = '\'' :: (shown ++ '\'' :: ')' :: '.' :: memberWord) := by
  obtain ⟨call, dot, property, hmember, ⟨callee, list, hcall, hcallee, hlist⟩, -⟩ := hn
  obtain ⟨opening, closing, hparts, -, hstring, -⟩ := hlist
  have hself := reads_derive (v := v) (depth + 1)
  obtain ⟨name, u, hname, o, w, hextend, -, hgrown⟩ := expression_eq_done hself h
  rw [operand_require hs] at hname
  have hu : u.cursor.rest = callChars shown :=
    (ensures_of_eq (Q := fun _ u => u.cursor.rest = callChars shown) hname).mp
      (Ensures.word_require hs fun _ _ _ _ hu => hu.rest_eq)
  obtain ⟨m, list', u', x, rfl, hm, hu', hlist'⟩ := exists_call hself hlevel hextend hu
  obtain ⟨-, hchain⟩ := hgrown m rfl
  -- The call of the reference is the one that was read first.
  obtain ⟨role, rfl⟩ : ∃ role, call = { m with role } := by
    refine eq_of_extends_twice ?_ hchain ?_ hmember.children hcall.children ?_
    · simp [Node.is, hm.label]
    · rw [hmember.label, hm.label]
      decide
    · simp [Node.is, hcallee.label]
  obtain rfl : list' = list := by
    have hsame : [name, list'] = [callee, list] := hm.children.symm.trans hcall.children
    simpa using (List.cons.inj hsame).2
  obtain ⟨opening', argument, ns, y, z, hchildren, hy, hargument⟩ :=
    exists_argument hself hlist' hu' (.cons (by decide)) (by decide)
  obtain rfl : argument = literal := by
    have hsame := (List.cons.inj (hchildren.symm.trans hparts.children)).2
    exact (List.cons.inj hsame).1
  obtain ⟨z', hoperand⟩ := operand_of_string (reads_derive depth) hargument hstring
  refine ⟨y, z', ?_, hy⟩
  rw [operand, rest_bind, hy] at hoperand
  have hquoted : Parser.string y = .done argument z' := hoperand
  rw [Parser.string, rest_bind, hy] at hquoted
  exact hquoted

end Grammar

variable {shown : List Char} {literal : Node} {p : Program}

/-- A reference that is read from the text of a reference around some characters, and whose string stands
for them, is one around characters that stand for themselves. -/
theorem isPlain_of_reference (h : Program.ofText v (String.ofList (referenceChars shown)) = .ok p)
    (hp : IsReference literal p.root) (hliteral : Literal.decodeString literal = String.ofList shown) :
    '\x00' ∉ shown ∧ ∀ c ∈ shown, isPlain '\'' c = true := by
  obtain ⟨t, hread⟩ := readProgram_of_ofText h
  rw [String.toList_ofList, readProgram] at hread
  split at hread
  · cases hread
  rename_i hnul
  obtain ⟨statement, hroot, access, hstatement, haccess⟩ := hp
  obtain ⟨n, ns, u, x, hfirst, hu, hword⟩ := exists_wordStatement isWord_require rfl hread
  obtain rfl : n = statement := (List.cons.inj (hfirst.symm.trans hroot.children)).1
  rw [wordStatement_require hu] at hword
  obtain ⟨first, ms, y, hfirst', hsequence⟩ := exists_sequence hword
  obtain rfl : first = access := (List.cons.inj (hfirst'.symm.trans hstatement.children)).1
  have hmember : first.is .sequenceExpression = false := by
    obtain ⟨call, dot, property, hmember, -⟩ := haccess
    simp [Node.is, hmember.label]
  obtain ⟨z, hexpression⟩ := expression_of_sequence hsequence hmember
  obtain ⟨w, w', hquoted, hw⟩ := exists_quoted (Nat.zero_le _) hexpression hu haccess
  refine ⟨?_, Literal.isPlain_of_quoted hquoted hw (by decide) hliteral⟩
  simp only [referenceChars, callChars, List.mem_append, List.mem_cons, not_or] at hnul
  exact hnul.2.2.2.1

/-- Characters that do not stand for themselves between single quotes, or in no program at all. -/
def unquotable : List Char := ['\'', '\\', '\n', '\r', '\x00']

/-- The text of a reference around some characters is a reference for a string that stands for them
exactly when none of them is unquotable, in every variant. -/
theorem ofText_reference_iff (v : Variant) (shown : List Char) :
    (∃ p literal, Program.ofText v (String.ofList (referenceChars shown)) = .ok p ∧
      IsReference literal p.root ∧
      Literal.decodeString literal = String.ofList shown) ↔ ∀ c ∈ shown, c ∉ unquotable := by
  have hplain : ∀ c, c ∉ unquotable ↔ c ≠ '\x00' ∧ isPlain '\'' c = true := fun c => by
    simp only [unquotable, isPlain, List.mem_cons, List.not_mem_nil, or_false, not_or, Bool.and_eq_true,
      decide_eq_true_eq]
    tauto
  have hnul : '\x00' ∉ shown ↔ ∀ c ∈ shown, c ≠ '\x00' :=
    ⟨fun h c hc hnul => h (hnul ▸ hc), fun h hmem => h _ hmem rfl⟩
  simp only [hplain]
  constructor
  · rintro ⟨p, literal, hp, hreference, hliteral⟩
    obtain ⟨hmem, hshown⟩ := isPlain_of_reference hp hreference hliteral
    exact fun c hc => ⟨hnul.mp hmem c hc, hshown c hc⟩
  · exact fun h => ofText_reference v (fun c hc => (h c hc).2) (hnul.mpr fun c hc => (h c hc).1)

end StoryManifest.Source
