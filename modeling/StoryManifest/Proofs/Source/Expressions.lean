import StoryManifest.Proofs.Literal.Evaluation
import StoryManifest.Source.Grammar.Statement

/-!
The grammar reads written values. Where a value may end, no operator takes in what was read, so an
expression is its first operand; by induction over the value, its text is read as a literal of it.
-/

namespace StoryManifest.Source

open Source.Parser Source.Grammar
open Literal (IsLiteral IsMember)

variable {v : Variant} {g : Grammar} {setting : Setting} {s : State}

/-! ### Nothing is taken in -/

theorem Parser.Stops.afterTrivia_eq {cs : List Char} (h : Stops cs) :
    ∃ c rest, afterTrivia cs = c :: rest ∧ c ∈ [',', ']', '\x7d', ';'] := by
  obtain ⟨bs, c, rest, hb, hc, rfl⟩ := h
  exact ⟨c, rest, afterTrivia_append hb (.stop hc rest), hc⟩

/-- The closing bracket of arguments, and what may come where a value may end. -/
def inertChars : List Char := [')', ',', ']', '\x7d', ';']

theorem mem_inertChars_of_stop {c : Char} (hc : c ∈ [',', ']', '\x7d', ';']) : c ∈ inertChars :=
  List.mem_cons_of_mem _ hc

theorem operatorOf_inert {c : Char} (hc : c ∈ inertChars) (cs : List Char) : operatorOf (c :: cs) = "" := by
  simp only [inertChars, List.mem_cons, List.not_mem_nil, or_false] at hc
  rcases hc with rfl | rfl | rfl | rfl | rfl <;> rfl

theorem startsWord_inert {c : Char} (hc : c ∈ inertChars) (cs : List Char) :
    startsWord (c :: cs) = false := by
  simp only [inertChars, List.mem_cons, List.not_mem_nil, or_false] at hc
  rcases hc with rfl | rfl | rfl | rfl | rfl <;> rfl

/-- What no operator and no word starts with makes no larger expression of an operand. -/
theorem Ensures.extend_inert {left : Node} {c : Char} {rest : List Char} {Q : Option Node → State → Prop}
    (hc : c ∈ inertChars) (htrivia : afterTrivia s.cursor.rest = c :: rest) (hQ : Q none s) :
    Ensures (extend v g setting left) s Q := by
  have hoperator := operatorOf_inert hc rest
  have hword := startsWord_inert hc rest
  have hlevel : binaryLevels.lookup "" = none := by decide
  have hsign : Ensures (extendBySign v g setting left (c :: rest)) s Q := by
    simpa [extendBySign, hoperator, augmentedOperators, hlevel] using hQ
  simp only [inertChars, List.mem_cons, List.not_mem_nil, or_false] at hc
  rw [extend, ensures_bind, ensures_rest]
  split
  · exact (ensures_pure none).mpr hQ
  · rw [htrivia]
    rcases hc with rfl | rfl | rfl | rfl | rfl <;> simpa [opensChoice, hword] using hsign

/-- Where a value may end, nothing makes a larger expression of it. -/
theorem Ensures.extend_stop {left : Node} {Q : Option Node → State → Prop}
    (hs : Stops s.cursor.rest) (hQ : Q none s) : Ensures (extend v g setting left) s Q := by
  obtain ⟨c, rest, htrivia, hc⟩ := hs.afterTrivia_eq
  exact Ensures.extend_inert (mem_inertChars_of_stop hc) htrivia hQ

/-- An operand is a whole expression where a value may end. -/
theorem Ensures.expression {Q : Node → State → Prop}
    (h : Ensures (operand v g setting) s fun n t => Stops t.cursor.rest ∧ Q n t) :
    Ensures (expression v g setting) s Q := by
  rw [Grammar.expression, ensures_bind]
  refine h.mono fun n t ht => ?_
  exact Ensures.iterate (Ensures.extend_stop ht.1 ⟨rfl, ht.2⟩)

/-- A literal that no equals sign follows is no target of an assignment. -/
theorem Ensures.literalOrTarget {literal target : Parser Node} {Q : Node → State → Prop}
    (h : Ensures literal s fun n t => Stops t.cursor.rest ∧ Q n t) :
    Ensures (literalOrTarget g setting literal target) s Q := by
  simp only [Grammar.literalOrTarget, ensures_bind, ensures_here]
  refine Ensures.attempt (h.mono fun n t ht => ?_)
  obtain ⟨c, rest, htrivia, hc⟩ := ht.1.afterTrivia_eq
  simpa [seesAssign, ahead, htrivia, operatorOf_inert (mem_inertChars_of_stop hc)] using ht.2

/-! ### Operands by their first character -/

section

variable {Q : Node → State → Prop} {cs : List Char}

theorem Ensures.operand_quote {quote : Char} (hquote : quote ∈ quoteChars) (hs : s.cursor.rest = quote :: cs)
    (h : Ensures Parser.string s Q) : Ensures (operand v g setting) s Q := by
  simp only [quoteChars, List.mem_cons, List.not_mem_nil, or_false] at hquote
  rcases hquote with rfl | rfl <;> simpa [operand, hs] using h

theorem Ensures.operand_digit {d : Char} (hd : isDigit d = true) (hs : s.cursor.rest = d :: cs)
    (h : Ensures Parser.number s Q) : Ensures (operand v g setting) s Q := by
  have hne : ∀ c : Char, isDigit c = false → d ≠ c := fun c hc h' => by rw [h', hc] at hd; cases hd
  simpa [operand, hs, hd, hne '"' (by decide), hne '\'' (by decide)] using h

theorem Ensures.operand_bracket (hs : s.cursor.rest = '[' :: cs)
    (h : Ensures (Grammar.literalOrTarget g setting (array g) (arrayPattern g)) s Q) :
    Ensures (operand v g setting) s Q := by
  have hdigit : isDigit '[' = false := by decide
  simpa [operand, hs, hdigit] using h

theorem Ensures.operand_brace (hs : s.cursor.rest = '\x7b' :: cs)
    (h : Ensures (Grammar.literalOrTarget g setting (object v g) (objectPattern g)) s Q) :
    Ensures (operand v g setting) s Q := by
  have hdigit : isDigit '\x7b' = false := by decide
  simpa [operand, hs, hdigit] using h

theorem Ensures.operand_sign (sign : Literal.Sign) {d : Char} (hd : d ≠ sign.char)
    (hs : s.cursor.rest = sign.char :: d :: cs)
    (h : Ensures (unary g setting (exactly (String.singleton sign.char))) s Q) :
    Ensures (operand v g setting) s Q := by
  have hdigit : isDigit sign.char = false := by cases sign <;> decide
  have hne : sign.char ∉ ['"', '\'', '.', '[', '\x7b', '(', '\x60', '/', '<'] := by cases sign <;> decide
  have hsign : sign.char = '+' ∨ sign.char = '-' := by cases sign <;> simp [Literal.Sign.char]
  simp only [List.mem_cons, List.not_mem_nil, or_false, not_or] at hne
  simpa [operand, hs, hdigit, hd, hne, hsign] using h

/-- A word for a fixed value is read as a leaf of its kind. -/
theorem Ensures.operand_word {c : Char} {w rest : List Char} {kind : Kind} (hw : IsWord (c :: w))
    (hkind : fixedWord? (String.ofList (c :: w)) = some kind)
    (hs : s.cursor.rest = (c :: w) ++ rest) (hrest : Stops rest)
    (hQ : ∀ stop t, Moves s t rest s.made →
      Q (.leaf (.named kind) s.cursor.place stop (String.ofList (c :: w))) t) :
    Ensures (operand v g setting) s Q := by
  obtain ⟨d, ds, rfl, hd⟩ := hrest.exists_cons
  have hword := wordOf_append hw (endsWord_stop hd) ds
  obtain ⟨hpart, hdigit⟩ := hw.head
  have hne : c ∉ ['"', '\'', '.', '[', '\x7b', '(', '\x60', '/', '<', '+', '-', '!', '~', '#', '@'] :=
    notMem_of_isWordPart hpart (by decide)
  simp only [List.mem_cons, List.not_mem_nil, or_false, not_or] at hne
  have hoperand : Ensures (wordOperand v g setting) s Q := by
    rw [wordOperand, ensures_bind, ensures_rest, hs, hword]
    simp only [hkind]
    exact Ensures.word hw (endsWord_stop hd) hs hQ
  rw [List.cons_append] at hs
  simpa [operand, hs, hdigit, hne] using hoperand

end

/-! ### Items -/

/-- An expression is read as a literal of a value wherever a value may end after it, whatever else an
expression may take in there. -/
structure ReadsLiteral (g : Grammar) (text : List Char) (x : Value) : Prop where
  starts : Starts text
  apply : ∀ (setting : Setting) {s : State} {rest : List Char}, s.cursor.rest = text ++ rest →
    Stops rest → Ensures (g (.expression setting)) s fun n t =>
      IsLiteral x n ∧ n.start = s.cursor.place ∧ Moves s t rest s.made

theorem Ensures.sees_dots {Q : Bool → State → Prop} {text rest : List Char} (ht : Starts text)
    (hs : s.cursor.rest = text ++ rest) (hQ : Q false s) : Ensures (sees "...") s Q := by
  obtain ⟨c, cs, rfl, hc⟩ := ht.head
  have hs' : s.cursor.rest = [] ++ (c :: cs ++ rest) := hs
  refine Ensures.sees hs' Blanks.nil (ht.fresh rest) ?_
  have hdot : ('.' == c) = false := by
    rw [beq_eq_false_iff_ne]
    exact fun h => hc (h ▸ by decide)
  have hdots : "...".toList = ['.', '.', '.'] := rfl
  simpa [hdots, List.isPrefixOf, hdot] using hQ

/-- An element of an array is a literal. -/
theorem ReadsLiteral.readsItem_spreadOr {text : List Char} {x : Value} (h : ReadsLiteral g text x) :
    ReadsItem (spreadOr g) text (IsLiteral x) where
  starts := h.starts
  apply {s rest} hs hrest := by
    rw [spreadOr, ensures_bind]
    refine Ensures.sees_dots h.starts hs ?_
    rw [if_neg (by decide), add, ensures_bind]
    refine Ensures.wideGap_none hs (h.starts.fresh rest) fun t ht => ?_
    rw [ensures_bind]
    refine (h.apply { } ht.rest_eq hrest).mono fun n u hu => ?_
    obtain ⟨hn, -, hmoves⟩ := hu
    have hmade : u.made = s.made := by rw [hmoves.made_eq, ht.made_eq]
    exact (ensures_push n).mpr ⟨n, hn, hmoves.rest_eq, congrArg (n :: ·) hmade, (ht.trans hmoves).byte_le⟩

/-- A node is the name of a member. -/
structure IsName (k : String) (n : Node) : Prop where
  key : Literal.propertyKey n = .named k
  sound : n.hasFault = false

/-- A pair of a name and a literal. -/
theorem entryOf?_pair {k : String} {name colon value : Node} {place : Place} (hname : IsName k name)
    (hcolon : IsMark ":" colon) :
    Literal.entryOf? (build .pair place [name.inRole .key, colon, value.inRole .value]) =
      some ⟨.named k, value.inRole .value⟩ := by
  obtain ⟨start, stop, rfl⟩ := hcolon
  have hkey : Literal.propertyKey (name.inRole .key) = .named k := hname.key
  have hfirst : Node.child? .key (build .pair place
      [name.inRole .key, .leaf (.token ":") start stop ":", value.inRole .value]) =
        some (name.inRole .key) := rfl
  have hlast : Node.child? .value (build .pair place
      [name.inRole .key, .leaf (.token ":") start stop ":", value.inRole .value]) =
        some (value.inRole .value) := rfl
  rw [← hkey]
  simp only [Literal.entryOf?, hfirst, hlast]
  rfl

/-- A member of an object literal whose name is followed by a colon and a literal. -/
theorem Ensures.member {k : String} {text bs rest : List Char} {x : Value} {Q : Unit → State → Prop}
    {cs : List Char}
    (hstart : Starts cs) (hs : s.cursor.rest = cs ++ ':' :: (bs ++ (text ++ rest))) (hb : Blanks bs)
    (hmodifier : isModifier v s.cursor.rest = false) (hstar : s.cursor.rest.head? ≠ some '*')
    (hname : Ensures (propertyName g) s fun n t =>
      IsName k n ∧ Moves s t (':' :: (bs ++ (text ++ rest))) s.made)
    (hvalue : ReadsLiteral g text x) (hrest : Stops rest)
    (hQ : ∀ n value t, n.isNamed = true → n.hasFault = false →
      Literal.entryOf? n = some ⟨.named k, value⟩ → IsLiteral x value →
      s.cursor.place.byte ≤ value.start.byte → value.start.byte ≤ t.cursor.place.byte →
      Moves s t rest (n :: s.made) → Q () t) :
    Ensures (member v g) s Q := by
  have hstar' : ¬(isModifier v s.cursor.rest || s.cursor.rest.head? = some '*') = true := by
    simp [hmodifier, hstar]
  rw [Grammar.member, ensures_bind, ensures_rest, ensures_bind]
  refine Ensures.sees_dots hstart hs ?_
  rw [if_neg (by decide), if_neg hstar', ensures_bind, namedMember, ensures_bind]
  refine hname.mono fun name t hnt => ?_
  obtain ⟨hn, ht⟩ := hnt
  have hfresh : Fresh (':' :: (bs ++ (text ++ rest))) := .cons (by decide)
  have ht' : t.cursor.rest = [] ++ (":".toList ++ (bs ++ (text ++ rest))) := ht.rest_eq
  rw [ensures_bind]
  refine Ensures.sees_char (show ":".toList = [':'] from rfl) ht' Blanks.nil hfresh ?_
  rw [if_pos (by decide)]
  refine Ensures.node ?_
  rw [ensures_bind, ensures_push, ensures_bind]
  refine Ensures.mark ht' Blanks.nil hfresh fun stop u hu => ?_
  rw [field, ensures_bind]
  refine Ensures.wideGap hu.rest_eq hb (hvalue.starts.fresh rest) fun w hw => ?_
  rw [ensures_bind]
  refine (hvalue.apply { } hw.rest_eq hrest).mono fun value z hz => ?_
  obtain ⟨hx, hplace, hz⟩ := hz
  rw [ensures_push, ensures_push]
  obtain ⟨colon, hcolon, hmade⟩ : ∃ colon, IsMark ":" colon ∧
      z.made = [colon, name.inRole .key] := by
    rw [hz.made_eq, hw.made_eq, hu.made_eq]
    exact ⟨_, ⟨_, _, rfl⟩, rfl⟩
  have hbyte : s.cursor.place.byte ≤ w.cursor.place.byte :=
    Nat.le_trans ht.byte_le (Nat.le_trans hu.byte_le hw.byte_le)
  have hvalue' := hx.inRole .value
  have hplace' : (value.inRole .value).start = w.cursor.place := hplace
  simp only [hmade, List.reverse_cons, List.reverse_nil, List.nil_append, List.cons_append]
  refine hQ _ _ _ rfl ?_ (entryOf?_pair hn hcolon) hvalue' (hplace' ▸ hbyte) (hplace' ▸ hz.byte_le)
    ⟨hz.rest_eq, congrArg (_ :: ·) ht.made_eq, Nat.le_trans hbyte hz.byte_le⟩
  have hname' : (name.inRole .key).hasFault = false := by
    rw [← hn.sound]
    exact hasFault_inRole .key name
  simp [hasFault_build, Node.anyFault, hname', hcolon.hasFault, hvalue'.sound]

theorem isName_of_isString {k : String} {n : Node} (h : IsString k n) : IsName k n := by
  obtain ⟨⟨place, children, rfl⟩, htext, hsound⟩ := h
  exact ⟨by rw [← htext]; rfl, hsound⟩

theorem isModifier_quote (cs : List Char) : isModifier v ('"' :: cs) = false := by
  have hword : wordOf ('"' :: cs) = "" := rfl
  have hnone : "" ∉ methodModifiers v := by cases v <;> decide
  simp [isModifier, hword, hnone]

theorem starts_quote {quote : Char} (hquote : quote ∈ quoteChars) (cs : List Char) :
    Starts (quote :: cs) := by
  simp only [quoteChars, List.mem_cons, List.not_mem_nil, or_false] at hquote
  rcases hquote with rfl | rfl <;> exact ⟨fun _ => .cons (by decide), _, _, rfl, by decide⟩

section

variable {text cs : List Char} {Q : Node → State → Prop}

theorem Ensures.propertyName_quote {quote : Char} (hquote : quote ∈ quoteChars)
    (hs : s.cursor.rest = quote :: cs)
    (h : Ensures Parser.string s Q) : Ensures (propertyName g) s Q := by
  simp only [quoteChars, List.mem_cons, List.not_mem_nil, or_false] at hquote
  rcases hquote with rfl | rfl <;> simpa [propertyName, hs] using h

theorem Ensures.propertyName_word (hw : IsWord text) (hs : s.cursor.rest = text ++ ':' :: cs)
    (hQ : ∀ stop t, Moves s t (':' :: cs) s.made →
      Q (.leaf (.named .propertyIdentifier) s.cursor.place stop (String.ofList text)) t) :
    Ensures (propertyName g) s Q := by
  have hword := Ensures.word hw (endsWord_stop (by decide)) hs hQ
  cases text with
  | nil => exact absurd hw (by decide)
  | cons c w =>
    obtain ⟨hpart, hdigit⟩ := hw.head
    have hne : c ∉ ['"', '\'', '.', '[', '#'] := notMem_of_isWordPart hpart (by decide)
    simp only [List.mem_cons, List.not_mem_nil, or_false, not_or] at hne
    rw [List.cons_append] at hs
    simpa [propertyName, hs, hdigit, hne] using hword

theorem Ensures.propertyName_numeral (h : IsNumeral text) (hs : s.cursor.rest = text ++ ':' :: cs)
    (hQ : ∀ stop t, Moves s t (':' :: cs) s.made →
      Q (.leaf (.named .number) s.cursor.place stop (String.ofList text)) t) :
    Ensures (propertyName g) s Q := by
  have hnumber := Ensures.number h (by decide) hs hQ
  obtain ⟨d, ds, rfl, hdigit⟩ := h.head
  have hne : ∀ c : Char, isDigit c = false → d ≠ c := fun c hc h' => by rw [h', hc] at hdigit; cases hdigit
  rw [List.cons_append] at hs
  simpa [propertyName, hs, hdigit, hne '"' (by decide), hne '\'' (by decide)] using hnumber

end

/-- A member as it is written is a member. -/
theorem ReadsLiteral.readsItem_member {k : String} {text : List Char} {x : Value}
    (h : ReadsLiteral g text x) (sp : Json.Spacing) :
    ReadsItem (Grammar.member v g) (Json.memberChars sp k text) (IsMember k x) where
  starts := starts_quote (by decide) _
  apply {s rest} hs hrest := by
    rw [Json.memberChars, List.append_assoc, List.cons_append, List.append_assoc] at hs
    have hs' : s.cursor.rest = '"' :: (k.toList.flatMap Json.escape ++ ['"'] ++
        ':' :: (sp.gap ++ (text ++ rest))) := by rw [hs]; simp [Json.quoted]
    have hstart : Starts (Json.quoted k) := starts_quote (by decide) _
    have hname : Ensures (propertyName g) s fun n t =>
        IsName k n ∧ Moves s t (':' :: (sp.gap ++ (text ++ rest))) s.made :=
      Ensures.propertyName_quote (by decide) hs'
        (Ensures.string hs fun n t hn _ ht => ⟨isName_of_isString hn, ht⟩)
    refine Ensures.member hstart hs (blanks_gap sp) (by rw [hs', isModifier_quote]) (by simp [hs'])
      hname h hrest ?_
    intro n value t hnamed hsound hentry hvalue _ _ ht
    exact ⟨n, ⟨hnamed, hsound, value, hentry, hvalue⟩, ht⟩

/-! ### Values -/

theorem ReadsLiteral.of_operand {fuel : Nat} {text : List Char} {x : Value} (hstart : Starts text)
    (h : ∀ (setting : Setting) {s : State} {rest : List Char}, s.cursor.rest = text ++ rest →
      Stops rest → Ensures (operand v (derive v fuel) setting) s fun n t =>
        IsLiteral x n ∧ n.start = s.cursor.place ∧ Moves s t rest s.made) :
    ReadsLiteral (derive v (fuel + 1)) text x where
  starts := hstart
  apply setting {s rest} hs hrest := by
    refine Ensures.expression ((h setting hs hrest).mono fun n t hn => ⟨?_, hn⟩)
    rw [hn.2.2.rest_eq]
    exact hrest

theorem readsLiteral_null (fuel : Nat) : ReadsLiteral (derive v (fuel + 1)) ['n', 'u', 'l', 'l'] .null :=
  .of_operand ⟨fun _ => .cons (by decide), _, _, rfl, by decide⟩
    fun _ _ _ hs hrest => Ensures.operand_word (by decide) rfl hs hrest fun stop t ht =>
      ⟨Literal.isLiteral_null _ stop, rfl, ht⟩

theorem readsLiteral_bool (fuel : Nat) (sp : Json.Spacing) (depth : Nat) (b : Bool) :
    ReadsLiteral (derive v (fuel + 1)) (Json.chars sp depth (.bool b)) (.bool b) := by
  cases b with
  | true =>
    exact .of_operand ⟨fun _ => .cons (by decide), _, _, rfl, by decide⟩
      fun _ _ _ hs hrest => Ensures.operand_word (by decide) rfl hs hrest fun stop t ht =>
        ⟨Literal.isLiteral_true _ stop, rfl, ht⟩
  | false =>
    exact .of_operand ⟨fun _ => .cons (by decide), _, _, rfl, by decide⟩
      fun _ _ _ hs hrest => Ensures.operand_word (by decide) rfl hs hrest fun stop t ht =>
        ⟨Literal.isLiteral_false _ stop, rfl, ht⟩

/-- Quotes with characters and escapes between them are a literal of the text of their units. -/
theorem readsLiteral_quoted {quote : Char} {cs : List Char} {us : List Nat} (hquote : quote ∈ quoteChars)
    (h : Body quote quote cs us) (fuel : Nat) : ReadsLiteral (derive v (fuel + 1)) (quote :: (cs ++ [quote]))
      (.text (String.ofList (Text.Utf16.ofUnits us))) :=
  .of_operand (starts_quote hquote _) fun _ s rest hs _ => by
    have hs' : s.cursor.rest = quote :: (cs ++ quote :: rest) := by simpa using hs
    exact Ensures.operand_quote hquote hs' (Ensures.quoted hquote h hs' fun n t hn hplace ht =>
      ⟨Literal.isLiteral_text hn, hplace, ht⟩)

theorem readsLiteral_text (fuel : Nat) (text : String) :
    ReadsLiteral (derive v (fuel + 1)) (Json.quoted text) (.text text) := by
  have h := readsLiteral_quoted (v := v) (by decide) (body_escape text.toList) fuel
  rwa [Text.Utf16.ofUnits_units, String.ofList_toList] at h

theorem IsNumeral.starts {text : List Char} (h : IsNumeral text) : Starts text := by
  obtain ⟨d, ds, rfl, hdigit⟩ := h.head
  obtain ⟨hblank, hne⟩ := digit_starts hdigit
  simp only [List.mem_cons, List.not_mem_nil, or_false, not_or] at hne
  exact ⟨fun _ => .cons ⟨hblank, by simp [hne]⟩, d, ds, rfl, by simp [hne]⟩

theorem Ensures.operand_numeral {text rest : List Char} {Q : Node → State → Prop} (h : IsNumeral text)
    (hs : s.cursor.rest = text ++ rest) (hrest : Stops rest)
    (hQ : ∀ stop t, Moves s t rest s.made →
      Q (.leaf (.named .number) s.cursor.place stop (String.ofList text)) t) :
    Ensures (operand v g setting) s Q := by
  obtain ⟨d, ds, hd, hdigit⟩ := h.head
  obtain ⟨c, cs, rfl, hc⟩ := hrest.exists_cons
  have hs' : s.cursor.rest = d :: (ds ++ c :: cs) := by rw [hs, hd]; rfl
  exact Ensures.operand_digit hdigit hs' (Ensures.number h hc hs hQ)

section

variable {text : List Char} {m : Number} (h : IsNumeral text)
  (hvalue : Literal.parseNumber? (String.ofList text) = some m)

include h hvalue

theorem readsLiteral_numeral (fuel : Nat) : ReadsLiteral (derive v (fuel + 1)) text (.number m) :=
  .of_operand h.starts fun _ _ _ hs hrest => Ensures.operand_numeral h hs hrest fun stop _ ht =>
    ⟨Literal.isLiteral_number hvalue _ stop, rfl, ht⟩

/-- A sign and the numeral after it are one expression with two levels of rules. -/
theorem readsLiteral_signed (sign : Literal.Sign) (fuel : Nat) :
    ReadsLiteral (derive v (fuel + 2)) (sign.char :: text) (.number (sign.apply m)) := by
  obtain ⟨d, ds, hd, hdigit⟩ := h.head
  obtain ⟨-, hne⟩ := digit_starts hdigit
  have hsign : d ≠ sign.char := by
    rintro rfl
    cases sign <;> exact absurd hdigit (by decide)
  simp only [List.mem_cons, List.not_mem_nil, or_false, not_or] at hne
  have hstart : Starts (sign.char :: text) := by
    rw [hd]
    cases sign with
    | plus => exact ⟨fun _ => .cons (by decide), _, _, rfl, by decide⟩
    | minus =>
      refine ⟨fun _ => ⟨by simp [Literal.Sign.char, show isBlank '-' = false by decide], rfl, ?_⟩, _, _, rfl,
        by decide⟩
      simp [Literal.Sign.char, htmlCommentLength?, hne]
  refine .of_operand hstart fun setting {s rest} hs hrest => ?_
  have hs' : s.cursor.rest = sign.char :: d :: (ds ++ rest) := by rw [hs, hd]; rfl
  refine Ensures.operand_sign sign hsign hs' ?_
  rw [unary]
  refine Ensures.node ?_
  rw [ensures_bind]
  have htoken : s.cursor.rest = (String.singleton sign.char).toList ++ (text ++ rest) := by
    rw [hs, String.toList_singleton]
    rfl
  refine Ensures.exactly (s := { s with made := [] }) htoken fun stop t ht => ?_
  rw [ensures_bind, ensures_push, field, ensures_bind]
  refine Ensures.wideGap_none ht.rest_eq (h.starts.fresh rest) fun u hu => ?_
  rw [ensures_bind]
  refine Ensures.expression (Ensures.operand_numeral h hu.rest_eq hrest fun stop' w hw => ?_)
  rw [ensures_push]
  have hbyte : s.cursor.place.byte ≤ w.cursor.place.byte :=
    Nat.le_trans ht.byte_le (Nat.le_trans hu.byte_le hw.byte_le)
  have hmade : w.made = [(Node.leaf (.token (String.singleton sign.char)) s.cursor.place stop
      (String.singleton sign.char)).inRole .operator] := by
    rw [hw.made_eq, hu.made_eq]
    exact congrArg (_ :: ·) ht.made_eq
  refine ⟨by rw [hw.rest_eq]; exact hrest, ?_, ?_, hw.rest_eq, rfl, hbyte⟩
  · rw [hmade]
    exact Literal.isLiteral_signed sign hvalue ⟨_, stop', rfl⟩ _ _ stop
  · rw [hmade]
    rfl

end

theorem readsLiteral_integer (fuel : Nat) {n : Int} (h : n.natAbs ≤ Number.safeBound) :
    ReadsLiteral (derive v (fuel + 2)) (Number.integer n).text.toList (.number (.integer n)) := by
  rcases Int.lt_or_le n 0 with hneg | hpos
  · obtain ⟨m, rfl⟩ : ∃ m : Nat, n = -(m : Int) := ⟨n.natAbs, by omega⟩
    rw [Digits.toList_text_neg (by omega)]
    exact readsLiteral_signed (isNumeral_ofNat m) (Literal.parseNumber?_ofNat (by simpa using h)) .minus fuel
  · obtain ⟨m, rfl⟩ : ∃ m : Nat, n = m := ⟨n.toNat, by omega⟩
    rw [Digits.toList_text_natCast]
    exact readsLiteral_numeral (isNumeral_ofNat m) (Literal.parseNumber?_ofNat (by simpa using h)) (fuel + 1)

theorem starts_row (sp : Json.Spacing) (depth : Nat) {opening : Char} (closing : Char)
    (texts : List (List Char)) (hopening : opening ∈ ['[', '\x7b']) :
    Starts (Json.row sp depth opening closing texts) := by
  simp only [List.mem_cons, List.not_mem_nil, or_false] at hopening
  rcases hopening with rfl | rfl <;>
    exact ⟨fun _ => .cons (by decide), _, _, rfl, by decide⟩

theorem readsLiteral_list (fuel : Nat) (sp : Json.Spacing) (depth : Nat) {texts : List (List Char)}
    {items : List Value} (h : List.Forall₂ (ReadsLiteral (derive v fuel)) texts items) :
    ReadsLiteral (derive v (fuel + 1)) (Json.row sp depth '[' ']' texts) (.list items) := by
  refine .of_operand (starts_row sp depth ']' texts (by simp)) fun setting {s rest} hs hrest => ?_
  have hitems : List.Forall₂ (fun text x => ReadsItem (spreadOr (derive v fuel)) text (IsLiteral x))
      texts items := h.imp fun _ _ hx => hx.readsItem_spreadOr
  refine Ensures.operand_bracket hs (Ensures.literalOrTarget ?_)
  rw [array]
  refine Ensures.node ?_
  refine Ensures.bracketed (show "[".toList = ['['] from rfl) (by simp)
    (show "]".toList = [']'] from rfl) (by simp) hs (spaced_rowBody sp depth ']' texts) hitems ?_
  intro stop ms ns t hrow hns ht
  have hmade : t.made.reverse = .leaf (.token "[") s.cursor.place stop "[" :: ms := by simp [ht.made_eq]
  rw [hmade]
  refine ⟨by rw [ht.rest_eq]; exact hrest, ?_, rfl, ht.rest_eq, rfl, ht.byte_le⟩
  exact Literal.isLiteral_list _ ⟨_, _, rfl⟩ hrow hns

/-- An object literal is read member by member. -/
theorem Ensures.object {α : Type} {R : α → Node → Prop} {texts : List (List Char)} {chars rest : List Char}
    {as : List α} {Q : Node → State → Prop} (hs : s.cursor.rest = '\x7b' :: (chars ++ rest))
    (hchars : Spaced '\x7d' texts chars)
    (hmembers : List.Forall₂ (fun text a => ReadsItem (Grammar.member v g) text (R a)) texts as)
    (hQ : ∀ stop ms ns t, Row "\x7d" ns ms → List.Forall₂ R as ns → Moves s t rest s.made →
      Q (build .object s.cursor.place (.leaf (.token "\x7b") s.cursor.place stop "\x7b" :: ms)) t) :
    Ensures (object v g) s Q := by
  rw [Grammar.object]
  refine Ensures.node ?_
  refine Ensures.bracketed (show "\x7b".toList = ['\x7b'] from rfl) (by simp)
    (show "\x7d".toList = ['\x7d'] from rfl) (by simp) hs hchars hmembers fun stop ms ns t hrow hns ht => ?_
  have hmade : t.made.reverse = .leaf (.token "\x7b") s.cursor.place stop "\x7b" :: ms := by
    simp [ht.made_eq]
  rw [hmade]
  exact hQ stop ms ns _ hrow hns ⟨ht.rest_eq, rfl, ht.byte_le⟩

theorem readsLiteral_record (fuel : Nat) (sp : Json.Spacing) (depth : Nat) {texts : List (List Char)}
    {fields : Fields Value} (hkeys : fields.keys.Nodup)
    (h : List.Forall₂ (fun text f => ReadsItem (Grammar.member v (derive v fuel)) text (IsMember f.1 f.2))
      texts fields) :
    ReadsLiteral (derive v (fuel + 1)) (Json.row sp depth '\x7b' '\x7d' texts) (.record fields) := by
  refine .of_operand (starts_row sp depth '\x7d' texts (by simp)) fun setting {s rest} hs hrest => ?_
  refine Ensures.operand_brace hs (Ensures.literalOrTarget ?_)
  refine Ensures.object hs (spaced_rowBody sp depth '\x7d' texts) h fun stop ms ns t hrow hns ht => ?_
  refine ⟨by rw [ht.rest_eq]; exact hrest, ?_, rfl, ht⟩
  exact Literal.isLiteral_record _ hkeys ⟨_, _, rfl⟩ hrow hns

/-- An integer small enough for every whole number up to it to be a 64-bit number of its own. -/
def FitsReal (n : Int) : Prop := n.natAbs ≤ Number.safeBound

instance (n : Int) : Decidable (FitsReal n) := inferInstanceAs (Decidable (_ ≤ _))

/-- The text of a plain value is read as a literal of it when its brackets may be opened. -/
theorem readsLiteral_chars (sp : Json.Spacing) {x : Value} (h : x.Plain FitsReal) :
    ∀ depth fuel : Nat, x.nesting + 2 ≤ fuel →
      ReadsLiteral (derive v fuel) (Json.chars sp depth x) x := by
  have hsucc : ∀ {n fuel : Nat}, n + 2 ≤ fuel → ∃ f, fuel = f + 2 := fun {n fuel} h => ⟨fuel - 2, by omega⟩
  induction h with
  | null =>
    intro depth fuel hf
    obtain ⟨fuel, rfl⟩ := hsucc hf
    exact readsLiteral_null (fuel + 1)
  | bool b =>
    intro depth fuel hf
    obtain ⟨fuel, rfl⟩ := hsucc hf
    exact readsLiteral_bool (fuel + 1) sp depth b
  | number hn =>
    intro depth fuel hf
    obtain ⟨fuel, rfl⟩ := hsucc hf
    exact readsLiteral_integer fuel hn
  | text s =>
    intro depth fuel hf
    obtain ⟨fuel, rfl⟩ := hsucc hf
    exact readsLiteral_text (fuel + 1) s
  | @list items _ ih =>
    intro depth fuel hf
    rw [Value.nesting] at hf
    obtain ⟨fuel, rfl⟩ : ∃ f, fuel = f + 1 := ⟨fuel - 1, by omega⟩
    refine readsLiteral_list fuel sp depth ?_
    rw [Json.itemChars_eq, List.forall₂_map_left_iff, List.forall₂_same]
    intro y hy
    have := Value.nesting_le_ofItems hy
    exact ih y hy (depth + 1) fuel (by omega)
  | @record fields hkeys _ ih =>
    intro depth fuel hf
    rw [Value.nesting] at hf
    obtain ⟨fuel, rfl⟩ : ∃ f, fuel = f + 1 := ⟨fuel - 1, by omega⟩
    refine readsLiteral_record fuel sp depth hkeys ?_
    rw [Json.fieldChars_eq, List.forall₂_map_left_iff, List.forall₂_same]
    intro f hfield
    have := Value.nesting_le_ofFields hfield
    exact (ih f hfield (depth + 1) fuel (by omega)).readsItem_member sp

end StoryManifest.Source
