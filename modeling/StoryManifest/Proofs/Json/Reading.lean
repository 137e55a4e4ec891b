import Mathlib.Data.List.Forall2
import StoryManifest.Proofs.Digits
import StoryManifest.Proofs.Json.Text

/-!
Reading back what was written. A reader reads a text as a value when it returns the value and stops
behind the text, whatever blanks come before it and whatever end comes after it. Each written piece is
read as what it was written for, and so are rows of pieces between brackets.
-/

namespace StoryManifest.Json

/-! ### Blanks and ends -/

/-- Nothing but blanks. -/
def Blanks (bs : List Char) : Prop := ∀ b ∈ bs, isBlank b = true

theorem Blanks.nil : Blanks [] := fun _ hb => absurd hb List.not_mem_nil

theorem blanks_lead (sp : Spacing) (depth : Nat) : Blanks (sp.blanks depth) := by
  cases sp with
  | compact => exact Blanks.nil
  | indented =>
    intro b hb
    rw [Spacing.blanks_indented] at hb
    rcases List.mem_cons.mp hb with rfl | hb
    · rfl
    · rw [List.eq_of_mem_replicate hb]; rfl

theorem blanks_gap (sp : Spacing) : Blanks sp.gap := by
  cases sp with
  | compact => exact Blanks.nil
  | indented => intro b hb; rw [List.mem_singleton.mp hb]; rfl

theorem skipBlanks_append {bs : List Char} (h : Blanks bs) (cs : List Char) :
    skipBlanks (bs ++ cs) = skipBlanks cs := by
  induction bs with
  | nil => rfl
  | cons b bs ih =>
    have hb : isBlank b = true := h b (by simp)
    rw [List.cons_append, skipBlanks, List.dropWhile_cons_of_pos hb]
    exact ih fun c hc => h c (List.mem_cons_of_mem _ hc)

theorem skipBlanks_cons {c : Char} (h : isBlank c = false) (cs : List Char) :
    skipBlanks (c :: cs) = c :: cs := by
  rw [skipBlanks, List.dropWhile_cons_of_neg (by simp [h])]

/-- What follows a written piece: a comma, a closing bracket or a line end. -/
def Ends (cs : List Char) : Prop := ∃ c rest, cs = c :: rest ∧ c ∈ [',', ']', '\x7d', '\n']

theorem ends_rowTail (sp : Spacing) (depth : Nat) (closing : Char) (h : closing ∈ [']', '\x7d'])
    (items : List (List Char)) (rest : List Char) :
    Ends (rowTail sp depth closing items ++ rest) := by
  have hc : closing ∈ [',', ']', '\x7d', '\n'] := by
    rcases List.mem_cons.mp h with rfl | h
    · simp
    · rw [List.mem_singleton.mp h]; simp
  cases items with
  | nil =>
    cases sp with
    | compact => exact ⟨closing, rest, rfl, hc⟩
    | indented =>
      rw [rowTail, Spacing.blanks_indented]
      exact ⟨'\n', _, rfl, by simp⟩
  | cons item items => exact ⟨',', _, rfl, by simp⟩

/-- A text that starts like a value. -/
def Starts (text : List Char) : Prop := ∃ c cs, text = c :: cs ∧ isBlank c = false ∧ c ≠ ']'

/-- A reader reads a text as a value. -/
structure Reads {α : Type} (read : Reader α) (text : List Char) (a : α) : Prop where
  starts : Starts text
  apply : ∀ {bs rest : List Char}, Blanks bs → Ends rest →
    read (bs ++ (text ++ rest)) = .ok (a, rest)

theorem Reads.of_start {α : Type} {read : Reader α} {c : Char} {cs : List Char} {a : α}
    (hb : isBlank c = false) (hc : c ≠ ']')
    (h : ∀ {s rest : List Char}, Ends rest → skipBlanks s = c :: (cs ++ rest) → read s = .ok (a, rest)) :
    Reads read (c :: cs) a where
  starts := ⟨c, cs, rfl, hb, hc⟩
  apply hbs hr := h hr (by rw [skipBlanks_append hbs, List.cons_append, skipBlanks_cons hb])

/-! ### Strings -/

theorem hexValue?_hexDigit : ∀ n < 16, hexValue? (hexDigit n) = some n := by decide

theorem utf8Size_hexDigit : ∀ n < 16, (hexDigit n).utf8Size = 1 := by decide

theorem readUnicode_control {n : Nat} (h : n < 0x20) (cs : List Char) :
    readUnicode ('0' :: '0' :: hexDigit (n / 16) :: hexDigit (n % 16) :: cs) =
      .ok (Char.ofNat n, cs) := by
  have hbytes : hasBytes 4 ('0' :: '0' :: hexDigit (n / 16) :: hexDigit (n % 16) :: cs) = true := by
    have h₀ : '0'.utf8Size = 1 := rfl
    simp only [hasBytes, h₀, utf8Size_hexDigit (n / 16) (by omega)]
    rw [utf8Size_hexDigit (n % 16) (by omega)]
    simp [hasBytes]
  have h₀ : hexValue? '0' = some 0 := by decide
  have h₁ := hexValue?_hexDigit (n / 16) (by omega)
  have h₂ := hexValue?_hexDigit (n % 16) (by omega)
  have hn : n / 16 * 16 + n % 16 = n := by omega
  have hlow : Text.Utf16.isLow n = false := by simp [Text.Utf16.isLow]; omega
  have hhigh : Text.Utf16.isHigh n = false := by simp [Text.Utf16.isHigh]; omega
  simp [readUnicode, readHex4, hbytes, h₀, h₁, h₂, hn, hlow, hhigh, bind, Except.bind]

/-- Reading an escaped character gives the character. -/
theorem readQuoted_escape (fuel : Nat) (acc : List Char) (c : Char) (cs : List Char) :
    readQuoted (fuel + 1) acc (escape c ++ cs) = readQuoted fuel (c :: acc) cs := by
  unfold escape
  iterate 7
    split
    · rename_i h; subst h; rfl
  split
  · rename_i h
    simp [readQuoted, readUnicode_control h, bind, Except.bind]
  · rename_i hq hb _ _ _ _ _ h
    simp [readQuoted, hq, hb, h]

theorem readQuoted_flatMap (s : List Char) (rest : List Char) : ∀ (fuel : Nat) (acc : List Char),
    s.length < fuel →
    readQuoted fuel acc (s.flatMap escape ++ '"' :: rest) = .ok (acc.reverse ++ s, rest) := by
  induction s with
  | nil =>
    intro fuel acc h
    obtain ⟨fuel, rfl⟩ := Nat.exists_eq_add_of_lt h
    simp [readQuoted]
  | cons c s ih =>
    intro fuel acc h
    rw [List.length_cons] at h
    obtain ⟨fuel, rfl⟩ : ∃ f, fuel = f + 1 := ⟨fuel - 1, by omega⟩
    rw [List.flatMap_cons, List.append_assoc, readQuoted_escape, ih fuel (c :: acc) (by omega)]
    simp

theorem length_le_flatMap_escape (s : List Char) : s.length ≤ (s.flatMap escape).length := by
  induction s with
  | nil => simp
  | cons c s ih =>
    have hc : 1 ≤ (escape c).length := by unfold escape; (repeat' split) <;> simp
    rw [List.flatMap_cons, List.length_append, List.length_cons]
    omega

theorem readStringBody_append (s : String) (rest : List Char) :
    readStringBody (s.toList.flatMap escape ++ '"' :: rest) = .ok (s, rest) := by
  have hlen := length_le_flatMap_escape s.toList
  have h := readQuoted_flatMap s.toList rest
    ((s.toList.flatMap escape ++ '"' :: rest).length + 1) []
    (by rw [List.length_append, List.length_cons]; omega)
  simp only [readStringBody, h, bind, Except.bind, pure, Except.pure, List.reverse_nil,
    List.nil_append, String.ofList_toList]

theorem reads_string (s : String) : Reads readString (quoted s) s :=
  .of_start (by decide) (by decide) fun _ hs => by
    simp only [List.append_assoc, List.cons_append, List.nil_append] at hs
    rw [readString, hs]
    exact readStringBody_append s _

/-! ### Numbers -/

theorem isDigit_eq (c : Char) : isDigit c = c.isDigit := by
  simp [isDigit, Char.isDigit, Char.le_def]

theorem Ends.not_digit {rest : List Char} (h : Ends rest) :
    ∃ c cs, rest = c :: cs ∧ isDigit c = false ∧ c ≠ '.' ∧ c ≠ 'e' ∧ c ≠ 'E' := by
  obtain ⟨c, cs, rfl, hc⟩ := h
  simp only [List.mem_cons, List.not_mem_nil, or_false] at hc
  rcases hc with rfl | rfl | rfl | rfl <;> exact ⟨_, cs, rfl, by decide⟩

/-- Digits are taken up to their end when the number that they form fits. -/
theorem takeDigits_append (bound : Nat) {c : Char} (hc : isDigit c = false) (cs : List Char) :
    ∀ (ds : List Char) (n count : Nat), (∀ d ∈ ds, isDigit d = true) →
    Digits.toNatFrom n ds ≤ bound →
    takeDigits bound n count (ds ++ c :: cs) = (Digits.toNatFrom n ds, count + ds.length, c :: cs)
  | [], n, count, _, _ => by simp [takeDigits, hc, Digits.toNatFrom]
  | d :: ds, n, count, hd, hn => by
    have hfit : n * 10 + digitOf d ≤ bound := Nat.le_trans (Digits.le_toNatFrom _ ds) hn
    have ih := takeDigits_append bound hc cs ds (n * 10 + digitOf d) (count + 1)
      (fun e he => hd e (List.mem_cons_of_mem _ he)) hn
    rw [List.cons_append, takeDigits, if_pos (hd d (by simp)), if_pos hfit, ih]
    simp [Digits.toNatFrom, Nat.add_comm, Nat.add_left_comm]

theorem readMagnitude_ofNat (negative : Bool) {n : Nat} (hn : n ≤ wordBound) {rest : List Char}
    (hr : Ends rest) :
    readMagnitude negative (Digits.ofNat n ++ rest) = (wholeOf negative n).map (·, rest) := by
  obtain ⟨c, cs, rfl, hc, hdot, he, hE⟩ := hr.not_digit
  by_cases h₀ : n = 0
  · subst h₀
    simp [readMagnitude, hc]
  · obtain ⟨d, ds, hd, hd₀⟩ := Digits.ofNat_eq_cons h₀
    have hdigits : ∀ e ∈ Digits.ofNat n, isDigit e = true := fun e he => by
      rw [isDigit_eq]; exact Digits.isDigit_of_mem he
    have htake := takeDigits_append wordBound hc cs (Digits.ofNat n) 0 0 hdigits
      (by rwa [Digits.toNatFrom_ofNat])
    have hfirst : isDigit d = true := hdigits d (by simp [hd])
    rw [Digits.toNatFrom_ofNat, hd] at htake
    rw [hd, readMagnitude.eq_def]
    simp only [List.cons_append] at htake ⊢
    simp [htake, hd₀, hfirst, hc, hdot, he, hE]

/-- An integer of 64 bits, with a sign or without: from -2^63 to below 2^64. -/
def FitsWord (n : Int) : Prop := -9223372036854775808 ≤ n ∧ n < 18446744073709551616

instance (n : Int) : Decidable (FitsWord n) := inferInstanceAs (Decidable (_ ∧ _))

theorem wholeOf_false (n : Nat) : wholeOf false n = .ok (.integer n) := rfl

theorem wholeOf_true {n : Nat} (h₀ : n ≠ 0) (h : n ≤ 9223372036854775808) :
    wholeOf true n = .ok (.integer (-n)) := by
  have : ¬Nat.pow 2 63 < n := Nat.not_lt.mpr h
  simp only [wholeOf, h₀, this, or_self, if_false, if_true]

/-! ### Scalars -/

/-- A digit starts no other value than a number. -/
theorem digit_starts {d : Char} (h : isDigit d = true) :
    isBlank d = false ∧ d ≠ '[' ∧ d ≠ ']' ∧ d ≠ '\x7b' ∧ ∀ cs, readScalar (d :: cs) =
      (readMagnitude false (d :: cs)).map fun (n, rest) => (.number n, rest) := by
  have hne : ∀ c : Char, isDigit c = false → d ≠ c := fun c hc hd => by rw [hd, hc] at h; cases h
  refine ⟨?_, hne _ (by decide), hne _ (by decide), hne _ (by decide), fun cs => ?_⟩
  · simp [isBlank, hne ' ' (by decide), hne '\n' (by decide), hne '\t' (by decide),
      hne '\x0d' (by decide)]
  · rw [readScalar.eq_def]
    simp [h, hne 'n' (by decide), hne 't' (by decide), hne 'f' (by decide), hne '-' (by decide),
      hne '"' (by decide)]

theorem readValue_of_scalar (depth : Nat) {s : List Char} {c : Char} {cs : List Char}
    (hs : skipBlanks s = c :: cs) (hlist : c ≠ '[') (hrecord : c ≠ '\x7b') :
    readValue depth s = readScalar (c :: cs) := by
  cases depth <;> simp [readValue, hs, hlist, hrecord]

theorem reads_null (depth : Nat) : Reads (readValue depth) ['n', 'u', 'l', 'l'] .null :=
  .of_start (by decide) (by decide) fun _ hs => by
    rw [readValue_of_scalar depth hs (by decide) (by decide)]; rfl

theorem reads_bool (budget : Nat) (sp : Spacing) (depth : Nat) (b : Bool) :
    Reads (readValue budget) (chars sp depth (.bool b)) (.bool b) := by
  cases b <;>
  exact .of_start (by decide) (by decide) fun _ hs => by
    rw [readValue_of_scalar budget hs (by decide) (by decide)]; rfl

theorem reads_text (depth : Nat) (s : String) : Reads (readValue depth) (quoted s) (.text s) :=
  .of_start (by decide) (by decide) fun _ hs => by
    rw [readValue_of_scalar depth hs (by decide) (by decide)]
    simp [readScalar, readStringBody_append, Except.map]

/-- A number is read when its magnitude is, with its sign before it. -/
theorem reads_magnitude (depth : Nat) (negative : Bool) {text : List Char} {n : Number}
    (hdigit : ∃ d ds, text = d :: ds ∧ isDigit d = true)
    (hread : ∀ {rest : List Char}, Ends rest → readMagnitude negative (text ++ rest) = .ok (n, rest)) :
    Reads (readValue depth) ((if negative then ['-'] else []) ++ text) (.number n) := by
  cases negative with
  | true =>
    refine .of_start (by decide) (by decide) fun hr hs => ?_
    rw [readValue_of_scalar depth hs (by decide) (by decide)]
    simp [readScalar, hread hr, Except.map]
  | false =>
    obtain ⟨d, ds, rfl, hd⟩ := hdigit
    obtain ⟨hblank, hlist, hend, hrecord, hscalar⟩ := digit_starts hd
    refine .of_start hblank hend fun hr hs => ?_
    rw [readValue_of_scalar depth hs hlist hrecord, hscalar, ← List.cons_append, hread hr]
    rfl

theorem exists_digit_ofNat (n : Nat) : ∃ d ds, Digits.ofNat n = d :: ds ∧ isDigit d = true := by
  obtain ⟨d, ds, hd⟩ := List.exists_cons_of_ne_nil (Nat.toDigits_ne_nil (n := n) (b := 10))
  exact ⟨d, ds, hd, by rw [isDigit_eq]; exact Digits.isDigit_of_mem (n := n) (by simp [hd])⟩

theorem reads_integer (depth : Nat) {n : Int} (h : FitsWord n) :
    Reads (readValue depth) (Number.integer n).text.toList (.number (.integer n)) := by
  obtain ⟨hlow, hhigh⟩ := h
  rcases Int.lt_or_le n 0 with hneg | hpos
  · obtain ⟨m, rfl⟩ : ∃ m : Nat, n = -(m : Int) := ⟨n.natAbs, by omega⟩
    have hm : m ≠ 0 := by omega
    rw [Digits.toList_text_neg hm]
    have hread := reads_magnitude depth true (exists_digit_ofNat m) fun hr => by
      rw [readMagnitude_ofNat true (by simp [wordBound]; omega) hr, wholeOf_true hm (by omega)]
      rfl
    exact hread
  · obtain ⟨m, rfl⟩ : ∃ m : Nat, n = m := ⟨n.toNat, by omega⟩
    rw [Digits.toList_text_natCast]
    have hread := reads_magnitude depth false (exists_digit_ofNat m) fun hr => by
      rw [readMagnitude_ofNat false (by simp [wordBound]; omega) hr, wholeOf_false]
      rfl
    exact hread

/-! ### Lists -/

section

variable {α : Type} {item : Reader α} {sp : Spacing} {depth : Nat}

theorem Starts.skipBlanks_eq {text : List Char} (h : Starts text) (sp : Spacing) (depth : Nat)
    (rest : List Char) : ∃ c cs, c ≠ ']' ∧
    skipBlanks (sp.blanks depth ++ (text ++ rest)) = c :: cs ∧ text ++ rest = c :: cs := by
  obtain ⟨c, cs, rfl, hb, hc⟩ := h
  refine ⟨c, cs ++ rest, hc, ?_, rfl⟩
  rw [skipBlanks_append (blanks_lead sp depth), List.cons_append, skipBlanks_cons hb]

/-- The row of items that are still to come: the first one, or one after a comma. -/
def rowFrom (first : Bool) (sp : Spacing) (depth : Nat) (closing : Char) (texts : List (List Char)) :
    List Char :=
  if first then rowBody sp depth closing texts else rowTail sp depth closing texts

/-- The next item of a row is read, and then the ones after it. -/
theorem readItems_next (item : Reader α) (sp : Spacing) (depth : Nat) (first : Bool) {text : List Char}
    (h : Starts text) (texts : List (List Char)) (rest : List Char) (fuel : Nat) (acc : List α) :
    readItems item (fuel + 1) first acc (rowFrom first sp depth ']' (text :: texts) ++ rest) =
      (item (text ++ (rowTail sp depth ']' texts ++ rest))).bind fun (a, rest) =>
        readItems item fuel false (a :: acc) rest := by
  obtain ⟨c, cs, hc, hskip, hcs⟩ := h.skipBlanks_eq sp (depth + 1) (rowTail sp depth ']' texts ++ rest)
  have hcomma : ∀ cs, skipBlanks (',' :: cs) = ',' :: cs := fun cs => skipBlanks_cons (by decide) cs
  rw [hcs] at hskip
  cases first <;>
    simp [rowFrom, rowBody, rowTail, readItems, nextItem, hcomma, hskip, hc, hcs, bind, Except.bind]

theorem readItems_rowTail {texts : List (List Char)} {as : List α}
    (h : List.Forall₂ (Reads item) texts as) (rest : List Char) : ∀ (fuel : Nat) (acc : List α),
    texts.length < fuel →
    readItems item fuel false acc (rowTail sp depth ']' texts ++ rest) =
      .ok (acc.reverse ++ as, ']' :: rest) := by
  induction h with
  | nil =>
    intro fuel acc hf
    obtain ⟨fuel, rfl⟩ : ∃ f, fuel = f + 1 := ⟨fuel - 1, by omega⟩
    have hskip : skipBlanks (rowTail sp depth ']' [] ++ rest) = ']' :: rest := by
      rw [rowTail, List.append_assoc, skipBlanks_append (blanks_lead sp depth)]; rfl
    simp [readItems, nextItem, hskip, bind, Except.bind, pure, Except.pure]
  | @cons text a texts as ha _ ih =>
    intro fuel acc hf
    rw [List.length_cons] at hf
    obtain ⟨fuel, rfl⟩ : ∃ f, fuel = f + 1 := ⟨fuel - 1, by omega⟩
    have hnext := readItems_next item sp depth false ha.starts texts rest fuel acc
    have hread := ha.apply Blanks.nil (ends_rowTail sp depth ']' (by simp) texts rest)
    rw [List.nil_append] at hread
    rw [hread] at hnext
    exact hnext.trans (by simpa [Except.bind] using ih fuel (a :: acc) (by omega))

theorem readItems_rowBody {texts : List (List Char)} {as : List α}
    (h : List.Forall₂ (Reads item) texts as) (rest : List Char) :
    readItems item ((rowBody sp depth ']' texts ++ rest).length + 1) true []
      (rowBody sp depth ']' texts ++ rest) = .ok (as, ']' :: rest) := by
  have hlen := length_le_rowBody sp depth ']' texts
  obtain ⟨fuel, hfuel, hle⟩ : ∃ fuel, (rowBody sp depth ']' texts ++ rest).length = fuel ∧
      texts.length ≤ fuel := ⟨_, rfl, by rw [List.length_append]; omega⟩
  rw [hfuel]
  cases h with
  | nil =>
    have hskip : skipBlanks (']' :: rest) = ']' :: rest := skipBlanks_cons (by decide) rest
    simp [rowBody, readItems, nextItem, hskip, bind, Except.bind, pure, Except.pure]
  | @cons text a texts as ha has =>
    have hnext := readItems_next item sp depth true ha.starts texts rest fuel []
    have hread := ha.apply Blanks.nil (ends_rowTail sp depth ']' (by simp) texts rest)
    rw [List.nil_append] at hread
    rw [hread] at hnext
    exact hnext.trans (readItems_rowTail has rest fuel [a] hle)

theorem closeList_cons (rest : List Char) : closeList (']' :: rest) = .ok ((), rest) := rfl

theorem reads_list {item : Nat → Reader α} {inner : Nat} {texts : List (List Char)} {as : List α}
    (h : List.Forall₂ (Reads (item inner)) texts as) :
    Reads (readList item (inner + 1)) (row sp depth '[' ']' texts) as :=
  .of_start (by decide) (by decide) fun _ hs => by
    simp only [readList, hs, readItems_rowBody h, closeList_cons, bind, Except.bind, pure,
      Except.pure]

end

/-! ### Records -/

section

variable {σ : Type} {member : String → σ → Reader σ} {sp : Spacing} {depth : Nat}

/-- Members take a state to a state, one after the other. -/
inductive ReadsMembers (member : String → σ → Reader σ) (sp : Spacing) : σ → List (List Char) → σ → Prop
  | nil (s : σ) : ReadsMembers member sp s [] s
  | cons {k : String} {text : List Char} {texts : List (List Char)} {s s₁ s₂ : σ} :
      (∀ {rest : List Char}, Ends rest →
        member k s (':' :: (sp.gap ++ (text ++ rest))) = .ok (s₁, rest)) →
      ReadsMembers member sp s₁ texts s₂ →
      ReadsMembers member sp s (memberChars sp k text :: texts) s₂

theorem memberChars_append (sp : Spacing) (k : String) (text rest : List Char) :
    memberChars sp k text ++ rest =
      '"' :: (k.toList.flatMap escape ++ '"' :: (':' :: (sp.gap ++ (text ++ rest)))) := by
  simp [memberChars, quoted]

/-- The next member of a record is read, and then the ones after it. -/
theorem readMembers_next (member : String → σ → Reader σ) (sp : Spacing) (depth : Nat) (first : Bool)
    (k : String)
    (text : List Char) (texts : List (List Char)) (rest : List Char) (fuel : Nat) (s : σ) :
    readMembers member (fuel + 1) first s
      (rowFrom first sp depth '\x7d' (memberChars sp k text :: texts) ++ rest) =
      (member k s (':' :: (sp.gap ++ (text ++ (rowTail sp depth '\x7d' texts ++ rest))))).bind
        fun (s, rest) =>
        readMembers member fuel false s rest := by
  have hcomma : ∀ cs, skipBlanks (',' :: cs) = ',' :: cs := fun cs => skipBlanks_cons (by decide) cs
  have hquote : ∀ cs, skipBlanks ('"' :: cs) = '"' :: cs := fun cs => skipBlanks_cons (by decide) cs
  cases first <;> simp [rowFrom, rowBody, rowTail, memberChars_append, readMembers, nextKey, hcomma, hquote,
    skipBlanks_append (blanks_lead sp (depth + 1)), readStringBody_append, bind, Except.bind]

theorem readMembers_rowTail {texts : List (List Char)} {s s' : σ}
    (h : ReadsMembers member sp s texts s') (rest : List Char) : ∀ fuel : Nat, texts.length < fuel →
    readMembers member fuel false s (rowTail sp depth '\x7d' texts ++ rest) =
      .ok (s', '\x7d' :: rest) := by
  induction h with
  | nil s =>
    intro fuel hf
    obtain ⟨fuel, rfl⟩ : ∃ f, fuel = f + 1 := ⟨fuel - 1, by omega⟩
    have hskip : skipBlanks (rowTail sp depth '\x7d' [] ++ rest) = '\x7d' :: rest := by
      rw [rowTail, List.append_assoc, skipBlanks_append (blanks_lead sp depth)]; rfl
    simp [readMembers, nextKey, hskip, bind, Except.bind, pure, Except.pure]
  | @cons k text texts s s₁ s₂ hm _ ih =>
    intro fuel hf
    rw [List.length_cons] at hf
    obtain ⟨fuel, rfl⟩ : ∃ f, fuel = f + 1 := ⟨fuel - 1, by omega⟩
    have hnext := readMembers_next member sp depth false k text texts rest fuel s
    rw [hm (ends_rowTail sp depth '\x7d' (by simp) texts rest)] at hnext
    exact hnext.trans (ih fuel (by omega))

theorem readMembers_rowBody {texts : List (List Char)} {s s' : σ}
    (h : ReadsMembers member sp s texts s') (rest : List Char) :
    readMembers member ((rowBody sp depth '\x7d' texts ++ rest).length + 1) true s
      (rowBody sp depth '\x7d' texts ++ rest) = .ok (s', '\x7d' :: rest) := by
  have hlen := length_le_rowBody sp depth '\x7d' texts
  obtain ⟨fuel, hfuel, hle⟩ : ∃ fuel, (rowBody sp depth '\x7d' texts ++ rest).length = fuel ∧
      texts.length ≤ fuel := ⟨_, rfl, by rw [List.length_append]; omega⟩
  rw [hfuel]
  cases h with
  | nil =>
    have hskip : skipBlanks ('\x7d' :: rest) = '\x7d' :: rest := skipBlanks_cons (by decide) rest
    simp [rowBody, readMembers, nextKey, hskip, bind, Except.bind, pure, Except.pure]
  | @cons k text texts s s₁ s₂ hm hms =>
    have hnext := readMembers_next member sp depth true k text texts rest fuel s
    rw [hm (ends_rowTail sp depth '\x7d' (by simp) texts rest)] at hnext
    exact hnext.trans (readMembers_rowTail hms rest fuel hle)

theorem closeRecord_cons (rest : List Char) : closeRecord ('\x7d' :: rest) = .ok ((), rest) := rfl

theorem readColon_cons (rest : List Char) : readColon (':' :: rest) = .ok ((), rest) := rfl

end

/-! ### Values -/

/-- The fields of a record are put back in their order when no key occurs twice. -/
theorem readsMembers_fields {value : Reader Value} {sp : Spacing} {depth : Nat} :
    ∀ {before fields : Fields Value}, (before ++ fields).keys.Nodup →
    (∀ e ∈ fields, Reads value (chars sp depth e.2) e.2) →
    ReadsMembers (readField value) sp before (fieldChars sp depth fields) (before ++ fields)
  | before, [], _, _ => by
    rw [fieldChars, List.append_nil]
    exact .nil before
  | before, (k, v) :: fields, hn, hv => by
    have hinsert := Fields.insert_of_nodup hn
    have hrest : ReadsMembers (readField value) sp (before ++ [(k, v)]) (fieldChars sp depth fields)
        (before ++ [(k, v)] ++ fields) :=
      readsMembers_fields (by simpa using hn) fun e he => hv e (List.mem_cons_of_mem _ he)
    rw [List.append_assoc] at hrest
    refine .cons (fun {rest} hr => ?_) hrest
    have hread := (hv (k, v) (by simp)).apply (blanks_gap sp) hr
    simp [readField, readColon_cons, hread, hinsert, bind, Except.bind, pure, Except.pure]

/-- A plain value is read back from its text when its brackets may be opened. -/
theorem reads_value (sp : Spacing) {v : Value} (h : v.Plain FitsWord) : ∀ depth budget : Nat,
    v.nesting ≤ budget → Reads (readValue budget) (chars sp depth v) v := by
  induction h with
  | null => exact fun _ budget _ => reads_null budget
  | bool b => exact fun depth budget _ => reads_bool budget sp depth b
  | number hn => exact fun _ budget _ => reads_integer budget hn
  | text s => exact fun _ budget _ => reads_text budget s
  | @list items _ ih =>
    intro depth budget hb
    rw [Value.nesting] at hb
    obtain ⟨inner, rfl⟩ : ∃ i, budget = i + 1 := ⟨budget - 1, by omega⟩
    have hitems : List.Forall₂ (Reads (readValue inner)) (itemChars sp (depth + 1) items) items := by
      rw [itemChars_eq, List.forall₂_map_left_iff, List.forall₂_same]
      intro v hv
      have := Value.nesting_le_ofItems hv
      exact ih v hv (depth + 1) inner (by omega)
    exact .of_start (by decide) (by decide) fun _ hs => by
      simp only [readValue, hs, readItems_rowBody hitems, closeList_cons, bind, Except.bind, pure,
        Except.pure]
  | @record fields hn _ ih =>
    intro depth budget hb
    rw [Value.nesting] at hb
    obtain ⟨inner, rfl⟩ : ∃ i, budget = i + 1 := ⟨budget - 1, by omega⟩
    have hfields : ReadsMembers (readField (readValue inner)) sp [] (fieldChars sp (depth + 1) fields)
        ([] ++ fields) := readsMembers_fields hn fun e he => by
      have := Value.nesting_le_ofFields he
      exact ih e he (depth + 1) inner (by omega)
    exact .of_start (by decide) (by decide) fun _ hs => by
      simp only [readValue, hs, readMembers_rowBody hfields, closeRecord_cons, bind, Except.bind, pure,
        Except.pure, List.nil_append]

end StoryManifest.Json
