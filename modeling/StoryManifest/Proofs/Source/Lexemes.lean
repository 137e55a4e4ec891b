import Mathlib.Data.List.TakeWhile
import StoryManifest.Literal.Numeral
import StoryManifest.Proofs.Digits
import StoryManifest.Proofs.Source.Running

/-!
Integers and words as they are written and as source reads them. Every integer up to 2^53 is a 64-bit
number of its own, so the real that its digits are nearest to is the integer again. Both end where a
value may end.
-/

namespace StoryManifest

/-! ### Integers among the reals -/

namespace Number.Binary64

theorem roundDiv_one (n : Nat) : roundDiv n 1 = n := by simp [roundDiv, Nat.mod_one]

theorem scaled_one {n k : Nat} {e : Int} (h : e = -(k : Int)) :
    scaled n 1 e = (n * Nat.pow 2 k, 1) := by
  subst h
  rcases Nat.eq_zero_or_pos k with rfl | hk
  · simp [scaled]
  · have hneg : -(k : Int) < 0 := by omega
    rw [scaled, if_pos hneg, Int.natAbs_neg, Int.natAbs_natCast]

section

variable {n : Nat}

theorem pow_le_scaled (h₀ : n ≠ 0) (h : n.log2 ≤ 52) : Nat.pow 2 53 ≤ n * Nat.pow 2 (53 - n.log2) := by
  have hlog : Nat.pow 2 n.log2 ≤ n := Nat.log2_self_le h₀
  calc Nat.pow 2 53 = Nat.pow 2 n.log2 * Nat.pow 2 (53 - n.log2) := by
        rw [Nat.pow_eq, Nat.pow_eq, Nat.pow_eq, ← Nat.pow_add]; congr 1; omega
    _ ≤ n * Nat.pow 2 (53 - n.log2) := Nat.mul_le_mul_right _ hlog

theorem scaled_lt_pow (h : n.log2 ≤ 52) : n * Nat.pow 2 (52 - n.log2) < Nat.pow 2 53 := by
  have hlog : n < Nat.pow 2 (n.log2 + 1) := Nat.lt_log2_self
  calc n * Nat.pow 2 (52 - n.log2) < Nat.pow 2 (n.log2 + 1) * Nat.pow 2 (52 - n.log2) :=
        Nat.mul_lt_mul_of_pos_right hlog (Nat.pow_pos (by decide))
    _ = Nat.pow 2 53 := by
        rw [Nat.pow_eq, Nat.pow_eq, Nat.pow_eq, ← Nat.pow_add]; congr 1; omega

theorem exponentFor_one (h₀ : n ≠ 0) (h : n.log2 ≤ 52) : exponentFor n 1 = -((52 - n.log2 : Nat) : Int) := by
  have hone : Nat.log2 1 = 0 := by decide
  have hguess : (n.log2 : Int) - (Nat.log2 1 : Int) - 53 = -((53 - n.log2 : Nat) : Int) := by
    rw [hone]; omega
  have hle := pow_le_scaled h₀ h
  simp only [exponentFor, hguess, scaled_one rfl, Nat.div_one, if_pos hle, leastExponent]
  omega

/-- A number of at most 53 bits is scaled up to exactly 53 bits. -/
theorem ofRatio_one (h₀ : n ≠ 0) (h : n.log2 ≤ 52) : ofRatio false n 1 =
    some ⟨false, n * Nat.pow 2 (52 - n.log2), -((52 - n.log2 : Nat) : Int)⟩ := by
  have hne : n * Nat.pow 2 (52 - n.log2) ≠ Nat.pow 2 53 := Nat.ne_of_lt (scaled_lt_pow h)
  have hsmall : ¬greatestExponent < -((52 - n.log2 : Nat) : Int) := by
    rw [greatestExponent]; omega
  simp only [ofRatio, if_neg h₀, exponentFor_one h₀ h, scaled_one rfl, roundDiv_one, if_neg hne,
    if_neg hsmall]

end

/-- A number that was scaled up is whole and loses nothing. -/
theorem ofBinary64_scaled {n : Nat} (k : Nat) (h : n ≤ safeBound) :
    ofBinary64 ⟨false, n * Nat.pow 2 k, -(k : Int)⟩ = .integer n := by
  have hpos : 0 < Nat.pow 2 k := Nat.pow_pos (by decide)
  have hwhole : isWhole ⟨false, n * Nat.pow 2 k, -(k : Int)⟩ = true := by
    simp [isWhole, Int.natAbs_neg]
  have htruncated : truncated ⟨false, n * Nat.pow 2 k, -(k : Int)⟩ = n := by
    rcases Nat.eq_zero_or_pos k with rfl | hk
    · simp [truncated]
    · have hneg : -(k : Int) < 0 := by omega
      simp only [truncated, if_pos hneg, Int.natAbs_neg, Int.natAbs_natCast]
      exact Nat.mul_div_cancel n hpos
  rw [ofBinary64, if_pos ⟨hwhole, htruncated.symm ▸ h⟩, htruncated]
  rfl

/-- The least power of two that no 53 bits hold is still a number of its own. -/
theorem ofRatio_safeBound : ofRatio false safeBound 1 = some ⟨false, halfRange, 1⟩ := by decide

theorem ofBinary64_halfRange : ofBinary64 ⟨false, halfRange, 1⟩ = .integer safeBound := by decide

theorem ofBinary64_ofRatio {n : Nat} (h₀ : n ≠ 0) (h : n ≤ safeBound) :
    (ofRatio false n 1).map ofBinary64 = some (.integer n) := by
  rcases Nat.lt_or_eq_of_le h with hlt | rfl
  · have hlog : n.log2 < 53 := (Nat.log2_lt h₀).mpr hlt
    rw [ofRatio_one h₀ (by omega), Option.map_some, ofBinary64_scaled _ h]
  · rw [ofRatio_safeBound, Option.map_some, ofBinary64_halfRange]

/-- The real nearest to the digits of an integer up to 2^53 is that integer. -/
theorem ofBinary64_ofDecimal {n : Nat} (h : n ≤ safeBound) :
    (ofDecimal false n 0).map ofBinary64 = some (.integer n) := by
  rcases Nat.eq_zero_or_pos n with rfl | hpos
  · have hzero := ofBinary64_scaled leastExponent.natAbs (Nat.zero_le safeBound)
    rw [Nat.zero_mul] at hzero
    rw [ofDecimal, if_pos rfl, Option.map_some]
    exact congrArg some hzero
  · have h₀ : n ≠ 0 := Nat.ne_of_gt hpos
    have hcount : digitCount n ≤ 16 := by
      have hbound : safeBound < Nat.pow 10 16 := by decide
      exact (Nat.length_toDigits_le_iff (by decide) (by decide)).mpr (Nat.lt_of_le_of_lt h hbound)
    have hlarge : ¬310 < (0 : Int) + digitCount n := by omega
    have hsmall : ¬(0 : Int) + digitCount n < -326 := by omega
    have hscale : n * Nat.pow 10 (Int.natAbs 0) = n := Nat.mul_one n
    rw [ofDecimal, if_neg h₀]
    simp only [if_neg hlarge, if_neg hsmall, if_neg (Int.lt_irrefl 0), hscale]
    exact ofBinary64_ofRatio h₀ h

end Number.Binary64

/-! ### Digits -/

namespace Literal

theorem isDigit_bounds {d : Char} (h : d.isDigit = true) :
    '0' ≤ d ∧ d ≤ '9' ∧ 48 ≤ d.toNat ∧ d.toNat ≤ 57 := by
  have hval : '0' ≤ d ∧ d ≤ '9' := by simpa [Char.isDigit, Char.le_def] using h
  have hnat : 48 ≤ d.val.toNat ∧ d.val.toNat ≤ 57 := by
    simpa [Char.isDigit, UInt32.le_iff_toNat_le] using h
  exact ⟨hval.1, hval.2, hnat⟩

theorem digitValue?_of_isDigit {d : Char} (h : d.isDigit = true) :
    digitValue? d = some (Json.digitOf d) ∧ Json.digitOf d < 10 := by
  obtain ⟨hlow, hhigh, hmin, hmax⟩ := isDigit_bounds h
  have hzero : '0'.toNat = 48 := rfl
  refine ⟨?_, by rw [Json.digitOf]; omega⟩
  rw [digitValue?, if_pos ⟨hlow, hhigh⟩]
  rfl

theorem digitsFrom_eq : ∀ (ds : List Char) (n : Nat), (∀ d ∈ ds, d.isDigit = true) →
    digitsFrom 10 n ds = some (Digits.toNatFrom n ds)
  | [], _, _ => rfl
  | d :: ds, n, h => by
    obtain ⟨hvalue, hlt⟩ := digitValue?_of_isDigit (h d (by simp))
    have ih := digitsFrom_eq ds (n * 10 + Json.digitOf d) fun e he => h e (List.mem_cons_of_mem _ he)
    simp only [digitsFrom, hvalue, if_pos hlt, ih]
    rfl

theorem digits?_ofNat (n : Nat) : digits? 10 (Digits.ofNat n) = some n := by
  rw [digits?, if_neg Nat.toDigits_ne_nil, digitsFrom_eq _ _ fun d hd => Digits.isDigit_of_mem hd,
    Digits.toNatFrom_ofNat]

theorem decimal?_ofNat (n : Nat) : decimal? (Digits.ofNat n) = Number.Binary64.ofDecimal false n 0 := by
  have hall : (Digits.ofNat n).takeWhile Char.isDigit = Digits.ofNat n := by
    rw [List.takeWhile_eq_self_iff]
    exact fun d hd => Digits.isDigit_of_mem hd
  simp [decimal?, hall, digits?_ofNat]

theorem digit_ne {d : Char} (h : d.isDigit = true) (c : Char) (hc : c.isDigit = false) : d ≠ c :=
  fun hd => by rw [hd, hc] at h; cases h

theorem lowered_of_isDigit {d : Char} (h : d.isDigit = true) : lowered d = d := by
  obtain ⟨-, -, -, hmax⟩ := isDigit_bounds h
  have hupper : ¬('A' ≤ d ∧ d ≤ 'Z') := by
    rintro ⟨hA, -⟩
    have : 65 ≤ d.toNat := hA
    omega
  rw [lowered, if_neg hupper]

theorem radix?_ofNat (n : Nat) : radix? (Digits.ofNat n) = none := by
  rcases Nat.eq_zero_or_pos n with rfl | hpos
  · rfl
  · obtain ⟨d, ds, hd, hne⟩ := Digits.ofNat_eq_cons (Nat.ne_of_gt hpos)
    rw [hd]
    unfold radix?
    split <;> simp_all

/-- The digits of a number are a literal of the real nearest to it, wherever underscores stand. -/
theorem parseNumber?_decimal {text : List Char} {n : Nat} (h : text.filter (· ≠ '_') = Digits.ofNat n) :
    parseNumber? (String.ofList text) =
      (Number.Binary64.ofDecimal false n 0).map Number.ofBinary64 := by
  have hdigit : ∀ d ∈ Digits.ofNat n, d.isDigit = true := fun d hd => Digits.isDigit_of_mem hd
  have hmap : (Digits.ofNat n).map lowered = Digits.ofNat n := by
    conv_rhs => rw [← List.map_id (Digits.ofNat n)]
    exact List.map_congr_left fun d hd => lowered_of_isDigit (hdigit d hd)
  have hlast : (Digits.ofNat n).getLast? ≠ some 'n' := fun hl =>
    digit_ne (hdigit 'n' (List.mem_of_getLast? hl)) 'n' (by decide) rfl
  rw [parseNumber?, String.toList_ofList, h]
  simp only [if_neg hlast, hmap, radix?_ofNat, decimal?_ofNat]

/-- The digits of an integer up to 2^53 are a literal of that integer. -/
theorem parseNumber?_ofNat {n : Nat} (h : n ≤ Number.safeBound) :
    parseNumber? (String.ofList (Digits.ofNat n)) = some (.integer n) := by
  have hfilter : (Digits.ofNat n).filter (· ≠ '_') = Digits.ofNat n := by
    rw [List.filter_eq_self]
    exact fun d hd => by simpa using digit_ne (Digits.isDigit_of_mem hd) '_' (by decide)
  rw [parseNumber?_decimal hfilter, Number.Binary64.ofBinary64_ofDecimal h]

end Literal

/-! ### Reading numbers -/

namespace Source

theorem isDigit_of_mem_ofNat {n : Nat} {d : Char} (h : d ∈ Digits.ofNat n) : isDigit d = true := by
  have hd := Digits.isDigit_of_mem h
  simpa [isDigit, Char.isDigit, Char.le_def] using hd

/-- A digit is no blank, opens no comment and is no punctuation of lists. -/
theorem digit_starts {d : Char} (h : isDigit d = true) :
    isBlank d = false ∧ d ∉ ['/', '-', '<', ',', ']', '\x7d', '.'] := by
  simp only [isDigit, Bool.and_eq_true, decide_eq_true_eq] at h
  have hmin : 48 ≤ d.toNat := h.1
  have hmax : d.toNat ≤ 57 := h.2
  have hall : ∀ n < 58, 48 ≤ n → isBlank (Char.ofNat n) = false ∧
      Char.ofNat n ∉ ['/', '-', '<', ',', ']', '\x7d', '.'] := by decide
  rw [← Char.ofNat_toNat d]
  exact hall d.toNat (by omega) hmin

/-- A character that may follow a number where a value may end goes on with none. -/
theorem stop_ends_number {c : Char} (h : c ∈ Parser.stopChars) :
    isDigit c = false ∧ c ∉ ['_', '.', 'e', 'E', 'n', 'x', 'X', 'o', 'O', 'b', 'B'] := by
  have hall : Parser.stopChars.all (fun c => isDigit c = false ∧
      c ∉ ['_', '.', 'e', 'E', 'n', 'x', 'X', 'o', 'O', 'b', 'B']) = true := by decide
  exact of_decide_eq_true (List.all_eq_true.mp hall c h)

section

variable {digit : Char → Bool} {c : Char} {ds : List Char}

/-- Digits end before a character that is neither one of them nor an underscore. -/
theorem moreDigitsLength_append (hdigit : digit c = false) (hmark : c ≠ '_') (cs : List Char) :
    ∀ ds : List Char, moreDigitsLength digit (ds ++ c :: cs) = moreDigitsLength digit ds
  | [] => by simp [moreDigitsLength, hdigit, hmark]
  | [d] => by simp [moreDigitsLength, hdigit, hmark]
  | d :: e :: ds => by
    have ih := moreDigitsLength_append hdigit hmark cs (e :: ds)
    rw [List.cons_append, moreDigitsLength, moreDigitsLength, ih]
    rfl

theorem groupedLength_append (hdigit : digit c = false) (hmark : c ≠ '_') (cs : List Char) :
    ∀ ds : List Char, groupedLength digit (ds ++ c :: cs) = groupedLength digit ds
  | [] => by simp [groupedLength, hdigit]
  | d :: ds => by simp [groupedLength, moreDigitsLength_append hdigit hmark cs ds]

theorem moreDigitsLength_le (digit : Char → Bool) : ∀ ds : List Char, moreDigitsLength digit ds ≤ ds.length
  | [] => Nat.le_refl 0
  | d :: ds => by
    have ih := moreDigitsLength_le digit ds
    rw [moreDigitsLength, List.length_cons]
    split
    · omega
    · split <;> omega

theorem groupedLength_le (digit : Char → Bool) : ∀ ds : List Char, groupedLength digit ds ≤ ds.length
  | [] => Nat.le_refl 0
  | d :: ds => by
    have := moreDigitsLength_le digit ds
    rw [groupedLength, List.length_cons]
    split <;> omega

theorem forall_of_moreDigitsLength : ∀ {ds : List Char}, moreDigitsLength digit ds = ds.length →
    ∀ d ∈ ds, digit d = true ∨ d = '_'
  | [], _ => by simp
  | d :: ds, h => by
    rw [moreDigitsLength, List.length_cons] at h
    rw [List.forall_mem_cons]
    split at h
    · exact ⟨.inl ‹_›, forall_of_moreDigitsLength (by omega)⟩
    · split at h
      · rename_i hd
        simp only [Bool.and_eq_true, decide_eq_true_eq] at hd
        exact ⟨.inr hd.1, forall_of_moreDigitsLength (by omega)⟩
      · omega

/-- A text that is read as digits holds digits and underscores only. -/
theorem forall_of_groupedLength (h : groupedLength digit ds = ds.length) :
    ∀ d ∈ ds, digit d = true ∨ d = '_' := by
  cases ds with
  | nil => simp
  | cons d ds =>
    rw [groupedLength, List.length_cons] at h
    split at h
    · exact List.forall_mem_cons.mpr ⟨.inl ‹_›, forall_of_moreDigitsLength (by omega)⟩
    · omega

theorem groupedLength_of_digits : ∀ {ds : List Char}, (∀ d ∈ ds, digit d = true) →
    groupedLength digit ds = ds.length
  | [], _ => rfl
  | d :: ds, h => by
    have hmore : ∀ {es : List Char}, (∀ e ∈ es, digit e = true) → moreDigitsLength digit es = es.length := by
      intro es hes
      induction es with
      | nil => rfl
      | cons e es ih =>
        rw [List.forall_mem_cons] at hes
        rw [moreDigitsLength, if_pos hes.1, ih hes.2, List.length_cons, Nat.add_comm]
    rw [List.forall_mem_cons] at h
    rw [groupedLength, if_pos h.1, hmore h.2, List.length_cons, Nat.add_comm]

end

/-- A text is one numeral to the grammar, wherever a value may end after it. -/
structure IsNumeral (text : List Char) : Prop where
  head : ∃ d ds, text = d :: ds ∧ isDigit d = true
  length : ∀ c ∈ Parser.stopChars, ∀ cs, numberLength (text ++ c :: cs) = text.length

section

variable {c : Char} {ds : List Char} (hc : c ∈ Parser.stopChars) (hds : ∀ d ∈ ds, isDigit d = true ∨ d = '_')

include hc hds

/-- No letter and no point comes up to the end of a value after digits. -/
theorem notMem_of_digits {d : Char} (hd : d ∈ ds ∨ d = c) :
    d ∉ ['.', 'e', 'E', 'n', 'x', 'X', 'o', 'O', 'b', 'B'] := by
  rcases hd with hd | rfl
  · rcases hds d hd with hd | rfl
    · intro hmem
      have hnone : ['.', 'e', 'E', 'n', 'x', 'X', 'o', 'O', 'b', 'B'].any isDigit = false := by decide
      rw [List.any_eq_true.mpr ⟨d, hmem, hd⟩] at hnone
      cases hnone
    · decide
  · have hne := (stop_ends_number hc).2
    rw [List.mem_cons, not_or] at hne
    exact hne.2

theorem integerLength_le (cs : List Char) : integerLength (ds ++ c :: cs) ≤ ds.length := by
  obtain ⟨hdigit, hne⟩ := stop_ends_number hc
  have hmark : c ≠ '_' := fun h => hne (by simp [h])
  have hnonZero : ∀ es : List Char, nonZeroLength (es ++ c :: cs) ≤ es.length := fun es => by
    rw [nonZeroLength, groupedLength_append hdigit hmark]
    split
    · exact Nat.zero_le _
    · exact groupedLength_le _ _
  unfold integerLength
  split
  · rename_i rest heq
    cases ds with
    | nil =>
      obtain ⟨rfl, -⟩ := List.cons.inj heq
      cases hdigit
    | cons d ds =>
      rw [List.cons_append] at heq
      obtain ⟨-, rfl⟩ := List.cons.inj heq
      have := hnonZero ds
      rw [List.length_cons]
      omega
  · exact hnonZero ds

/-- Behind so many characters of the digits, one of them comes next or what follows them does. -/
theorem exists_drop_eq_cons {k : Nat} (hk : k ≤ ds.length) (cs : List Char) :
    ∃ d rest, (ds ++ c :: cs).drop k = d :: rest ∧
      d ∉ ['.', 'e', 'E', 'n', 'x', 'X', 'o', 'O', 'b', 'B'] := by
  rw [List.drop_append_of_le_length hk]
  cases hdrop : ds.drop k with
  | nil => exact ⟨c, cs, rfl, notMem_of_digits hc hds (.inr rfl)⟩
  | cons d rest =>
    have hmem : d ∈ ds := List.mem_of_mem_drop (hdrop ▸ List.mem_cons_self)
    exact ⟨d, _, rfl, notMem_of_digits hc hds (.inl hmem)⟩

theorem fractionLength_digits (cs : List Char) : fractionLength (ds ++ c :: cs) = 0 := by
  have hle := integerLength_le hc hds cs
  obtain ⟨d, rest, hd, hne⟩ := exists_drop_eq_cons hc hds (Nat.zero_le _) cs
  rw [List.drop_zero] at hd
  obtain ⟨e, rest', he, hne'⟩ := exists_drop_eq_cons hc hds hle cs
  simp only [List.mem_cons, List.not_mem_nil, or_false, not_or] at hne hne'
  rw [fractionLength.eq_def]
  split
  · rename_i heq
    rw [hd] at heq
    exact absurd (List.cons.inj heq).1 hne.1
  · split
    · rfl
    · simp [he, exponentLength, hne']

theorem radixLength_digits (cs : List Char) : radixLength (ds ++ c :: cs) = 0 := by
  unfold radixLength
  split
  · rename_i letter rest heq
    obtain ⟨d, rest', hd, hne⟩ := exists_drop_eq_cons hc hds (k := 1) (by
      cases ds with
      | nil =>
        obtain ⟨rfl, -⟩ := List.cons.inj heq
        exact absurd (stop_ends_number hc).1 (by decide)
      | cons => simp) cs
    rw [heq] at hd
    obtain ⟨rfl, -⟩ := List.cons.inj hd
    simp only [List.mem_cons, List.not_mem_nil, or_false, not_or] at hne
    simp [hne]
  · rfl

end

/-- Digits that underscores may separate are one numeral. -/
theorem isNumeral_of_groupedLength {text : List Char} (hne : text ≠ [])
    (h : groupedLength isDigit text = text.length) : IsNumeral text where
  head := by
    obtain ⟨d, ds, rfl⟩ := List.exists_cons_of_ne_nil hne
    rw [groupedLength, List.length_cons] at h
    split at h
    · exact ⟨d, ds, rfl, ‹_›⟩
    · omega
  length c hc cs := by
    have hdigits := forall_of_groupedLength h
    obtain ⟨hdigit, hne⟩ := stop_ends_number hc
    have hmark : c ≠ '_' := fun h => hne (by simp [h])
    have hbig : c ≠ 'n' := fun h => hne (by simp [h])
    simp [numberLength, withBigMark, radixLength_digits hc hdigits, fractionLength_digits hc hdigits,
      groupedLength_append hdigit hmark, h, hbig]

theorem isNumeral_ofNat (n : Nat) : IsNumeral (Digits.ofNat n) :=
  isNumeral_of_groupedLength Nat.toDigits_ne_nil (groupedLength_of_digits fun _ => isDigit_of_mem_ofNat)

/-! ### Reading words -/

/-- Characters that form one word. -/
def IsWord (w : List Char) : Prop := w.head?.any isWordStart = true ∧ w.all isWordPart = true

instance (w : List Char) : Decidable (IsWord w) := inferInstanceAs (Decidable (_ ∧ _))

/-- A character that no word goes on with. -/
structure EndsWord (c : Char) : Prop where
  part : isWordPart c = false
  escape : c ≠ '\\'

theorem endsWord_stop {c : Char} (h : c ∈ Parser.stopChars) : EndsWord c := by
  have hall : Parser.stopChars.all (fun c => isWordPart c = false ∧ c ≠ '\\') = true := by decide
  have hc := of_decide_eq_true (List.all_eq_true.mp hall c h)
  exact ⟨hc.1, hc.2⟩

theorem wordPartLength_of_ne {c : Char} (h : c ≠ '\\') (start : Bool) (cs : List Char) :
    wordPartLength start (c :: cs) = if (if start then isWordStart c else isWordPart c) then 1 else 0 := by
  rw [wordPartLength.eq_def]
  split
  · rename_i heq; exact absurd (List.cons.inj heq).1 h
  · rename_i heq; rw [(List.cons.inj heq).1]
  · rename_i heq; cases heq

/-- A part of a word is none of the characters that are no part of one. -/
theorem notMem_of_isWordPart {c : Char} {ds : List Char} (hc : isWordPart c = true)
    (hds : ds.any isWordPart = false) : c ∉ ds := by
  intro h
  rw [List.any_eq_true.mpr ⟨c, h, hc⟩] at hds
  cases hds

theorem ne_backslash_of_isWordPart {c : Char} (hc : isWordPart c = true) : c ≠ '\\' := by
  have h : c ∉ ['\\'] := notMem_of_isWordPart hc (by decide)
  simpa using h

theorem IsWord.head {c : Char} {w : List Char} (hw : IsWord (c :: w)) :
    isWordPart c = true ∧ isDigit c = false := by
  simpa [isWordStart] using show isWordStart c = true from hw.1

theorem wordTailLength_append {c : Char} (hc : EndsWord c) (cs : List Char) : ∀ (ds : List Char)
    (fuel : Nat), (∀ d ∈ ds, isWordPart d = true) → ds.length < fuel →
    wordTailLength fuel (ds ++ c :: cs) = ds.length
  | [], fuel, _, hf => by
    obtain ⟨fuel, rfl⟩ : ∃ f, fuel = f + 1 := ⟨fuel - 1, by omega⟩
    simp [wordTailLength, wordPartLength_of_ne hc.escape, hc.part]
  | d :: ds, fuel, h, hf => by
    rw [List.length_cons] at hf
    obtain ⟨fuel, rfl⟩ : ∃ f, fuel = f + 1 := ⟨fuel - 1, by omega⟩
    have hd := h d (by simp)
    have ih := wordTailLength_append hc cs ds fuel (fun e he => h e (List.mem_cons_of_mem _ he)) (by omega)
    simp [wordTailLength, wordPartLength_of_ne (ne_backslash_of_isWordPart hd), hd, ih, Nat.add_comm]

theorem wordLength_append {w : List Char} (hw : IsWord w) {c : Char} (hc : EndsWord c) (cs : List Char) :
    wordLength (w ++ c :: cs) = w.length := by
  obtain ⟨hstart, hall⟩ := hw
  rw [List.all_eq_true] at hall
  cases w with
  | nil => cases hstart
  | cons d ds =>
    have hd : isWordStart d = true := hstart
    have htail : ∀ fuel, ds.length < fuel → wordTailLength fuel (ds ++ c :: cs) = ds.length :=
      fun fuel => wordTailLength_append hc cs ds fuel fun e he => hall e (List.mem_cons_of_mem _ he)
    have hhead : wordPartLength true (d :: (ds ++ c :: cs)) = 1 := by
      rw [wordPartLength_of_ne (ne_backslash_of_isWordPart (hall d (by simp)))]
      simp [hd]
    rw [List.cons_append, wordLength, hhead]
    simp only [List.drop_succ_cons, List.drop_zero]
    rw [htail _ (by simp only [List.length_cons, List.length_append]; omega), List.length_cons,
      Nat.add_comm]

theorem wordOf_append {w : List Char} (hw : IsWord w) {c : Char} (hc : EndsWord c) (cs : List Char) :
    wordOf (w ++ c :: cs) = String.ofList w := by
  rw [wordOf, wordLength_append hw hc, List.take_left]

namespace Parser

variable {s : State} {Q : Node → State → Prop}

/-- A word is read up to the first character that it does not go on with. -/
theorem Ensures.word {kind : Kind} {w cs : List Char} {c : Char} (hw : IsWord w) (hc : EndsWord c)
    (hs : s.cursor.rest = w ++ c :: cs)
    (hQ : ∀ stop t, Moves s t (c :: cs) s.made →
      Q (.leaf (.named kind) s.cursor.place stop (String.ofList w)) t) : Ensures (word kind) s Q := by
  have hlength := wordLength_append hw hc cs
  have hne : w.length ≠ 0 := by
    obtain ⟨hstart, -⟩ := hw
    cases w with
    | nil => cases hstart
    | cons d ds => simp
  simp only [Parser.word, ensures_bind, ensures_rest, ensures_require, hs, hlength]
  exact ⟨decide_eq_true hne, Ensures.take hs rfl hQ⟩

/-- A numeral is read up to where a value may end. -/
theorem Ensures.number {text cs : List Char} {c : Char} (h : IsNumeral text) (hc : c ∈ stopChars)
    (hs : s.cursor.rest = text ++ c :: cs)
    (hQ : ∀ stop t, Moves s t (c :: cs) s.made →
      Q (.leaf (.named .number) s.cursor.place stop (String.ofList text)) t) :
    Ensures number s Q := by
  have hne : text.length ≠ 0 := by
    obtain ⟨d, ds, rfl, -⟩ := h.head
    simp
  simp only [Parser.number, ensures_bind, ensures_rest, ensures_require, hs, h.length c hc]
  exact ⟨decide_eq_true hne, Ensures.take hs rfl hQ⟩

end Parser

end Source

end StoryManifest
