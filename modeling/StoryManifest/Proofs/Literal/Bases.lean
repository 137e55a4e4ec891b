import StoryManifest.Proofs.Literal.Numerals
import StoryManifest.Proofs.Number.Rounding

/-!
Integer literals of all bases. A decimal is rounded to the nearest real and is an integer again if that is
at most 2^53; a number in another base is kept as it is when its nearest real is at most 2^53. The two ways
differ for the one number above 2^53 that is rounded down to it.
-/

namespace StoryManifest

/-! ### Integers and the nearest reals -/

namespace Number

open Binary64 (ofInt ofRatio ofDecimal)

/-- The number nearest to a natural number, which counts as an integer up to 2^53. -/
def nearest? (n : Nat) : Option Number := (ofInt n).map ofBinary64

namespace Binary64

variable {x : Binary64} {n : Nat}

theorem ofInt_natCast (n : Nat) : ofInt n = ofRatio false n 1 := by
  have hsign : decide ((n : Int) < 0) = false := by simp
  rw [ofInt, hsign, Int.natAbs_natCast]

/-- The digits of a number of at most twenty digits are nearest to what the number is nearest to. -/
theorem ofDecimal_eq_ofInt (h : n < 2 ^ 64) : ofDecimal false n 0 = ofInt n := by
  rw [ofInt_natCast]
  rcases Nat.eq_zero_or_pos n with rfl | hpos
  · rfl
  · have hcount : digitCount n ≤ 20 :=
      (Nat.length_toDigits_le_iff (by decide) (by decide)).mpr (h.trans (by norm_num))
    have hlarge : ¬310 < (0 : Int) + digitCount n := by omega
    have hsmall : ¬(0 : Int) + digitCount n < -326 := by omega
    have hscale : n * Nat.pow 10 (Int.natAbs 0) = n := Nat.mul_one n
    rw [ofDecimal, if_neg (Nat.ne_of_gt hpos)]
    simp only [if_neg hlarge, if_neg hsmall, if_neg (Int.lt_irrefl 0), hscale]

/-- A whole number is what is left of it without its fraction. -/
theorem magnitude_eq_truncated (h : x.isWhole = true) : x.magnitude = x.truncated := by
  obtain ⟨negative, m, e⟩ := x
  rw [magnitude, truncated]
  split
  · rename_i hneg
    obtain ⟨k, rfl⟩ : ∃ k : Nat, e = -(k : Int) := ⟨e.natAbs, by dsimp only at hneg; omega⟩
    obtain ⟨q, rfl⟩ : 2 ^ k ∣ m := by
      have hk : k ≠ 0 := by
        rintro rfl
        simp at hneg
      have hmod : m % 2 ^ k = 0 := by simpa [isWhole, hk] using h
      exact Nat.dvd_of_mod_eq_zero hmod
    have hpos : (2 : ℚ) ^ k ≠ 0 := by positivity
    simp [zpow_neg, mul_comm, hpos]
  · rename_i hpos
    obtain ⟨k, rfl⟩ : ∃ k : Nat, e = k := ⟨e.natAbs, by dsimp only at hpos; omega⟩
    simp

/-- Rounding takes a number that is more than one above 2^53 to no integer up to 2^53. -/
theorem lt_truncated_of_ofInt (h : ofInt n = some x) (hn : safeBound + 1 < n) (hwhole : x.isWhole = true) :
    safeBound < x.truncated := by
  rw [ofInt_natCast] at h
  have hclose := (abs_le.mp (abs_magnitude_sub_le one_ne_zero h)).1
  have hbound : ((safeBound : Nat) : ℚ) = 2 ^ 53 := by rw [safeBound, Nat.pow_eq]; norm_num
  have hlarge : (2 : ℚ) ^ 53 + 2 ≤ n := by
    rw [← hbound]
    exact_mod_cast hn
  have hpart : roundingPart = 1 / 2 ^ 53 := by rw [roundingPart]; norm_num
  have hmax : max ((n : ℚ) / (1 : Nat)) leastNormal = n := by
    rw [Nat.cast_one, div_one]
    exact max_eq_left (leastNormal_le_one.trans (by linarith))
  rw [hmax, Nat.cast_one, div_one, hpart, magnitude_eq_truncated hwhole] at hclose
  have hlt : ((safeBound : Nat) : ℚ) < x.truncated := by
    rw [hbound]
    linarith
  exact_mod_cast hlt

end Binary64

theorem nearest?_of_le {n : Nat} (h : n ≤ safeBound) : nearest? n = some (.integer n) := by
  have hbound : safeBound < 2 ^ 64 := by decide
  rw [nearest?, ← Binary64.ofDecimal_eq_ofInt (h.trans_lt hbound), Binary64.ofBinary64_ofDecimal h]

theorem nearest?_safeBound_add_one : nearest? (safeBound + 1) = some (.integer safeBound) := by decide

/-- A number that is more than one above 2^53 is nearest to a real that is no integer up to 2^53. -/
theorem nearest?_of_gt {n : Nat} (h : safeBound + 1 < n) (hn : n < 2 ^ 64) :
    ∃ x, ofInt n = some x ∧ nearest? n = some (.real x) ∧ ¬(x.isWhole = true ∧ x.truncated ≤ safeBound) := by
  have hsome := Literal.isSome_ofNatural hn
  rw [Literal.ofNatural] at hsome
  cases hx : ofInt n with
  | none => simp [hx] at hsome
  | some x =>
    have hfar : ¬(x.isWhole = true ∧ x.truncated ≤ safeBound) := fun hnear =>
      Nat.not_le_of_lt (Binary64.lt_truncated_of_ofInt hx h hnear.1) hnear.2
    refine ⟨x, rfl, ?_, hfar⟩
    rw [nearest?, hx, Option.map_some, ofBinary64, if_neg hfar]

end Number

namespace Literal

open Number (nearest? safeBound)
open Source

/-- A number below 2^64 in a base other than ten stands for the number nearest to it, but for the first one
above 2^53, which is kept. -/
theorem ofNatural_eq {n : Nat} (hn : n < 2 ^ 64) :
    ofNatural n = if n = safeBound + 1 then some (.integer n) else nearest? n := by
  rcases Nat.lt_trichotomy n (safeBound + 1) with hlt | rfl | hgt
  · have hnearest := Number.nearest?_of_le (Nat.le_of_lt_succ hlt)
    rw [if_neg (Nat.ne_of_lt hlt), hnearest]
    rw [nearest?, Option.map_eq_some_iff] at hnearest
    obtain ⟨x, hx, hinteger⟩ := hnearest
    have hnear : x.isWhole = true ∧ x.truncated ≤ safeBound := by
      by_contra hfar
      rw [Number.ofBinary64, if_neg hfar] at hinteger
      cases hinteger
    simp [ofNatural, hx, hnear]
  · rw [if_pos rfl]
    decide
  · obtain ⟨x, hx, hnearest, hfar⟩ := Number.nearest?_of_gt hgt hn
    rw [if_neg (Nat.ne_of_gt hgt), hnearest, ofNatural, hx]
    have htest : ¬(x.isWhole && decide (x.truncated ≤ safeBound)) = true := by simpa using hfar
    have hreal : Number.ofBinary64 x = .real x := by rw [Number.ofBinary64, if_neg hfar]
    simp only [if_neg htest, hreal]

/-! ### Digits -/

/-- The digits of a number in a base, in letters of either case, with zeros before them perhaps. -/
def AreDigits (base n : Nat) (ds : List Char) : Prop :=
  ∃ zeros, ds.map lowered = List.replicate zeros '0' ++ Nat.toDigits base n

variable {base n : Nat} {ds text : List Char}

theorem digitValue?_lowered (c : Char) : digitValue? (lowered c) = digitValue? c := by
  by_cases h : 'A' ≤ c ∧ c ≤ 'Z'
  · have hmin : 65 ≤ c.toNat := h.1
    have hmax : c.toNat ≤ 90 := h.2
    have hall : ∀ k < 91, 65 ≤ k → digitValue? (lowered (Char.ofNat k)) = digitValue? (Char.ofNat k) := by
      decide
    rw [← Char.ofNat_toNat c]
    exact hall c.toNat (by omega) hmin
  · rw [lowered, if_neg h]

theorem digitsFrom_map_lowered (base : Nat) : ∀ (ds : List Char) (m : Nat),
    digitsFrom base m (ds.map lowered) = digitsFrom base m ds
  | [], _ => rfl
  | d :: ds, m => by
    simp only [List.map_cons, digitsFrom, digitValue?_lowered, digitsFrom_map_lowered base ds]

theorem digitsFrom_append (base : Nat) : ∀ (as bs : List Char) (m : Nat),
    digitsFrom base m (as ++ bs) = (digitsFrom base m as).bind fun k => digitsFrom base k bs
  | [], _, _ => rfl
  | a :: as, bs, m => by
    rw [List.cons_append, digitsFrom, digitsFrom]
    split
    · split
      · exact digitsFrom_append base as bs _
      · rfl
    · rfl

theorem digitValue?_digitChar : ∀ d < 16, digitValue? d.digitChar = some d := by decide

theorem digitsFrom_digitChar {d : Nat} (hd : d < base) (hbase : base ≤ 16) (m : Nat) :
    digitsFrom base m [d.digitChar] = some (m * base + d) := by
  simp [digitsFrom, digitValue?_digitChar d (by omega), hd]

theorem digitsFrom_toDigits (hbase : 2 ≤ base) (hbase' : base ≤ 16) (n : Nat) :
    digitsFrom base 0 (Nat.toDigits base n) = some n := by
  induction n using Nat.strongRecOn with
  | ind n ih =>
    by_cases hn : n < base
    · rw [Nat.toDigits_of_lt_base hn, digitsFrom_digitChar hn hbase', Nat.zero_mul, Nat.zero_add]
    · have hdiv : n / base < n := Nat.div_lt_self (by omega) (by omega)
      rw [Nat.toDigits_of_base_le (by omega) (Nat.le_of_not_lt hn), digitsFrom_append, ih _ hdiv,
        Option.bind_some,
        digitsFrom_digitChar (Nat.mod_lt n (by omega)) hbase', Nat.mul_comm, Nat.div_add_mod]

theorem digitsFrom_zeros (hbase : 0 < base) : ∀ zeros : Nat,
    digitsFrom base 0 (List.replicate zeros '0') = some 0
  | 0 => rfl
  | zeros + 1 => by
    have hzero : digitValue? '0' = some 0 := rfl
    simp [List.replicate_succ, digitsFrom, hzero, hbase, digitsFrom_zeros hbase zeros]

theorem AreDigits.ne_nil (h : AreDigits base n ds) : ds ≠ [] := by
  rintro rfl
  obtain ⟨zeros, h⟩ := h
  exact Nat.toDigits_ne_nil (List.append_eq_nil_iff.mp h.symm).2

/-- The digits of a number stand for it, in whatever case and with whatever zeros. -/
theorem AreDigits.digits?_eq (h : AreDigits base n ds) (hbase : 2 ≤ base) (hbase' : base ≤ 16) :
    digits? base ds = some n := by
  have hne := h.ne_nil
  obtain ⟨zeros, h⟩ := h
  rw [digits?, if_neg hne, ← digitsFrom_map_lowered, h, digitsFrom_append, digitsFrom_zeros (by omega),
    Option.bind_some, digitsFrom_toDigits hbase hbase']

/-! ### Integer literals -/

/-- The digits that the grammar takes in a base. -/
def isDigitOf (base : Nat) : Char → Bool :=
  if base = 16 then isHexDigit else if base = 8 then isOctalDigit else if base = 2 then isBinaryDigit
  else isDigit

/-- A text is a literal of a number in a base: the digits of a decimal do not start with a zero that could be
left out, those of another base stand after its mark. Underscores are where the grammar takes them. -/
inductive IsInteger (n : Nat) : Nat → List Char → Prop
  | decimal {text : List Char} : groupedLength isDigit text = text.length →
      text.filter (· ≠ '_') = Nat.toDigits 10 n → IsInteger n 10 text
  | marked {base : Nat} {letter : Char} {text : List Char} : (lowered letter, base) ∈ baseMarks →
      groupedLength (isDigitOf base) text = text.length → AreDigits base n (text.filter (· ≠ '_')) →
      IsInteger n base ('0' :: letter :: text)

/-- The mark of a base is written in either case. -/
theorem letter_of_mem_baseMarks {letter : Char} (h : (lowered letter, base) ∈ baseMarks) :
    base = 16 ∧ (letter = 'x' ∨ letter = 'X') ∨ base = 8 ∧ (letter = 'o' ∨ letter = 'O') ∨
      base = 2 ∧ (letter = 'b' ∨ letter = 'B') := by
  have hletter : ∀ mark, lowered letter = mark → letter = mark ∨ letter = Char.ofNat (mark.toNat - 32) := by
    rintro mark rfl
    by_cases hupper : 'A' ≤ letter ∧ letter ≤ 'Z'
    · have hmin : 65 ≤ letter.toNat := hupper.1
      have hmax : letter.toNat ≤ 90 := hupper.2
      have hall : ∀ k < 91, 65 ≤ k → Char.ofNat k = Char.ofNat ((lowered (Char.ofNat k)).toNat - 32) := by
        decide
      have := hall letter.toNat (by omega) hmin
      rw [Char.ofNat_toNat] at this
      exact .inr this
    · rw [lowered, if_neg hupper]
      exact .inl rfl
  simp only [baseMarks, List.mem_cons, Prod.mk.injEq, List.not_mem_nil, or_false] at h
  rcases h with ⟨hmark, rfl⟩ | ⟨hmark, rfl⟩ | ⟨hmark, rfl⟩
  · exact .inl ⟨rfl, hletter 'x' hmark⟩
  · exact .inr (.inl ⟨rfl, hletter 'o' hmark⟩)
  · exact .inr (.inr ⟨rfl, hletter 'b' hmark⟩)

theorem bounds_of_mem_baseMarks {mark : Char} (h : (mark, base) ∈ baseMarks) :
    2 ≤ base ∧ base ≤ 16 ∧ base ≠ 10 := by
  have hall : ∀ e ∈ baseMarks, 2 ≤ e.2 ∧ e.2 ≤ 16 ∧ e.2 ≠ 10 := by decide
  exact hall _ h

theorem parseNumber?_marked {letter : Char} (hmark : (lowered letter, base) ∈ baseMarks)
    (hdigits : AreDigits base n (text.filter (· ≠ '_'))) (hn : n < 2 ^ 64) :
    parseNumber? (String.ofList ('0' :: letter :: text)) = ofNatural n := by
  obtain ⟨hmin, hmax, -⟩ := bounds_of_mem_baseMarks hmark
  have hvalue := hdigits.digits?_eq hmin hmax
  have hletter : letter ≠ '_' ∧ letter ≠ 'n' := by
    constructor <;> rintro rfl <;> simp [baseMarks, lowered] at hmark
  have hfilter : ('0' :: letter :: text).filter (· ≠ '_') = '0' :: letter :: text.filter (· ≠ '_') := by
    simp [hletter.1]
  have hlast : ('0' :: letter :: text.filter (· ≠ '_')).getLast? ≠ some 'n' := fun hlast => by
    have hmem := List.mem_of_getLast? hlast
    rw [List.mem_cons, List.mem_cons] at hmem
    obtain ⟨d, hd, -⟩ := digitValue?_of_digits? hvalue 'n'
      ((hmem.resolve_left (by decide)).resolve_left hletter.2.symm)
    cases hd
  have hradix : radix? (('0' :: letter :: text.filter (· ≠ '_')).map lowered) =
      some (base, (text.filter (· ≠ '_')).map lowered) := radix?_eq_some_iff.mpr ⟨_, hmark, rfl⟩
  have hlowered : digits? base ((text.filter (· ≠ '_')).map lowered) = some n := by
    rw [← hvalue, digits?, digits?, digitsFrom_map_lowered]
    simp only [List.map_eq_nil_iff]
  have hbound : decide (n < wordBound) = true := decide_eq_true hn
  rw [parseNumber?, String.toList_ofList, hfilter]
  simp only [if_neg hlast, hradix, digitsBelow?, hlowered, Option.filter_some, hbound, if_true,
    Option.bind_some]

theorem isDigitOf_stop {c : Char} (hc : c ∈ Parser.stopChars) (base : Nat) : isDigitOf base c = false := by
  have hall : Parser.stopChars.all (fun c => isHexDigit c = false ∧ isOctalDigit c = false ∧
      isBinaryDigit c = false ∧ isDigit c = false) = true := by decide
  obtain ⟨hhex, hoctal, hbinary, hdecimal⟩ := of_decide_eq_true (List.all_eq_true.mp hall c hc)
  unfold isDigitOf
  split
  · exact hhex
  split
  · exact hoctal
  split
  · exact hbinary
  · exact hdecimal

section

variable {letter : Char} (hmark : (lowered letter, base) ∈ baseMarks)

include hmark

/-- After the mark of a base, its digits are read. -/
theorem radixLength_marked {cs : List Char} {k : Nat} (hk : k ≠ 0)
    (h : groupedLength (isDigitOf base) cs = k) : radixLength ('0' :: letter :: cs) = k + 2 := by
  have hmarked : radixLength ('0' :: letter :: cs) =
      if groupedLength (isDigitOf base) cs = 0 then 0 else groupedLength (isDigitOf base) cs + 2 := by
    rcases letter_of_mem_baseMarks hmark with ⟨rfl, rfl | rfl⟩ | ⟨rfl, rfl | rfl⟩ | ⟨rfl, rfl | rfl⟩ <;>
      simp [radixLength, isDigitOf]
  rw [hmarked, h, if_neg hk]

/-- The mark of a base ends the digits of a decimal, which has no fraction then. -/
theorem decimalLength_marked (cs : List Char) : groupedLength isDigit ('0' :: letter :: cs) = 1 ∧
    fractionLength ('0' :: letter :: cs) = 0 ∧ letter ≠ 'n' := by
  have hzero : isDigit '0' = true := by decide
  obtain ⟨hdigit, hne⟩ : isDigit letter = false ∧ letter ∉ ['_', '.', 'e', 'E', 'n'] := by
    rcases letter_of_mem_baseMarks hmark with ⟨-, rfl | rfl⟩ | ⟨-, rfl | rfl⟩ | ⟨-, rfl | rfl⟩ <;> decide
  simp only [List.mem_cons, List.not_mem_nil, or_false, not_or] at hne
  have hhead : ¬letter = '0' := by
    rintro rfl
    cases hdigit
  refine ⟨?_, ?_, hne.2.2.2.2⟩
  · simp [groupedLength, moreDigitsLength, hzero, hdigit, hne]
  · simp [fractionLength, integerLength, nonZeroLength, groupedLength, exponentLength, hdigit, hne, hhead]

end

/-- An integer literal is one numeral to the grammar. -/
theorem IsInteger.isNumeral (h : IsInteger n base text) : IsNumeral text := by
  cases h with
  | decimal hgrouped hdigits =>
    refine isNumeral_of_groupedLength ?_ hgrouped
    rintro rfl
    exact Nat.toDigits_ne_nil hdigits.symm
  | @marked _ letter text hmark hgrouped hdigits =>
    refine ⟨⟨'0', _, rfl, by decide⟩, fun c hc cs => ?_⟩
    obtain ⟨-, hne⟩ := stop_ends_number hc
    have hunderscore : c ≠ '_' := fun h => hne (by simp [h])
    have hbig : c ≠ 'n' := fun h => hne (by simp [h])
    have hempty : text.length ≠ 0 := fun hlength => by
      rw [List.length_eq_zero_iff.mp hlength] at hdigits
      exact hdigits.ne_nil rfl
    have hlength : groupedLength (isDigitOf base) (text ++ c :: cs) = text.length := by
      rw [groupedLength_append (isDigitOf_stop hc base) hunderscore, hgrouped]
    have hradix := radixLength_marked hmark hempty hlength
    obtain ⟨hdecimal, hfraction, hletter⟩ := decimalLength_marked hmark (text ++ c :: cs)
    simp [numberLength, withBigMark, hradix, hdecimal, hfraction, hbig, hletter]

/-- The number of an integer literal is the nearest one in base ten, and in other bases but for the first
number above 2^53. -/
theorem IsInteger.parseNumber?_eq (h : IsInteger n base text) (hn : n < 2 ^ 64) :
    parseNumber? (String.ofList text) =
      if base ≠ 10 ∧ n = safeBound + 1 then some (.integer n) else nearest? n := by
  cases h with
  | decimal _ hdigits =>
    rw [if_neg (by simp), parseNumber?_decimal hdigits, Number.Binary64.ofDecimal_eq_ofInt hn]
    rfl
  | marked hmark _ hdigits =>
    obtain ⟨-, -, hten⟩ := bounds_of_mem_baseMarks hmark
    rw [parseNumber?_marked hmark hdigits hn, ofNatural_eq hn]
    simp [hten]

end Literal

end StoryManifest
