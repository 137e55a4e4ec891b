import Mathlib.Algebra.Order.Field.Power
import Mathlib.Algebra.Order.Ring.Rat
import Mathlib.Tactic.FieldSimp
import Mathlib.Tactic.GCongr
import Mathlib.Tactic.Linarith
import Mathlib.Tactic.NormNum
import Mathlib.Tactic.Positivity
import Mathlib.Tactic.Ring
import StoryManifest.Number.Binary64

/-!
Which numbers are finite. A ratio has a nearest 64-bit number exactly when it is below the middle between
the greatest finite number and the power of two after it; the middle itself is rounded up, to the even
side. The same holds of decimals, also of those far outside the range, which are settled by the count of
their digits.
-/

namespace StoryManifest.Number.Binary64

/-- The middle between the greatest finite number and the power of two after it. -/
def overflowBound : ℚ := (2 ^ 54 - 1) * 2 ^ 970

variable {num den : Nat}

/-! ### Scaling -/

theorem scaled_ratio (num : Nat) (hden : den ≠ 0) (e : Int) : (scaled num den e).2 ≠ 0 ∧
    ((scaled num den e).1 : ℚ) / (scaled num den e).2 = num / den * 2 ^ (-e) := by
  have hq : (den : ℚ) ≠ 0 := Nat.cast_ne_zero.mpr hden
  unfold scaled
  split
  · rename_i h
    have he : -e = (e.natAbs : Int) := by omega
    refine ⟨hden, ?_⟩
    rw [he, zpow_natCast]
    push_cast [Nat.pow_eq]
    field_simp
  · rename_i h
    have he : e = (e.natAbs : Int) := by omega
    refine ⟨Nat.mul_ne_zero hden (Nat.pos_iff_ne_zero.mp (Nat.pow_pos (by decide))), ?_⟩
    rw [zpow_neg, he, zpow_natCast, Int.natAbs_natCast]
    push_cast [Nat.pow_eq]
    field_simp

/-- A ratio lies between the powers of two that the lengths of its parts tell. -/
theorem ratio_bounds (hnum : num ≠ 0) (hden : den ≠ 0) :
    (2 : ℚ) ^ ((num.log2 : Int) - den.log2 - 1) < num / den ∧
      (num : ℚ) / den < 2 ^ ((num.log2 : Int) - den.log2 + 1) := by
  have hbounds : ∀ n : Nat, n ≠ 0 → (2 : ℚ) ^ (n.log2 : Int) ≤ n ∧ (n : ℚ) < 2 ^ ((n.log2 : Int) + 1) := by
    intro n hn
    have hlow : 2 ^ n.log2 ≤ n := Nat.log2_self_le hn
    have hhigh : n < 2 ^ (n.log2 + 1) := Nat.lt_log2_self
    constructor
    · rw [zpow_natCast]
      exact_mod_cast hlow
    · rw [← Nat.cast_succ, zpow_natCast]
      exact_mod_cast hhigh
  obtain ⟨hn, hn'⟩ := hbounds num hnum
  obtain ⟨hd, hd'⟩ := hbounds den hden
  have hpos : (0 : ℚ) < den := by positivity
  constructor
  · calc (2 : ℚ) ^ ((num.log2 : Int) - den.log2 - 1)
        = 2 ^ (num.log2 : Int) / 2 ^ ((den.log2 : Int) + 1) := by
          rw [← zpow_sub₀ (by norm_num), sub_sub]
      _ ≤ num / 2 ^ ((den.log2 : Int) + 1) := by gcongr
      _ < num / den := by gcongr
  · calc (num : ℚ) / den ≤ num / 2 ^ (den.log2 : Int) := by gcongr
      _ < 2 ^ ((num.log2 : Int) + 1) / 2 ^ (den.log2 : Int) := by gcongr
      _ = 2 ^ ((num.log2 : Int) - den.log2 + 1) := by
          rw [← zpow_sub₀ (by norm_num), add_sub_right_comm]

/-- With its exponent a ratio needs at most 53 bits, and all of them unless the exponent is the least. -/
theorem exponentFor_bounds (hnum : num ≠ 0) (hden : den ≠ 0) :
    (num : ℚ) / den < 2 ^ (53 + exponentFor num den) ∧
      (exponentFor num den = leastExponent ∨ (2 : ℚ) ^ (52 + exponentFor num den) ≤ num / den) := by
  obtain ⟨hlow, hhigh⟩ := ratio_bounds hnum hden
  set guess : Int := (num.log2 : Int) - (den.log2 : Int) - 53 with hguess
  obtain ⟨hd, hscaled⟩ := scaled_ratio num hden guess
  have htest : Nat.pow 2 53 ≤ (scaled num den guess).1 / (scaled num den guess).2 ↔
      (2 : ℚ) ^ (53 + guess) ≤ num / den := by
    rw [Nat.le_div_iff_mul_le (Nat.pos_of_ne_zero hd), ← Nat.cast_le (α := ℚ), Nat.cast_mul,
      ← le_div_iff₀ (by positivity), hscaled, zpow_neg, ← div_eq_mul_inv, le_div_iff₀ (by positivity),
      zpow_add₀ (by norm_num)]
    norm_num
  -- The exponent before it is held at the least one.
  obtain ⟨e, he, hupper, hlower⟩ : ∃ e, exponentFor num den = max leastExponent e ∧
      (num : ℚ) / den < 2 ^ (53 + e) ∧ (2 : ℚ) ^ (52 + e) ≤ num / den := by
    by_cases h : Nat.pow 2 53 ≤ (scaled num den guess).1 / (scaled num den guess).2
    · have htop : 53 + (guess + 1) = (num.log2 : Int) - den.log2 + 1 := by omega
      have hbottom : 52 + (guess + 1) = 53 + guess := by omega
      refine ⟨guess + 1, by simp only [exponentFor, ← hguess, if_pos h], ?_, ?_⟩
      · rwa [htop]
      · rw [hbottom]
        exact htest.mp h
    · have hbottom : 52 + guess = (num.log2 : Int) - den.log2 - 1 := by omega
      refine ⟨guess, by simp only [exponentFor, ← hguess, if_neg h], ?_, ?_⟩
      · exact lt_of_not_ge fun hle => h (htest.mpr hle)
      · rw [hbottom]
        exact le_of_lt hlow
  rw [he]
  rcases le_total leastExponent e with hle | hle
  · rw [max_eq_right hle]
    exact ⟨hupper, .inr hlower⟩
  · rw [max_eq_left hle]
    refine ⟨lt_of_lt_of_le hupper ?_, .inl rfl⟩
    exact zpow_le_zpow_right₀ (by norm_num) (by omega)

/-! ### Rounding -/

/-- A quotient below a power of two is rounded up to it from half a unit below on. -/
theorem roundDiv_eq_pow_iff (h : num < 2 ^ 53 * den) :
    roundDiv num den = Nat.pow 2 53 ↔ (2 ^ 54 - 1) * den ≤ 2 * num := by
  have hden : 0 < den := Nat.pos_of_ne_zero fun h₀ => by simp [h₀] at h
  have hq : num / den < 2 ^ 53 := (Nat.div_lt_iff_lt_mul hden).mpr h
  have hsplit := Nat.div_add_mod num den
  have hr := Nat.mod_lt num hden
  have hpow : Nat.pow 2 53 = 2 ^ 53 := rfl
  rw [roundDiv, hpow]
  generalize num / den = q at *
  generalize num % den = r at *
  rcases Nat.lt_or_ge q (2 ^ 53 - 1) with hlt | hge
  · -- One unit further down, rounding up does not reach the power.
    have hmul : den * q ≤ den * (2 ^ 53 - 2) := Nat.mul_le_mul_left den (by omega)
    have hfar : ¬(2 ^ 54 - 1) * den ≤ 2 * num := by omega
    refine iff_of_false ?_ hfar
    split
    · omega
    · split <;> omega
  · obtain rfl : q = 2 ^ 53 - 1 := by omega
    split
    · omega
    · split <;> omega

/-! ### Finite numbers -/

theorem pow_le_overflowBound : (2 : ℚ) ^ (1023 : Int) ≤ overflowBound :=
  calc (2 : ℚ) ^ (1023 : Int) = 2 ^ 53 * 2 ^ 970 := by rw [← pow_add]; rfl
    _ ≤ (2 ^ 54 - 1) * 2 ^ 970 := by gcongr; norm_num

theorem overflowBound_le_pow : overflowBound ≤ (2 : ℚ) ^ (1024 : Int) :=
  calc (2 ^ 54 - 1 : ℚ) * 2 ^ 970 ≤ 2 ^ 54 * 2 ^ 970 := by gcongr; norm_num
    _ = 2 ^ (1024 : Int) := by rw [← pow_add]; rfl

/-- With the greatest exponent the bound is half a unit below the power of two. -/
theorem lt_overflowBound_iff (hden : den ≠ 0) :
    (num : ℚ) / den * 2 ^ greatestExponent < overflowBound ↔ 2 * num < (2 ^ 54 - 1) * den := by
  have hpos : (0 : ℚ) < den := by positivity
  have hunit : (2 : ℚ) ^ greatestExponent = 2 * 2 ^ 970 := by
    rw [← pow_succ']
    exact zpow_ofNat 2 971
  have hhalf : ∀ unit : ℚ, (num : ℚ) / den * (2 * unit) = 2 * num / den * unit := fun unit => by ring
  have hunits : (0 : ℚ) < 2 ^ 970 := pow_pos (by norm_num) _
  rw [hunit, hhalf, overflowBound, mul_lt_mul_iff_left₀ hunits, div_lt_iff₀ hpos, ← Nat.cast_lt (α := ℚ)]
  norm_num

/-- A ratio has a nearest number when it is below the bound. -/
theorem isSome_ofRatio_iff (negative : Bool) (hden : den ≠ 0) :
    (ofRatio negative num den).isSome = true ↔ (num : ℚ) / den < overflowBound := by
  by_cases hnum : num = 0
  · have hpos : (0 : ℚ) < overflowBound := lt_of_lt_of_le (by positivity) pow_le_overflowBound
    simpa [ofRatio, hnum] using hpos
  obtain ⟨hupper, hlower⟩ := exponentFor_bounds hnum hden
  obtain ⟨hd, hscaled⟩ := scaled_ratio num hden (exponentFor num den)
  have hresult : (ofRatio negative num den).isSome = true ↔ ¬greatestExponent <
      if roundDiv (scaled num den (exponentFor num den)).1 (scaled num den (exponentFor num den)).2 =
        Nat.pow 2 53 then exponentFor num den + 1 else exponentFor num den := by
    simp only [ofRatio, if_neg hnum]
    split <;> split <;> simp_all
  rw [hresult]
  generalize exponentFor num den = e at hupper hlower hd hscaled
  generalize (scaled num den e).1 = n at hscaled
  generalize (scaled num den e).2 = d at hscaled hd
  have hratio : (num : ℚ) / den = n / d * 2 ^ e := by
    rw [hscaled, mul_assoc, ← zpow_add₀ (by norm_num), neg_add_cancel, zpow_zero, mul_one]
  have hbelow : n < 2 ^ 53 * d := by
    have hlt : (n : ℚ) / d < 2 ^ 53 := by
      rw [hratio, zpow_add₀ (by norm_num)] at hupper
      exact lt_of_mul_lt_mul_right hupper (by positivity)
    rw [div_lt_iff₀ (by positivity)] at hlt
    exact_mod_cast hlt
  have hround := roundDiv_eq_pow_iff hbelow
  rcases lt_trichotomy e greatestExponent with hlt | rfl | hgt
  · -- Whatever rounding does, the exponent is not too large.
    refine iff_of_true (by split <;> omega) (lt_of_lt_of_le hupper ?_)
    rw [greatestExponent] at hlt
    exact (zpow_le_zpow_right₀ (by norm_num) (by omega)).trans pow_le_overflowBound
  · -- Only rounding up to the next power of two makes it too large.
    have htest : (greatestExponent < if roundDiv n d = Nat.pow 2 53 then greatestExponent + 1
        else greatestExponent) ↔ roundDiv n d = Nat.pow 2 53 := by
      split
      · exact iff_of_true (by omega) ‹_›
      · exact iff_of_false (by omega) ‹_›
    rw [htest, hround, not_le, hratio, lt_overflowBound_iff hd]
  · refine iff_of_false (not_not.mpr (by split <;> omega)) (not_lt.mpr (overflowBound_le_pow.trans ?_))
    rw [greatestExponent] at hgt
    rcases hlower with hleast | hlower
    · rw [leastExponent] at hleast
      omega
    · exact (zpow_le_zpow_right₀ (by norm_num) (by omega)).trans hlower

/-! ### Decimals -/

theorem digitCount_bounds {n : Nat} (h : n ≠ 0) :
    10 ^ (digitCount n - 1) ≤ n ∧ n < 10 ^ digitCount n ∧ 0 < digitCount n := by
  have hpos : 0 < digitCount n := List.length_pos_iff.mpr Nat.toDigits_ne_nil
  refine ⟨?_, (Nat.length_toDigits_le_iff (by decide) hpos).mp (Nat.le_refl _), hpos⟩
  by_contra hlt
  rcases Nat.eq_zero_or_pos (digitCount n - 1) with hone | hmore
  · rw [hone] at hlt
    omega
  · have hle := (Nat.length_toDigits_le_iff (by decide) hmore).mpr (Nat.lt_of_not_le hlt)
    rw [← digitCount] at hle
    omega

/-- A decimal lies between the powers of ten that the count of its digits tells. -/
theorem decimal_bounds {digits : Nat} (h : digits ≠ 0) (exponent : Int) :
    (10 : ℚ) ^ (exponent + digitCount digits - 1) ≤ digits * 10 ^ exponent ∧
      (digits : ℚ) * 10 ^ exponent < 10 ^ (exponent + digitCount digits) := by
  obtain ⟨hlow, hhigh, hpos⟩ := digitCount_bounds h
  have hlow' : (10 : ℚ) ^ (digitCount digits - 1) ≤ digits := by exact_mod_cast hlow
  have hhigh' : (digits : ℚ) < 10 ^ digitCount digits := by exact_mod_cast hhigh
  have hunit : (0 : ℚ) < 10 ^ exponent := by positivity
  constructor
  · calc (10 : ℚ) ^ (exponent + digitCount digits - 1)
        = 10 ^ (digitCount digits - 1) * 10 ^ exponent := by
          rw [← zpow_natCast, ← zpow_add₀ (by norm_num), Nat.cast_sub hpos]
          congr 1
          ring
      _ ≤ digits * 10 ^ exponent := by gcongr
  · calc (digits : ℚ) * 10 ^ exponent < 10 ^ digitCount digits * 10 ^ exponent := by gcongr
      _ = 10 ^ (exponent + digitCount digits) := by
          rw [← zpow_natCast, ← zpow_add₀ (by norm_num), add_comm]

theorem overflowBound_le_pow_ten : overflowBound ≤ (10 : ℚ) ^ (310 : Int) :=
  calc overflowBound ≤ 2 ^ (1024 : Int) := overflowBound_le_pow
    _ = 2 * (2 ^ 93) ^ 11 := by rw [← pow_mul, ← pow_succ']; rfl
    _ ≤ 10 ^ 2 * (10 ^ 28) ^ 11 := by gcongr <;> norm_num
    _ = 10 ^ (310 : Int) := by rw [← pow_mul, ← pow_add]; rfl

/-- A decimal has a nearest number when it is below the bound. -/
theorem isSome_ofDecimal_iff (negative : Bool) (digits : Nat) (exponent : Int) :
    (ofDecimal negative digits exponent).isSome = true ↔
      (digits : ℚ) * 10 ^ exponent < overflowBound := by
  have hone : (1 : ℚ) ≤ overflowBound :=
    (one_le_zpow₀ (by norm_num) (by decide)).trans pow_le_overflowBound
  by_cases h : digits = 0
  · have hpos : (0 : ℚ) < overflowBound := lt_of_lt_of_le (by norm_num) hone
    simpa [ofDecimal, h] using hpos
  obtain ⟨hlow, hhigh⟩ := decimal_bounds h exponent
  simp only [ofDecimal, if_neg h]
  split
  · refine iff_of_false (by simp) (not_lt.mpr (overflowBound_le_pow_ten.trans ?_))
    exact (zpow_le_zpow_right₀ (by norm_num) (by omega)).trans hlow
  · split
    · refine iff_of_true rfl (lt_of_lt_of_le hhigh (le_trans ?_ hone))
      exact zpow_le_one_of_nonpos₀ (by norm_num) (by omega)
    · split
      · obtain ⟨k, rfl⟩ : ∃ k : Nat, exponent = -(k : Int) := ⟨exponent.natAbs, by omega⟩
        have hpow : Nat.pow 10 k ≠ 0 := Nat.pos_iff_ne_zero.mp (Nat.pow_pos (by decide))
        rw [Int.natAbs_neg, Int.natAbs_natCast, isSome_ofRatio_iff _ hpow, Nat.pow_eq, Nat.cast_pow,
          zpow_neg, zpow_natCast, div_eq_mul_inv, Nat.cast_ofNat]
      · obtain ⟨k, rfl⟩ : ∃ k : Nat, exponent = (k : Int) := ⟨exponent.natAbs, by omega⟩
        rw [Int.natAbs_natCast, isSome_ofRatio_iff _ (by decide), Nat.pow_eq, zpow_natCast]
        norm_num

end StoryManifest.Number.Binary64
