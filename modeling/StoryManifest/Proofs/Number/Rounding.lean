import StoryManifest.Proofs.Number.Range

/-!
How far rounding goes. The number nearest to a ratio differs from it by at most one part in 2^53 of the
ratio, or of the smallest number that uses all bits where the ratio is below it. Products and quotients
are rounded in the same way, once.
-/

namespace StoryManifest.Number.Binary64

variable {negative : Bool} {num den : Nat} {x y z : Binary64}

/-- The number without its sign. -/
def magnitude (x : Binary64) : ℚ := x.significand * 2 ^ x.exponent

/-- The smallest number that uses all bits. -/
def leastNormal : ℚ := 2 ^ (-1022 : Int)

/-- The part of a ratio by which rounding may change it. -/
def roundingPart : ℚ := 2 ^ (-53 : Int)

theorem magnitude_nonneg (x : Binary64) : 0 ≤ x.magnitude := by unfold magnitude; positivity

theorem leastNormal_le_one : leastNormal ≤ 1 := zpow_le_one_of_nonpos₀ (by norm_num) (by decide)

/-- A number of at most 53 bits that is not above the greatest one. -/
structure IsFinite (x : Binary64) : Prop where
  significand_lt : x.significand < 2 ^ 53
  exponent_le : x.exponent ≤ greatestExponent

theorem isFinite_zero (negative : Bool) : (zero negative).IsFinite :=
  ⟨show 0 < 2 ^ 53 by decide, show leastExponent ≤ greatestExponent by decide⟩

theorem IsFinite.neg (h : x.IsFinite) : x.neg.IsFinite := ⟨h.1, h.2⟩

/-! ### Rounded quotients -/

theorem roundDiv_cases (num den : Nat) :
    (roundDiv num den = num / den ∧ 2 * (num % den) ≤ den) ∨
      (roundDiv num den = num / den + 1 ∧ den ≤ 2 * (num % den)) := by
  unfold roundDiv
  rcases Nat.lt_trichotomy (2 * (num % den)) den with hlt | heq | hgt
  · exact .inl ⟨if_pos hlt, hlt.le⟩
  · rw [if_neg heq.not_lt, if_neg heq.symm.not_lt]
    rcases Nat.mod_two_eq_zero_or_one (num / den) with heven | hodd
    · exact .inl ⟨by rw [heven, Nat.add_zero], heq.le⟩
    · exact .inr ⟨by rw [hodd], heq.ge⟩
  · exact .inr ⟨by rw [if_neg hgt.not_gt, if_pos hgt], hgt.le⟩

theorem abs_roundDiv_sub_le (hden : den ≠ 0) : |(roundDiv num den : ℚ) - num / den| ≤ 1 / 2 := by
  have hpos : (0 : ℚ) < den := by positivity
  have hsplit : (num : ℚ) / den = (num / den : Nat) + (num % den : Nat) / den := by
    rw [eq_comm, eq_div_iff hpos.ne', add_mul, div_mul_cancel₀ _ hpos.ne']
    exact_mod_cast Nat.div_add_mod' num den
  have hpart : 0 ≤ ((num % den : Nat) : ℚ) / den := by positivity
  have hwhole : ((num % den : Nat) : ℚ) / den ≤ 1 :=
    (div_le_one hpos).mpr (by exact_mod_cast (Nat.mod_lt num (Nat.pos_of_ne_zero hden)).le)
  rw [hsplit, abs_le]
  rcases roundDiv_cases num den with ⟨hround, hhalf⟩ | ⟨hround, hhalf⟩
  · have hle : ((num % den : Nat) : ℚ) / den ≤ 1 / 2 := by
      rw [div_le_iff₀ hpos]
      have : (2 : ℚ) * (num % den : Nat) ≤ den := by exact_mod_cast hhalf
      linarith
    rw [hround]
    constructor <;> linarith
  · have hge : 1 / 2 ≤ ((num % den : Nat) : ℚ) / den := by
      rw [le_div_iff₀ hpos]
      have : (den : ℚ) ≤ 2 * (num % den : Nat) := by exact_mod_cast hhalf
      linarith
    rw [hround, Nat.cast_succ]
    constructor <;> linarith

theorem roundDiv_le (hden : den ≠ 0) (h : (num : ℚ) / den < 2 ^ (53 : Int)) : roundDiv num den ≤ 2 ^ 53 := by
  have hpos : (0 : ℚ) < den := by positivity
  have hlt : num < 2 ^ 53 * den := by
    rw [div_lt_iff₀ hpos] at h
    exact_mod_cast h
  have hquotient : num / den < 2 ^ 53 := (Nat.div_lt_iff_lt_mul (Nat.pos_of_ne_zero hden)).mpr hlt
  rcases roundDiv_cases num den with ⟨hround, -⟩ | ⟨hround, -⟩ <;> omega

/-! ### Rounded ratios -/

/-- What a number nearest to a ratio is made of. A significand that is rounded up to a power of two is
halved, with the next exponent. -/
theorem exists_of_ofRatio (hnum : num ≠ 0) (hden : den ≠ 0) (h : ofRatio negative num den = some x) :
    x.IsFinite ∧ ∃ n d : Nat, d ≠ 0 ∧ (n : ℚ) / d * 2 ^ exponentFor num den = num / den ∧
      x.magnitude = roundDiv n d * 2 ^ exponentFor num den := by
  obtain ⟨hupper, -⟩ := exponentFor_bounds hnum hden
  obtain ⟨hd, hscaled⟩ := scaled_ratio num hden (exponentFor num den)
  simp only [ofRatio, if_neg hnum] at h
  generalize exponentFor num den = e at *
  generalize (scaled num den e).1 = n at *
  generalize (scaled num den e).2 = d at *
  have hratio : (n : ℚ) / d * 2 ^ e = num / den := by
    rw [hscaled, mul_assoc, ← zpow_add₀ (by norm_num), neg_add_cancel, zpow_zero, mul_one]
  have hround : roundDiv n d ≤ 2 ^ 53 := by
    refine roundDiv_le hd ?_
    rw [hscaled, zpow_neg, ← div_eq_mul_inv, div_lt_iff₀ (by positivity), ← zpow_add₀ (by norm_num)]
    exact hupper
  have hpow : Nat.pow 2 53 = 2 ^ 53 := rfl
  rw [hpow] at h
  by_cases htop : roundDiv n d = 2 ^ 53
  · simp only [if_pos htop, Option.ite_none_left_eq_some, not_lt] at h
    obtain ⟨hle, hx⟩ := h
    obtain rfl := Option.some.inj hx
    refine ⟨⟨show halfRange < 2 ^ 53 by decide, hle⟩, n, d, hd, hratio, ?_⟩
    have hhalf : ((halfRange : Nat) : ℚ) * 2 = 2 ^ 53 := by norm_num [halfRange]
    rw [magnitude, htop, zpow_add_one₀ (by norm_num), mul_comm _ (2 : ℚ), ← mul_assoc, hhalf]
    norm_num
  · simp only [if_neg htop, Option.ite_none_left_eq_some, not_lt] at h
    obtain ⟨hle, hx⟩ := h
    obtain rfl := Option.some.inj hx
    exact ⟨⟨lt_of_le_of_ne hround htop, hle⟩, n, d, hd, hratio, rfl⟩

theorem isFinite_ofRatio (hden : den ≠ 0) (h : ofRatio negative num den = some x) : x.IsFinite := by
  by_cases hnum : num = 0
  · rw [ofRatio, if_pos hnum] at h
    obtain rfl := Option.some.inj h
    exact isFinite_zero negative
  · exact (exists_of_ofRatio hnum hden h).1

/-- Rounding changes a ratio by at most one part in 2^53. -/
theorem abs_magnitude_sub_le (hden : den ≠ 0) (h : ofRatio negative num den = some x) :
    |x.magnitude - num / den| ≤ max ((num : ℚ) / den) leastNormal * roundingPart := by
  have hpart : 0 ≤ roundingPart := by unfold roundingPart; positivity
  by_cases hnum : num = 0
  · rw [ofRatio, if_pos hnum] at h
    obtain rfl := Option.some.inj h
    have hzero : (zero negative).magnitude = 0 := by simp [magnitude, zero]
    rw [hzero, hnum, Nat.cast_zero, zero_div, sub_zero, abs_zero]
    exact mul_nonneg (le_max_left _ _) hpart
  obtain ⟨-, n, d, hd, hratio, hmagnitude⟩ := exists_of_ofRatio hnum hden h
  obtain ⟨-, hlower⟩ := exponentFor_bounds hnum hden
  generalize exponentFor num den = e at *
  -- The ratio, or the smallest number with all bits, is at least 2^52 units.
  have hunit : (2 : ℚ) ^ (52 + e) ≤ max ((num : ℚ) / den) leastNormal := by
    rcases hlower with hleast | hlower
    · rw [hleast, leastExponent]
      exact le_max_right _ _
    · exact hlower.trans (le_max_left _ _)
  have hhalf : (2 : ℚ) ^ (52 + e) * roundingPart = 1 / 2 * 2 ^ e := by
    rw [roundingPart, ← zpow_add₀ (by norm_num), add_right_comm, zpow_add₀ (by norm_num)]
    norm_num
  have hpos : (0 : ℚ) < 2 ^ e := zpow_pos two_pos e
  calc |x.magnitude - num / den| = |(roundDiv n d : ℚ) - n / d| * 2 ^ e := by
        rw [hmagnitude, ← hratio, ← sub_mul, abs_mul, abs_of_pos hpos]
    _ ≤ 1 / 2 * 2 ^ e := by gcongr; exact abs_roundDiv_sub_le hd
    _ ≤ max ((num : ℚ) / den) leastNormal * roundingPart := by rw [← hhalf]; gcongr

theorem magnitude_le_of_ofRatio (hden : den ≠ 0) (h : ofRatio negative num den = some x) :
    x.magnitude ≤ max ((num : ℚ) / den) leastNormal * (1 + roundingPart) := by
  have habs := (abs_le.mp (abs_magnitude_sub_le hden h)).2
  have hmax := le_max_left ((num : ℚ) / den) leastNormal
  linarith

/-! ### Products and quotients -/

theorem scaled_mul (x y : Binary64) :
    (scaled (x.significand * y.significand) 1 (-(x.exponent + y.exponent))).2 ≠ 0 ∧
    ((scaled (x.significand * y.significand) 1 (-(x.exponent + y.exponent))).1 : ℚ) /
      (scaled (x.significand * y.significand) 1 (-(x.exponent + y.exponent))).2 =
        x.magnitude * y.magnitude := by
  obtain ⟨hd, hratio⟩ := scaled_ratio (x.significand * y.significand) one_ne_zero
    (-(x.exponent + y.exponent))
  refine ⟨hd, hratio.trans ?_⟩
  rw [neg_neg, zpow_add₀ (by norm_num), magnitude, magnitude]
  push_cast
  ring

theorem scaled_div (x : Binary64) (hy : y.significand ≠ 0) :
    (scaled x.significand y.significand (y.exponent - x.exponent)).2 ≠ 0 ∧
    ((scaled x.significand y.significand (y.exponent - x.exponent)).1 : ℚ) /
      (scaled x.significand y.significand (y.exponent - x.exponent)).2 = x.magnitude / y.magnitude := by
  obtain ⟨hd, hratio⟩ := scaled_ratio x.significand hy (y.exponent - x.exponent)
  refine ⟨hd, hratio.trans ?_⟩
  rw [neg_sub, zpow_sub₀ (by norm_num), magnitude, magnitude, div_mul_div_comm]

theorem isSome_mul_iff (x y : Binary64) :
    (x.mul y).isSome = true ↔ x.magnitude * y.magnitude < overflowBound := by
  obtain ⟨hd, hratio⟩ := scaled_mul x y
  rw [mul, isSome_ofRatio_iff _ hd, hratio]

theorem isSome_div_iff (x : Binary64) (hy : y.significand ≠ 0) :
    (x.div y).isSome = true ↔ x.magnitude / y.magnitude < overflowBound := by
  obtain ⟨hd, hratio⟩ := scaled_div x hy
  rw [div, isSome_ofRatio_iff _ hd, hratio]

theorem magnitude_div_le (hy : y.significand ≠ 0) (h : x.div y = some z) :
    z.magnitude ≤ max (x.magnitude / y.magnitude) leastNormal * (1 + roundingPart) := by
  obtain ⟨hd, hratio⟩ := scaled_div x hy
  rw [← hratio]
  exact magnitude_le_of_ofRatio hd h

/-! ### Whole numbers and decimals -/

theorem isSome_ofInt_iff (n : Nat) : (ofInt n).isSome = true ↔ (n : ℚ) < overflowBound := by
  rw [ofInt, isSome_ofRatio_iff _ one_ne_zero, Int.natAbs_natCast, Nat.cast_one, div_one]

theorem magnitude_ofInt_le {n : Nat} (h : ofInt n = some x) : x.magnitude ≤ n * (1 + roundingPart) := by
  rw [ofInt, Int.natAbs_natCast] at h
  have hle := magnitude_le_of_ofRatio one_ne_zero h
  rw [Nat.cast_one, div_one] at hle
  by_cases hn : n = 0
  · subst hn
    rw [ofRatio, if_pos rfl] at h
    rw [← Option.some.inj h]
    simp [magnitude, zero]
  · have hlarge : (1 : ℚ) ≤ n := by exact_mod_cast Nat.one_le_iff_ne_zero.mpr hn
    rwa [max_eq_left (leastNormal_le_one.trans hlarge)] at hle

theorem isFinite_ofInt {n : Int} (h : ofInt n = some x) : x.IsFinite := isFinite_ofRatio one_ne_zero h

theorem isFinite_ofDecimal {digits : Nat} {exponent : Int}
    (h : ofDecimal negative digits exponent = some x) :
    x.IsFinite := by
  have hzero : ∀ {y}, some (zero negative) = some y → y.IsFinite := fun hy => by
    rw [← Option.some.inj hy]
    exact isFinite_zero negative
  simp only [ofDecimal] at h
  split at h
  · exact hzero h
  split at h
  · cases h
  split at h
  · exact hzero h
  split at h
  · exact isFinite_ofRatio (Nat.pos_iff_ne_zero.mp (Nat.pow_pos (by decide))) h
  · exact isFinite_ofRatio one_ne_zero h

end StoryManifest.Number.Binary64
