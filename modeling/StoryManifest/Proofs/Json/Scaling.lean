import StoryManifest.Proofs.Json.Reading
import StoryManifest.Proofs.Number.Shortest

/-!
Scaling by powers of ten, as it is done where the digits of a real were read: one rounding for the digits,
one for the power and one for the product or the quotient. What comes out may be another real than the one
that was written, but where a decimal stays finite its scaled digits do.
-/

namespace StoryManifest.Json

open Number Number.Binary64

/-! ### Powers of ten -/

/-- The greatest power of ten below the bound of finite numbers is 10^308. -/
theorem overflowBound_between : (10 : ℚ) ^ 308 < overflowBound ∧ overflowBound < 10 ^ 309 := by
  have hbound : overflowBound = (((2 ^ 54 - 1) * 2 ^ 970 : Nat) : ℚ) := by
    rw [overflowBound, Nat.cast_mul, Nat.cast_sub Nat.one_le_two_pow, Nat.cast_pow, Nat.cast_pow,
      Nat.cast_ofNat, Nat.cast_one]
  have hpow : ∀ k : Nat, (10 : ℚ) ^ k = ((10 ^ k : Nat) : ℚ) := fun k => by rw [Nat.cast_pow, Nat.cast_ofNat]
  rw [hbound, hpow, hpow, Nat.cast_lt, Nat.cast_lt]
  decide +kernel

theorem exponent_le_of_finite {n : Nat} {exponent : Int} (hn : n ≠ 0)
    (h : (n : ℚ) * 10 ^ exponent < overflowBound) : exponent ≤ 308 := by
  by_contra hlt
  have hone : (1 : ℚ) ≤ n := by exact_mod_cast Nat.one_le_iff_ne_zero.mpr hn
  have hlarge : (10 : ℚ) ^ (309 : Int) ≤ 10 ^ exponent := zpow_le_zpow_right₀ (by norm_num) (by omega)
  have hle : (10 : ℚ) ^ exponent ≤ n * 10 ^ exponent := le_mul_of_one_le_left (by positivity) hone
  exact absurd overflowBound_between.2 (not_lt.mpr ((hlarge.trans hle).trans h.le))

theorem powerOfTen_spec {k : Nat} (hk : k ≤ 308) : ∃ p, powerOfTen k = some p ∧ p.significand ≠ 0 ∧
    p.magnitude ≤ 10 ^ k * (1 + roundingPart) ∧ 10 ^ k ≤ 2 * p.magnitude := by
  have hfinite : (10 : ℚ) ^ k < overflowBound :=
    (pow_le_pow_right₀ (by norm_num) hk).trans_lt overflowBound_between.1
  obtain ⟨p, hp⟩ : ∃ p, powerOfTen k = some p := by
    rw [← Option.isSome_iff_exists, powerOfTen, isSome_ofDecimal_iff, Nat.cast_one, one_mul, zpow_natCast]
    exact hfinite
  have hratio : ofRatio false (Nat.pow 10 k) 1 = some p := by
    have hcount : digitCount 1 = 1 := rfl
    have hlarge : ¬(310 : Int) < k + 1 := by omega
    have hsmall : ¬(k + 1 : Int) < -326 := by omega
    have hneg : ¬(k : Int) < 0 := by omega
    simpa [powerOfTen, ofDecimal, hcount, hlarge, hsmall, hneg] using hp
  have hone : (1 : ℚ) ≤ 10 ^ k := one_le_pow₀ (by norm_num)
  have hupper := magnitude_le_of_ofRatio one_ne_zero hratio
  have hlower := (abs_le.mp (abs_magnitude_sub_le one_ne_zero hratio)).1
  rw [Nat.pow_eq, Nat.cast_pow, Nat.cast_ofNat, Nat.cast_one, div_one,
    max_eq_left (leastNormal_le_one.trans hone)] at hupper hlower
  have hhalf : 10 ^ k ≤ 2 * p.magnitude := by
    have hpart : roundingPart ≤ 1 / 2 := by norm_num [roundingPart]
    have := mul_le_mul_of_nonneg_left hpart (le_trans zero_le_one hone)
    linarith
  refine ⟨p, hp, fun hzero => ?_, hupper, hhalf⟩
  have : p.magnitude = 0 := by rw [magnitude, hzero, Nat.cast_zero, zero_mul]
  linarith

/-! ### Scaling -/

-- Only what is known of the powers counts from here on; computing one of them is slow.
attribute [local irreducible] powerOfTen

theorem scale_succ (fuel : Nat) (x : Binary64) (exponent : Int) : scale (fuel + 1) x exponent =
    if exponent.natAbs ≤ 308 then
      match powerOfTen exponent.natAbs with
      | none => none
      | some p => if 0 ≤ exponent then x.mul p else x.div p
    else if x.isZero then some x
    else if 0 ≤ exponent then none
    else
      match powerOfTen 308 with
      | none => none
      | some p =>
        match x.div p with
        | none => none
        | some y => scale fuel y (exponent + 308) := rfl

/-- The bound of what is scaled down. -/
def scalingBound : ℚ := 2 ^ (100 : Int)

/-- A quotient by a power of ten is finite, and no larger than what was divided but for the power one. -/
theorem exists_div_powerOfTen {x : Binary64} {k : Nat} (hk : k ≤ 308) (hx : x.magnitude ≤ scalingBound) :
    ∃ p y, powerOfTen k = some p ∧ x.div p = some y ∧ (k ≠ 0 → y.magnitude ≤ scalingBound) := by
  obtain ⟨p, hp, hne, -, hlarge⟩ := powerOfTen_spec hk
  have hone : (1 : ℚ) ≤ 10 ^ k := one_le_pow₀ (by norm_num)
  have hpos : 0 < p.magnitude := by linarith
  have hbound : (0 : ℚ) < scalingBound := by unfold scalingBound; positivity
  have hfinite : scalingBound * 2 < overflowBound :=
    calc scalingBound * 2 = 2 ^ (101 : Int) := by norm_num [scalingBound]
      _ < 2 ^ (1023 : Int) := zpow_lt_zpow_right₀ (by norm_num) (by decide)
      _ ≤ overflowBound := pow_le_overflowBound
  have hquotient : x.magnitude / p.magnitude ≤ scalingBound * 2 := by
    rw [div_le_iff₀ hpos]
    calc x.magnitude ≤ scalingBound * 1 := by rwa [mul_one]
      _ ≤ scalingBound * (2 * p.magnitude) := by gcongr; exact hone.trans hlarge
      _ = scalingBound * 2 * p.magnitude := by ring
  obtain ⟨y, hy⟩ := Option.isSome_iff_exists.mp ((isSome_div_iff x hne).mpr (hquotient.trans_lt hfinite))
  refine ⟨p, y, hp, hy, fun hk₀ => ?_⟩
  have hten : (4 : ℚ) ≤ 10 ^ k :=
    calc (4 : ℚ) ≤ 10 ^ 1 := by norm_num
      _ ≤ 10 ^ k := pow_le_pow_right₀ (by norm_num) (Nat.one_le_iff_ne_zero.mpr hk₀)
  have hhalf : x.magnitude / p.magnitude ≤ scalingBound / 2 := by
    rw [div_le_iff₀ hpos]
    calc x.magnitude ≤ scalingBound / 4 * 4 := by linarith
      _ ≤ scalingBound / 4 * (2 * p.magnitude) := by gcongr; exact hten.trans hlarge
      _ = scalingBound / 2 * p.magnitude := by ring
  have hnormal : leastNormal ≤ scalingBound / 2 :=
    calc leastNormal ≤ 1 := leastNormal_le_one
      _ ≤ scalingBound / 2 := by norm_num [scalingBound]
  have hpart : 1 + roundingPart ≤ 2 ∧ 0 ≤ 1 + roundingPart := by norm_num [roundingPart]
  calc y.magnitude ≤ max (x.magnitude / p.magnitude) leastNormal * (1 + roundingPart) :=
    magnitude_div_le hne hy
    _ ≤ scalingBound / 2 * 2 := mul_le_mul (max_le hhalf hnormal) hpart.1 hpart.2 (by positivity)
    _ = scalingBound := by ring

/-- Dividing by powers of ten makes no number too large. -/
theorem isSome_scale_neg (fuel : Nat) {x : Binary64} {exponent : Int} (hneg : exponent < 0)
    (hfuel : -308 * (fuel : Int) ≤ exponent) (hx : x.magnitude ≤ scalingBound) :
    (scale fuel x exponent).isSome = true := by
  induction fuel generalizing x exponent with
  | zero => omega
  | succ fuel ih =>
    rw [scale_succ]
    split
    · rename_i hk
      obtain ⟨p, y, hp, hy, -⟩ := exists_div_powerOfTen hk hx
      simp [hp, hy, not_le.mpr hneg]
    · split
      · rfl
      · obtain ⟨p, y, hp, hy, hbound⟩ := exists_div_powerOfTen (Nat.le_refl 308) hx
        simp only [hp, hy, if_neg (not_le.mpr hneg)]
        exact ih (by omega) (by omega) (hbound (by decide))

/-- A significand of 64 bits with an exponent makes a real when its value stays finite. -/
theorem exists_realOf {n : Nat} {exponent : Int} (hn : n ≤ wordBound)
    (h : StaysFinite (n * 10 ^ exponent)) (negative : Bool) :
    ∃ y, realOf negative n exponent = .ok (.real y) := by
  have hword : (n : ℚ) ≤ 2 ^ (64 : Int) := by
    have : (n : ℚ) ≤ ((2 ^ 64 : Nat) : ℚ) := by exact_mod_cast hn.trans (by decide)
    exact this.trans (by norm_num)
  have hfinite : (2 : ℚ) ^ (64 : Int) < overflowBound :=
    (zpow_lt_zpow_right₀ (by norm_num) (by decide)).trans_le pow_le_overflowBound
  obtain ⟨x, hx⟩ := Option.isSome_iff_exists.mp ((isSome_ofInt_iff n).mpr (hword.trans_lt hfinite))
  have hmagnitude := magnitude_ofInt_le hx
  have hpart : 0 ≤ roundingPart := by norm_num [roundingPart]
  suffices hscale : (scale 8 x (max exponent (-2000))).isSome = true by
    obtain ⟨y, hy⟩ := Option.isSome_iff_exists.mp hscale
    exact ⟨if negative then y.neg else y, by simp only [realOf, hx, hy]⟩
  rcases lt_or_ge exponent 0 with hneg | hpos
  · refine isSome_scale_neg 8 (by omega) (by omega) ?_
    calc x.magnitude ≤ n * (1 + roundingPart) := hmagnitude
      _ ≤ 2 ^ (64 : Int) * 2 := by
        have : 1 + roundingPart ≤ 2 := by norm_num [roundingPart]
        gcongr
      _ ≤ scalingBound := by norm_num [scalingBound]
  · obtain ⟨k, rfl⟩ : ∃ k : Nat, exponent = k := ⟨exponent.toNat, by omega⟩
    rw [max_eq_left (by omega), scale_succ, Int.natAbs_natCast]
    rw [zpow_natCast] at h
    by_cases hk : k ≤ 308
    · obtain ⟨p, hp, -, hpower, -⟩ := powerOfTen_spec hk
      rw [if_pos hk]
      simp only [hp, if_pos hpos]
      rw [isSome_mul_iff]
      calc x.magnitude * p.magnitude ≤ n * (1 + roundingPart) * (10 ^ k * (1 + roundingPart)) :=
            mul_le_mul hmagnitude hpower (magnitude_nonneg p) (by positivity)
        _ = n * 10 ^ k * (1 + roundingPart) ^ 2 := by ring
        _ < overflowBound := h
    · -- Only zero stays finite with so large an exponent.
      obtain rfl : n = 0 := by
        by_contra hne
        have hfinite := h.lt_overflowBound (by positivity)
        rw [← zpow_natCast] at hfinite
        have hle := exponent_le_of_finite hne hfinite
        omega
      obtain rfl : zero false = x := by simpa [ofInt, ofRatio] using hx
      simp [hk, zero, isZero]

end StoryManifest.Json
