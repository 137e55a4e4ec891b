import StoryManifest.Number.Shortest
import StoryManifest.Proofs.Number.Rounding

/-!
How large the decimal is that stands for a number. It lies in the rounding interval of the number, so it is
above the number by at most half a unit. Rounding it twice more leaves it below the bound of finite numbers,
unless the number is one of the three greatest.
-/

namespace StoryManifest.Number.Binary64

/-- The value of a decimal. -/
def Decimal.magnitude (d : Decimal) : ℚ := d.digits * 10 ^ d.exponent

variable {i : Interval} {d : Decimal} {x : Binary64}

/-! ### The rounding interval -/

/-- A decimal in an interval is not above its end. -/
theorem Interval.le_of_holds (hden : i.den ≠ 0) {digits : Nat} {exponent : Int}
    (h : i.holds digits exponent = true) : (digits : ℚ) * 10 ^ exponent ≤ (i.middle + i.above) / i.den := by
  have hpos : (0 : ℚ) < i.den := by positivity
  obtain ⟨n, d, hpair⟩ : ∃ n d, (if exponent < 0 then (digits * i.den, Nat.pow 10 exponent.natAbs)
      else (digits * Nat.pow 10 exponent.natAbs * i.den, 1)) = (n, d) := ⟨_, _, rfl⟩
  have hle : n ≤ (i.middle + i.above) * d := by
    simp only [holds, hpair] at h
    split at h
    · exact of_decide_eq_true (Bool.and_eq_true_iff.mp h).2
    · exact (of_decide_eq_true (Bool.and_eq_true_iff.mp h).2).le
  rw [le_div_iff₀ hpos]
  by_cases hneg : exponent < 0
  · rw [if_pos hneg, Prod.mk.injEq] at hpair
    obtain ⟨rfl, rfl⟩ := hpair
    obtain ⟨k, rfl⟩ : ∃ k : Nat, exponent = -(k : Int) := ⟨exponent.natAbs, by omega⟩
    rw [Int.natAbs_neg, Int.natAbs_natCast, Nat.pow_eq] at hle
    rw [zpow_neg, zpow_natCast, ← div_eq_mul_inv, div_mul_eq_mul_div, div_le_iff₀ (by positivity)]
    exact_mod_cast hle
  · rw [if_neg hneg, Prod.mk.injEq] at hpair
    obtain ⟨rfl, rfl⟩ := hpair
    obtain ⟨k, rfl⟩ : ∃ k : Nat, exponent = (k : Int) := ⟨exponent.natAbs, by omega⟩
    rw [Int.natAbs_natCast, Nat.pow_eq, Nat.mul_one] at hle
    rw [zpow_natCast]
    exact_mod_cast hle

theorem Interval.holds_of_onGrid {exponent : Int} (h : i.onGrid exponent = some d) :
    i.holds d.digits d.exponent = true ∧ d.digits ≠ 0 := by
  simp only [onGrid] at h
  split at h
  · rename_i hlow
    obtain rfl := Option.some.inj h
    obtain ⟨hpos, hholds⟩ := Bool.and_eq_true_iff.mp (Bool.and_eq_true_iff.mp hlow).1
    exact ⟨hholds, (of_decide_eq_true hpos).ne'⟩
  · split at h
    · rename_i hholds
      obtain rfl := Option.some.inj h
      exact ⟨hholds, Nat.succ_ne_zero _⟩
    · cases h

theorem Interval.holds_of_search : ∀ {tries : Nat} {exponent : Int}, i.search tries exponent = some d →
    i.holds d.digits d.exponent = true ∧ d.digits ≠ 0
  | 0, _, h => by cases h
  | tries + 1, exponent, h => by
    rw [search] at h
    split at h
    · rename_i hgrid
      exact holds_of_onGrid (h ▸ hgrid)
    · exact holds_of_search h

/-- The interval of a number ends half a unit above it. -/
theorem interval_end (x : Binary64) : (interval x).den ≠ 0 ∧
    (((interval x).middle : ℚ) + (interval x).above) / (interval x).den =
      (2 * x.significand + 1) * 2 ^ (x.exponent - 1) := by
  obtain ⟨hden, hunit⟩ := scaled_ratio 1 (show 4 ≠ 0 by decide) (-x.exponent)
  refine ⟨hden, ?_⟩
  rw [neg_neg] at hunit
  simp only [interval]
  push_cast
  calc (4 * (x.significand : ℚ) * (scaled 1 4 (-x.exponent)).1 + 2 * (scaled 1 4 (-x.exponent)).1) /
        (scaled 1 4 (-x.exponent)).2
      = (4 * x.significand + 2) * ((scaled 1 4 (-x.exponent)).1 / (scaled 1 4 (-x.exponent)).2) := by ring
    _ = (2 * x.significand + 1) * 2 ^ (x.exponent - 1) := by
      rw [hunit, zpow_sub_one₀ (by norm_num)]
      push_cast
      ring

/-! ### The decimal -/

/-- Leaving out zeros at the end does not change a decimal. -/
theorem Decimal.trim_eq : ∀ (fuel : Nat) (d : Decimal), (trim fuel d).magnitude = d.magnitude ∧
    (d.digits ≠ 0 → (trim fuel d).digits ≠ 0)
  | 0, d => ⟨rfl, id⟩
  | fuel + 1, d => by
    rw [trim]
    split
    · rename_i h
      obtain ⟨hne, hzero⟩ := h
      obtain ⟨n, hn⟩ : ∃ n, d.digits = n * 10 := ⟨d.digits / 10, by omega⟩
      obtain ⟨hmagnitude, hdigits⟩ := trim_eq fuel ⟨d.digits / 10, d.exponent + 1⟩
      refine ⟨hmagnitude.trans ?_, fun _ => hdigits (by show d.digits / 10 ≠ 0; omega)⟩
      rw [magnitude, magnitude, hn, Nat.mul_div_cancel n (by decide), zpow_add_one₀ (by norm_num)]
      push_cast
      ring
    · exact ⟨rfl, id⟩

/-- The decimal of a number ends in its interval. Where the search finds none, it is the significand. -/
theorem shortest_spec (h : x.significand ≠ 0) : (shortest x).digits ≠ 0 ∧
    ((shortest x).magnitude ≤ (2 * x.significand + 1) * 2 ^ (x.exponent - 1) ∨
      (shortest x).magnitude = x.significand) := by
  unfold shortest
  split
  · rename_i d hd
    obtain ⟨hholds, hdigits⟩ := Interval.holds_of_search hd
    obtain ⟨hmagnitude, hne⟩ := d.trim_eq 20
    obtain ⟨hden, hend⟩ := interval_end x
    refine ⟨hne hdigits, .inl ?_⟩
    rw [hmagnitude, ← hend]
    exact Interval.le_of_holds hden hholds
  · exact ⟨h, .inr (by simp [Decimal.magnitude])⟩

/-! ### Rounding twice -/

/-- A value stays below the bound of finite numbers even when it is rounded up twice. -/
def StaysFinite (q : ℚ) : Prop := q * (1 + roundingPart) ^ 2 < overflowBound

theorem StaysFinite.mono {p q : ℚ} (h : StaysFinite q) (hle : p ≤ q) : StaysFinite p := by
  have hpos : (0 : ℚ) < (1 + roundingPart) ^ 2 := by unfold roundingPart; positivity
  exact (mul_le_mul_of_nonneg_right hle hpos.le).trans_lt h

theorem StaysFinite.lt_overflowBound {q : ℚ} (h : StaysFinite q) (hq : 0 ≤ q) : q < overflowBound := by
  have hone : (1 : ℚ) ≤ (1 + roundingPart) ^ 2 := one_le_pow₀ (by norm_num [roundingPart])
  exact (le_mul_of_one_le_right hq hone).trans_lt h

/-- The decimals of the three greatest numbers. -/
def greatestDecimals : List Decimal :=
  [⟨17976931348623157, 292⟩, ⟨17976931348623155, 292⟩, ⟨17976931348623153, 292⟩]

theorem shortest_greatest (negative : Bool) : ∀ k < 3,
    shortest ⟨negative, 2 ^ 53 - 1 - k, greatestExponent⟩ ∈ greatestDecimals := by
  cases negative <;> decide +kernel

/-- Four units below the power of two, the end of the interval is far enough from the bound. -/
theorem staysFinite_far : StaysFinite ((2 ^ 54 - 7) * 2 ^ 970) := by
  have hpart : (2 ^ 54 - 7 : ℚ) * (1 + roundingPart) ^ 2 < 2 ^ 54 - 1 := by norm_num [roundingPart]
  have hunits : (0 : ℚ) < 2 ^ 970 := by positivity
  calc (2 ^ 54 - 7 : ℚ) * 2 ^ 970 * (1 + roundingPart) ^ 2
      = (2 ^ 54 - 7) * (1 + roundingPart) ^ 2 * 2 ^ 970 := mul_right_comm _ _ _
    _ < (2 ^ 54 - 1) * 2 ^ 970 := mul_lt_mul_of_pos_right hpart hunits

theorem two_pow_le_far {k : Int} (h : k ≤ 1023) : (2 : ℚ) ^ k ≤ (2 ^ 54 - 7) * 2 ^ 970 :=
  calc (2 : ℚ) ^ k ≤ 2 ^ (1023 : Int) := zpow_le_zpow_right₀ (by norm_num) h
    _ = 2 ^ 53 * 2 ^ 970 := by rw [← pow_add]; rfl
    _ ≤ (2 ^ 54 - 7) * 2 ^ 970 := by gcongr; norm_num

/-- The decimal of a number stays finite when it is rounded twice, but for those of the greatest numbers. -/
theorem staysFinite_shortest (hx : x.IsFinite) (h : x.significand ≠ 0) :
    StaysFinite (shortest x).magnitude ∨ shortest x ∈ greatestDecimals := by
  obtain ⟨negative, significand, exponent⟩ := x
  obtain ⟨hlt, hle⟩ := hx
  obtain ⟨-, hend | hplain⟩ := shortest_spec h
  · by_cases htop : exponent = greatestExponent ∧ 2 ^ 53 - 4 < significand
    · obtain ⟨rfl, hgreat⟩ := htop
      obtain ⟨k, hk, rfl⟩ : ∃ k < 3, significand = 2 ^ 53 - 1 - k := ⟨2 ^ 53 - 1 - significand, by omega, by
        simp only at hlt; omega⟩
      exact .inr (shortest_greatest negative k hk)
    · refine .inl (staysFinite_far.mono (hend.trans ?_))
      by_cases hexponent : exponent = greatestExponent
      · subst hexponent
        have hsmall : significand ≤ 2 ^ 53 - 4 := by omega
        have hcast : (2 * significand + 1 : ℚ) ≤ 2 ^ 54 - 7 := by
          have : ((2 * significand + 1 : Nat) : ℚ) ≤ ((2 ^ 54 - 7 : Nat) : ℚ) := by
            exact_mod_cast (by omega : 2 * significand + 1 ≤ 2 ^ 54 - 7)
          norm_num at this ⊢
          exact this
        exact mul_le_mul_of_nonneg_right hcast (by positivity)
      · have hcast : (2 * significand + 1 : ℚ) ≤ 2 ^ 54 := by
          exact_mod_cast (by simp only at hlt; omega : 2 * significand + 1 ≤ 2 ^ 54)
        calc (2 * significand + 1 : ℚ) * 2 ^ (exponent - 1) ≤ 2 ^ (54 : Int) * 2 ^ (exponent - 1) :=
              mul_le_mul_of_nonneg_right hcast (by positivity)
          _ = 2 ^ (54 + (exponent - 1)) := by rw [← zpow_add₀ (by norm_num)]
          _ ≤ (2 ^ 54 - 7) * 2 ^ 970 := two_pow_le_far (by
            simp only [greatestExponent] at hle hexponent
            omega)
  · refine .inl (staysFinite_far.mono ?_)
    rw [hplain]
    calc (significand : ℚ) ≤ 2 ^ (53 : Int) := by exact_mod_cast hlt.le
      _ ≤ (2 ^ 54 - 7) * 2 ^ 970 := two_pow_le_far (by decide)

end StoryManifest.Number.Binary64
