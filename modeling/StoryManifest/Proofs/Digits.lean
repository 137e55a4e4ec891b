import StoryManifest.Json.Reader

/-!
The decimal digits of a natural number: reading them from the left gives the number back, and only zero
starts with a zero.
-/

namespace StoryManifest.Digits

open Json (digitOf)

/-- The digits of a number. -/
abbrev ofNat (n : Nat) : List Char := Nat.toDigits 10 n

/-- The number that digits form after those that were read. -/
def toNatFrom (n : Nat) (ds : List Char) : Nat := ds.foldl (fun n d => n * 10 + digitOf d) n

theorem ofNat_of_lt {n : Nat} (h : n < 10) : ofNat n = [n.digitChar] := Nat.toDigits_of_lt_base h

theorem ofNat_of_ge {n : Nat} (h : 10 ≤ n) : ofNat n = ofNat (n / 10) ++ [(n % 10).digitChar] :=
  Nat.toDigits_of_base_le (by decide) h

theorem digitOf_digitChar : ∀ d < 10, digitOf d.digitChar = d := by decide

theorem digitChar_ne_zero : ∀ d < 10, d ≠ 0 → d.digitChar ≠ '0' := by decide

theorem toNatFrom_append (n : Nat) (ds es : List Char) :
    toNatFrom n (ds ++ es) = toNatFrom (toNatFrom n ds) es := List.foldl_append ..

theorem toNatFrom_ofNat (n : Nat) : toNatFrom 0 (ofNat n) = n := by
  induction n using Nat.strongRecOn with
  | ind n ih =>
    by_cases h : n < 10
    · rw [ofNat_of_lt h]
      simp [toNatFrom, digitOf_digitChar n h]
    · have hq := ih (n / 10) (by omega)
      rw [ofNat_of_ge (by omega), toNatFrom_append, hq]
      simp only [toNatFrom, List.foldl_cons, List.foldl_nil, digitOf_digitChar (n % 10) (by omega)]
      omega

theorem ofNat_eq_cons {n : Nat} (h : n ≠ 0) : ∃ d ds, ofNat n = d :: ds ∧ d ≠ '0' := by
  induction n using Nat.strongRecOn with
  | ind n ih =>
    by_cases hn : n < 10
    · exact ⟨_, [], ofNat_of_lt hn, digitChar_ne_zero n hn h⟩
    · obtain ⟨d, ds, hd, hne⟩ := ih (n / 10) (by omega) (by omega)
      exact ⟨d, ds ++ [(n % 10).digitChar], by rw [ofNat_of_ge (by omega), hd]; rfl, hne⟩

theorem isDigit_of_mem {n : Nat} {d : Char} (h : d ∈ ofNat n) : d.isDigit = true :=
  Nat.isDigit_of_mem_toDigits (by decide) (by decide) h

/-- Reading more digits never makes the number smaller. -/
theorem le_toNatFrom (n : Nat) (ds : List Char) : n ≤ toNatFrom n ds := by
  induction ds generalizing n with
  | nil => exact Nat.le_refl n
  | cons d ds ih => exact Nat.le_trans (by omega) (ih (n * 10 + digitOf d))

/-! ### The text of an integer -/

theorem toList_text_natCast (n : Nat) : (Number.integer n).text.toList = ofNat n := by
  simp [Number.text, Int.toString_eq_repr, Int.repr_eq_if]

theorem text_natCast (n : Nat) : (Number.integer n).text = toString n := by
  rw [← String.toList_inj, toList_text_natCast, Nat.toString_eq_repr, Nat.toList_repr]

theorem toList_text_neg {n : Nat} (h : n ≠ 0) :
    (Number.integer (-(n : Int))).text.toList = '-' :: ofNat n := by
  simp [Number.text, Int.toString_eq_repr, Int.repr_eq_if, h]

end StoryManifest.Digits
