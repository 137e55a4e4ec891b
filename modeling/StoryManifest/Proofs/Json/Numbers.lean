import StoryManifest.Proofs.Json.Scaling

/-!
Reading the numbers that were written. The reader drops digits that do not fit and scales the ones that are
left. What was read may thus be another number than the one that was written, but it is never too large:
every finite number has a text that is read.
-/

namespace StoryManifest.Json

open Number Number.Binary64

/-! ### Digits -/

theorem digitOf_lt {d : Char} (h : isDigit d = true) : digitOf d < 10 := by
  simp only [isDigit, Bool.and_eq_true, decide_eq_true_eq, Char.le_def, UInt32.le_iff_toNat_le] at h
  have hnine : '9'.val.toNat = 57 := rfl
  have hzero : '0'.toNat = 48 := rfl
  rw [digitOf, hzero]
  show d.val.toNat - 48 < 10
  omega

theorem mul_pow_le_toNatFrom (n : Nat) (ds : List Char) : n * 10 ^ ds.length ≤ Digits.toNatFrom n ds := by
  induction ds generalizing n with
  | nil => simp [Digits.toNatFrom]
  | cons d ds ih =>
    calc n * 10 ^ (d :: ds).length = n * 10 * 10 ^ ds.length := by rw [List.length_cons, Nat.pow_succ']; ring
      _ ≤ (n * 10 + digitOf d) * 10 ^ ds.length := Nat.mul_le_mul_right _ (Nat.le_add_right _ _)
      _ ≤ Digits.toNatFrom n (d :: ds) := ih _

theorem toNatFrom_lt {n : Nat} {ds : List Char} (h : ∀ d ∈ ds, isDigit d = true) :
    Digits.toNatFrom n ds < (n + 1) * 10 ^ ds.length := by
  induction ds generalizing n with
  | nil => simp [Digits.toNatFrom]
  | cons d ds ih =>
    have hd := digitOf_lt (h d (by simp))
    calc Digits.toNatFrom n (d :: ds) < (n * 10 + digitOf d + 1) * 10 ^ ds.length :=
          ih fun e he => h e (List.mem_cons_of_mem _ he)
      _ ≤ (n + 1) * 10 * 10 ^ ds.length := Nat.mul_le_mul_right _ (by omega)
      _ = (n + 1) * 10 ^ (d :: ds).length := by rw [List.length_cons, Nat.pow_succ']; ring

theorem toNatFrom_zeros (n k : Nat) : Digits.toNatFrom n (List.replicate k '0') = n * 10 ^ k := by
  induction k generalizing n with
  | zero => simp [Digits.toNatFrom]
  | succ k ih =>
    have hzero : digitOf '0' = 0 := by decide
    calc Digits.toNatFrom n (List.replicate (k + 1) '0')
      _ = Digits.toNatFrom (n * 10 + digitOf '0') (List.replicate k '0') := rfl
      _ = n * 10 ^ (k + 1) := by rw [hzero, ih, Nat.add_zero, Nat.pow_succ']; ring

/-- Sixteen digits fit. -/
theorem toNatFrom_le_wordBound {ds : List Char} (h : ∀ d ∈ ds, isDigit d = true) (hlength : ds.length ≤ 16) :
    Digits.toNatFrom 0 ds ≤ wordBound :=
  calc Digits.toNatFrom 0 ds ≤ (0 + 1) * 10 ^ ds.length := (toNatFrom_lt h).le
    _ ≤ (0 + 1) * 10 ^ 16 := Nat.mul_le_mul_left _ (Nat.pow_le_pow_right (by decide) hlength)
    _ ≤ wordBound := by decide

/-- Digits are taken as long as the number that they form fits. -/
theorem takeDigits_split (bound : Nat) : ∀ {ds : List Char} {n : Nat}, (∀ d ∈ ds, isDigit d = true) →
    n ≤ bound → ∃ kept left, ds = kept ++ left ∧ Digits.toNatFrom n kept ≤ bound ∧
      (Digits.toNatFrom n ds ≤ bound → left = []) ∧
      ∀ (count : Nat) {c : Char} (cs : List Char), isDigit c = false →
        takeDigits bound n count (ds ++ c :: cs) =
        (Digits.toNatFrom n kept, count + kept.length, left ++ c :: cs)
  | [], n, _, hn =>
    ⟨[], [], rfl, hn, fun _ => rfl, fun count c cs hc => by simp [takeDigits, hc, Digits.toNatFrom]⟩
  | d :: ds, n, hd, hn => by
    have hdigit := hd d (by simp)
    by_cases hfit : n * 10 + digitOf d ≤ bound
    · obtain ⟨kept, left, rfl, hkept, hleft, htake⟩ :=
        takeDigits_split bound (fun e he => hd e (List.mem_cons_of_mem _ he)) hfit
      refine ⟨d :: kept, left, rfl, hkept, hleft, fun count c cs hc => ?_⟩
      rw [List.cons_append, takeDigits, if_pos hdigit, if_pos hfit, htake (count + 1) cs hc,
        List.length_cons,
        Nat.add_assoc, Nat.add_comm 1]
      rfl
    · refine ⟨[], d :: ds, rfl, hn, fun hle => absurd ((Digits.le_toNatFrom _ ds).trans hle) hfit, ?_⟩
      intro count c cs hc
      rw [List.cons_append, takeDigits, if_pos hdigit, if_neg hfit]
      rfl

/-! ### Fractions -/

/-- What is kept of a decimal: digits that fit, which are no more than the decimal, and all of it when its
digits fit. -/
structure Keeps (digits : Nat) (exponent : Int) (kept : Nat) (start : Int) : Prop where
  le_wordBound : kept ≤ wordBound
  le : (kept : ℚ) * 10 ^ start ≤ digits * 10 ^ exponent
  eq_of_fits : digits ≤ wordBound → kept = digits ∧ start = exponent

theorem readFraction_append (negative : Bool) {fraction : List Char} {n : Nat} (hne : fraction ≠ [])
    (hdigits : ∀ d ∈ fraction, isDigit d = true) (hn : n ≤ wordBound) : ∃ kept start,
    Keeps (Digits.toNatFrom n fraction) (-(fraction.length : Int)) kept start ∧
    ∀ {c : Char} (cs : List Char), isDigit c = false →
      readFraction negative n 0 (fraction ++ c :: cs) = readTail negative kept start (c :: cs) := by
  obtain ⟨kept, left, rfl, hkept, hleft, htake⟩ := takeDigits_split wordBound hdigits hn
  refine ⟨Digits.toNatFrom n kept, -(kept.length : Int), ⟨hkept, ?_, fun hfits => ?_⟩, fun {c} cs hc => ?_⟩
  · have hle := mul_pow_le_toNatFrom (Digits.toNatFrom n kept) left
    rw [← Digits.toNatFrom_append] at hle
    have hcast : (Digits.toNatFrom n kept : ℚ) * 10 ^ left.length ≤ Digits.toNatFrom n (kept ++ left) := by
      exact_mod_cast hle
    have hexponent : (10 : ℚ) ^ (-(kept.length : Int)) =
        10 ^ left.length * 10 ^ (-((kept ++ left).length : Int)) := by
      rw [← zpow_natCast, ← zpow_add₀ (by norm_num)]
      congr 1
      simp only [List.length_append]
      omega
    rw [hexponent, ← mul_assoc]
    exact mul_le_mul_of_nonneg_right hcast (by positivity)
  · simp [hleft hfits]
  · rw [readFraction, htake 0 cs hc]
    cases left with
    | nil =>
      have hcount : kept.length ≠ 0 := by simpa using hne
      simp [hc, hcount]
    | cons d left =>
      have hd : ∀ e ∈ d :: left, isDigit e = true := fun e he => hdigits e (by simp [List.mem_cons.mp he])
      have hdrop : (d :: left ++ c :: cs).dropWhile isDigit = c :: cs := by
        rw [List.dropWhile_append_of_pos hd, List.dropWhile_cons_of_neg (by simp [hc])]
      simp only [List.cons_append] at hdrop ⊢
      simp [hd d (by simp), hdrop]

/-- Digits in front of a point: a single zero, or no zero first. -/
def IsWhole (whole : List Char) : Prop :=
  (∀ d ∈ whole, isDigit d = true) ∧ (whole = ['0'] ∨ ∃ d ds, whole = d :: ds ∧ d ≠ '0')

theorem isDigit_of_mem_zero : ∀ d ∈ ['0'], isDigit d = true := fun d hd => by
  rw [List.mem_singleton.mp hd]
  rfl

theorem isWhole_zero : IsWhole ['0'] := ⟨isDigit_of_mem_zero, .inl rfl⟩

theorem readMagnitude_point (negative : Bool) {whole : List Char} (hwhole : IsWhole whole)
    (hfits : Digits.toNatFrom 0 whole ≤ wordBound) (rest : List Char) :
    readMagnitude negative (whole ++ '.' :: rest) =
      readFraction negative (Digits.toNatFrom 0 whole) 0 rest := by
  obtain ⟨hdigits, rfl | ⟨d, ds, rfl, hne⟩⟩ := hwhole
  · simp [readMagnitude, Digits.toNatFrom, digitOf]
  · have htake :=
      takeDigits_append wordBound (show isDigit '.' = false by decide) rest (d :: ds) 0 0 hdigits hfits
    have hfirst := hdigits d (by simp)
    have hpoint : isDigit '.' = false := by decide
    rw [readMagnitude.eq_def]
    simp only [List.cons_append] at htake ⊢
    simp [htake, hne, hfirst, hpoint]

theorem readMagnitude_exponent (negative : Bool) {d : Char} (hd : isDigit d = true) (hne : d ≠ '0')
    (rest : List Char) :
    readMagnitude negative (d :: 'e' :: rest) = readExponent negative (digitOf d) 0 rest := by
  have hletter : isDigit 'e' = false := by decide
  have hfits : Digits.toNatFrom 0 [d] ≤ wordBound := toNatFrom_le_wordBound (by simpa using hd) (by simp)
  have htake := takeDigits_append wordBound hletter rest [d] 0 0 (by simpa using hd) hfits
  have hvalue : Digits.toNatFrom 0 [d] = digitOf d := by simp [Digits.toNatFrom]
  rw [hvalue] at htake
  simp only [List.cons_append, List.nil_append] at htake
  rw [readMagnitude.eq_def]
  simp [htake, hne, hd, hletter]

/-! ### Exponents -/

theorem isDigit_of_mem_ofNat {n : Nat} : ∀ d ∈ Digits.ofNat n, isDigit d = true := fun d hd => by
  rw [isDigit_eq]
  exact Digits.isDigit_of_mem hd

theorem toList_exponentText (e : Int) :
    (exponentText e).toList = (if e < 0 then '-' else '+') :: Digits.ofNat e.natAbs := by
  have hdigits : (toString e.natAbs).toList = Digits.ofNat e.natAbs := by simp
  rw [exponentText, String.toList_append, hdigits]
  split <;> rfl

/-- An exponent that is not too large is read. One far below the range makes a zero. -/
theorem readExponent_text (negative : Bool) {lead : Int} (hlead : lead ≤ 308) {n : Nat} {start : Int}
    (hreal : ∃ y, realOf negative n (start + lead) = .ok (.real y)) : ∃ y, ∀ {rest : List Char}, Ends rest →
    readExponent negative n start ((exponentText lead).toList ++ rest) = .ok (.real y, rest) := by
  obtain ⟨y, hy⟩ := hreal
  rw [toList_exponentText]
  obtain ⟨k, hk⟩ : ∃ k, lead.natAbs = k := ⟨_, rfl⟩
  rw [hk]
  obtain ⟨d, ds, hd⟩ : ∃ d ds, Digits.ofNat k = d :: ds := List.exists_cons_of_ne_nil Nat.toDigits_ne_nil
  have hdigits : ∀ e ∈ d :: ds, isDigit e = true := hd ▸ isDigit_of_mem_ofNat
  have hvalue : Digits.toNatFrom 0 (d :: ds) = k := hd ▸ Digits.toNatFrom_ofNat _
  have hfirst : isDigit d = true := hdigits d (by simp)
  obtain ⟨kept, left, hsplit, -, hleft, htake⟩ := takeDigits_split exponentBound hdigits (Nat.zero_le _)
  rw [hvalue] at hleft
  rw [hd]
  cases left with
  | nil =>
    rw [List.append_nil] at hsplit
    refine ⟨y, fun {rest} hr => ?_⟩
    obtain ⟨c, cs, rfl, hc, -⟩ := hr.not_digit
    have hstep := htake 0 cs hc
    simp only [List.cons_append, List.nil_append, ← hsplit, hvalue] at hstep
    by_cases hneg : lead < 0
    · have hsum : start - (k : Int) = start + lead := by omega
      simp [readExponent, hneg, hfirst, hstep, hc, hsum, hy, Except.map]
    · have hsum : start + (k : Int) = start + lead := by omega
      simp [readExponent, hneg, hfirst, hstep, hc, hsum, hy, Except.map]
  | cons e left =>
    have hneg : lead < 0 := by
      by_contra hpos
      have hbound : 308 ≤ exponentBound := by decide
      exact absurd (hleft (by omega)) (List.cons_ne_nil e left)
    have he : ∀ b ∈ e :: left, isDigit b = true :=
      fun b hb => hdigits b (hsplit ▸ List.mem_append_right _ hb)
    refine ⟨.zero negative, fun {rest} hr => ?_⟩
    obtain ⟨c, cs, rfl, hc, -⟩ := hr.not_digit
    have hdrop : (left ++ c :: cs).dropWhile isDigit = c :: cs := by
      rw [List.dropWhile_append_of_pos fun b hb => he b (List.mem_cons_of_mem _ hb),
        List.dropWhile_cons_of_neg (by simp [hc])]
    have hstep := htake 0 cs hc
    simp only [List.cons_append] at hstep
    simp [readExponent, hneg, hfirst, hstep, he e (by simp), hdrop]

/-! ### Decimals -/

/-- The exponent of the first digit of a decimal. -/
def leadOf (d : Decimal) : Int := d.exponent + (Digits.ofNat d.digits).length - 1

theorem leadOf_le {d : Decimal} (hd : d.digits ≠ 0) (h : d.magnitude < overflowBound) : leadOf d ≤ 308 := by
  have hlow := (decimal_bounds hd d.exponent).1
  by_contra hlt
  have hlarge : (10 : ℚ) ^ (309 : Int) ≤ 10 ^ leadOf d := zpow_le_zpow_right₀ (by norm_num) (by omega)
  exact absurd overflowBound_between.2 (not_lt.mpr ((hlarge.trans hlow).trans h.le))

/-- A decimal is written with digits on both sides of a point. -/
structure IsPointed (d : Decimal) (whole fraction : List Char) : Prop where
  text : (d.text manifestLayout).toList = whole ++ '.' :: fraction
  isWhole : IsWhole whole
  length_le : whole.length ≤ 16
  ne_nil : fraction ≠ []
  digits : ∀ c ∈ fraction, isDigit c = true
  value : (Digits.toNatFrom 0 (whole ++ fraction) : ℚ) * 10 ^ (-(fraction.length : Int)) = d.magnitude

theorem isDigit_of_mem_zeros {k : Nat} : ∀ e ∈ List.replicate k '0', isDigit e = true := fun e he => by
  rw [List.eq_of_mem_replicate he]
  rfl

section

variable {n : Nat} {exponent : Int} {c : Char} {ds : List Char} (hds : Digits.ofNat n = c :: ds)
  (hne : c ≠ '0')

include hds

/-- Zeros are put between the point and the digits. -/
theorem isPointed_zeros_before {k : Nat} (hlead : exponent + ds.length = -(k + 1 : Nat)) (hk : k < 5) :
    IsPointed ⟨n, exponent⟩ ['0'] (List.replicate k '0' ++ (c :: ds)) where
  text := by
    have hsum : exponent + (c :: ds).length - 1 = -(k + 1 : Nat) := by
      rw [List.length_cons]
      omega
    have hpositional : -5 ≤ -((k + 1 : Nat) : Int) ∧ -((k + 1 : Nat) : Int) ≤ 15 := by omega
    have hneg : ¬(0 : Int) ≤ exponent := by omega
    have hbefore : ¬(0 : Int) ≤ -((k + 1 : Nat) : Int) := by omega
    simp only [Decimal.text, manifestLayout, hds, hsum, if_pos hpositional, if_neg hneg, if_neg hbefore,
      Int.natAbs_neg, Int.natAbs_natCast, Nat.add_sub_cancel]
    simp
  isWhole := isWhole_zero
  length_le := by simp
  ne_nil := by simp
  digits e he := (List.mem_append.mp he).elim (isDigit_of_mem_zeros e) fun h =>
    isDigit_of_mem_ofNat e (hds ▸ h)
  value := by
    have hvalue : Digits.toNatFrom 0 (c :: ds) = n := hds ▸ Digits.toNatFrom_ofNat _
    have hzero : Digits.toNatFrom 0 ['0'] = 0 := rfl
    have hexponent : -((List.replicate k '0' ++ c :: ds).length : Int) = exponent := by
      rw [List.length_append, List.length_replicate, List.length_cons]
      omega
    rw [Digits.toNatFrom_append, hzero, Digits.toNatFrom_append, toNatFrom_zeros, Nat.zero_mul, hvalue,
      hexponent,
      Decimal.magnitude]

include hne

/-- Zeros are put behind the digits when the exponent is not negative. -/
theorem isPointed_zeros_behind {k : Nat} (hlead : (k : Int) + ds.length ≤ 15) :
    IsPointed ⟨n, k⟩ ((c :: ds) ++ List.replicate k '0') ['0'] where
  text := by
    have hpositional : -5 ≤ (k : Int) + (c :: ds).length - 1 ∧ (k : Int) + (c :: ds).length - 1 ≤ 15 := by
      rw [List.length_cons]
      omega
    simp only [Decimal.text, manifestLayout, hds, if_pos hpositional, if_pos (Int.natCast_nonneg k)]
    simp
  isWhole := ⟨fun e he => (List.mem_append.mp he).elim (fun h => isDigit_of_mem_ofNat e (hds ▸ h))
    (isDigit_of_mem_zeros e), .inr ⟨c, _, rfl, hne⟩⟩
  length_le := by
    rw [List.length_append, List.length_replicate, List.length_cons]
    omega
  ne_nil := by simp
  digits := isDigit_of_mem_zero
  value := by
    have hvalue : Digits.toNatFrom 0 (c :: ds) = n := hds ▸ Digits.toNatFrom_ofNat _
    have hzero : Digits.toNatFrom (n * 10 ^ k) ['0'] = n * 10 ^ k * 10 := by
      simpa using toNatFrom_zeros (n * 10 ^ k) 1
    rw [Digits.toNatFrom_append, Digits.toNatFrom_append, hvalue, toNatFrom_zeros, hzero, Decimal.magnitude]
    push_cast
    rw [zpow_natCast, List.length_singleton, Nat.cast_one, zpow_neg_one, mul_assoc,
      mul_inv_cancel₀ (by norm_num), mul_one]

/-- The point is among the digits. -/
theorem isPointed_among {k : Nat} (hlead : exponent + ds.length = k) (hexponent : exponent < 0)
    (hk : k ≤ 15) :
    IsPointed ⟨n, exponent⟩ ((c :: ds).take (k + 1)) ((c :: ds).drop (k + 1)) where
  text := by
    have hsum : exponent + (c :: ds).length - 1 = k := by
      rw [List.length_cons]
      omega
    have hpositional : -5 ≤ (k : Int) ∧ (k : Int) ≤ 15 := by omega
    simp only [Decimal.text, manifestLayout, hds, hsum, if_pos hpositional, if_neg hexponent.not_ge,
      if_pos (Int.natCast_nonneg k)]
    simp
  isWhole := ⟨fun e he => isDigit_of_mem_ofNat e (hds ▸ List.mem_of_mem_take he), .inr ⟨c, _, rfl, hne⟩⟩
  length_le := by
    rw [List.length_take]
    omega
  ne_nil := by
    refine List.ne_nil_of_length_pos ?_
    rw [List.length_drop, List.length_cons]
    omega
  digits e he := isDigit_of_mem_ofNat e (hds ▸ List.mem_of_mem_drop he)
  value := by
    have hvalue : Digits.toNatFrom 0 (c :: ds) = n := hds ▸ Digits.toNatFrom_ofNat _
    have hexponent : -(((c :: ds).drop (k + 1)).length : Int) = exponent := by
      rw [List.length_drop, List.length_cons]
      omega
    rw [List.take_append_drop, hvalue, hexponent, Decimal.magnitude]

end

/-- In positional notation a decimal is written with digits on both sides of a point. -/
theorem exists_isPointed {d : Decimal} (hd : d.digits ≠ 0) (hlead : -5 ≤ leadOf d ∧ leadOf d ≤ 15) :
    ∃ whole fraction, IsPointed d whole fraction := by
  obtain ⟨c, ds, hds, hne⟩ := Digits.ofNat_eq_cons hd
  obtain ⟨n, exponent⟩ := d
  rw [leadOf, hds, List.length_cons] at hlead
  simp only at hlead
  rcases lt_or_ge exponent 0 with hneg | hpos
  · rcases lt_or_ge (exponent + ds.length) 0 with hsmall | hlarge
    · obtain ⟨k, hk⟩ : ∃ k : Nat, exponent + ds.length = -(k + 1 : Nat) :=
        ⟨(exponent + ds.length).natAbs - 1, by omega⟩
      exact ⟨_, _, isPointed_zeros_before hds hk (by omega)⟩
    · obtain ⟨k, hk⟩ : ∃ k : Nat, exponent + ds.length = k := ⟨_, (Int.toNat_of_nonneg hlarge).symm⟩
      exact ⟨_, _, isPointed_among hds hne hk hneg (by omega)⟩
  · obtain ⟨k, rfl⟩ : ∃ k : Nat, exponent = k := ⟨_, (Int.toNat_of_nonneg hpos).symm⟩
    exact ⟨_, _, isPointed_zeros_behind hds hne (by omega)⟩

/-- In the other notation a decimal is written with one digit before the point, or without a point, and an
exponent. -/
theorem text_scientific {d : Decimal} (hlead : ¬(-5 ≤ leadOf d ∧ leadOf d ≤ 15)) {c : Char} {ds : List Char}
    (hds : Digits.ofNat d.digits = c :: ds) : (d.text manifestLayout).toList =
      c :: ((if ds = [] then [] else '.' :: ds) ++ 'e' :: (exponentText (leadOf d)).toList) := by
  rw [leadOf, hds] at hlead ⊢
  simp only [Decimal.text, manifestLayout, hds, if_neg hlead]
  cases ds <;> simp

/-- What was read is a real. -/
def isReal : Except Fault Number → Bool
  | .ok (.real _) => true
  | _ => false

theorem exists_of_isReal : ∀ {read : Except Fault Number}, isReal read = true → ∃ y, read = .ok (.real y)
  | .ok (.real y), _ => ⟨y, rfl⟩

theorem exists_realOf_greatest (negative : Bool) : ∀ d ∈ greatestDecimals,
    d.digits ≤ wordBound ∧ ∃ y, realOf negative d.digits d.exponent = .ok (.real y) := by
  have hword : ∀ d ∈ greatestDecimals, d.digits ≤ wordBound := by decide
  have hreal : (greatestDecimals.all fun d => isReal (realOf negative d.digits d.exponent)) = true := by
    cases negative <;> decide +kernel
  exact fun d hd => ⟨hword d hd, exists_of_isReal (List.all_eq_true.mp hreal d hd)⟩

/-- What is kept of a decimal makes a real. The decimals of the greatest numbers are kept as they are. -/
theorem Keeps.exists_realOf {d : Decimal} {kept : Nat} {start : Int}
    (hkeeps : Keeps d.digits d.exponent kept start)
    (h : StaysFinite d.magnitude ∨ d ∈ greatestDecimals) (negative : Bool) :
    ∃ y, realOf negative kept start = .ok (.real y) := by
  rcases h with h | h
  · exact Json.exists_realOf hkeeps.le_wordBound (h.mono hkeeps.le) negative
  · obtain ⟨hfits, hreal⟩ := exists_realOf_greatest negative d h
    obtain ⟨rfl, rfl⟩ := hkeeps.eq_of_fits hfits
    exact hreal

theorem Keeps.add {digits kept : Nat} {exponent start : Int} (h : Keeps digits exponent kept start)
    (lead : Int) :
    Keeps digits (exponent + lead) kept (start + lead) where
  le_wordBound := h.le_wordBound
  le := by
    rw [zpow_add₀ (by norm_num), zpow_add₀ (by norm_num), ← mul_assoc, ← mul_assoc]
    exact mul_le_mul_of_nonneg_right h.le (by positivity)
  eq_of_fits hfits := by
    obtain ⟨hkept, rfl⟩ := h.eq_of_fits hfits
    exact ⟨hkept, rfl⟩

theorem readTail_ends (negative : Bool) (n : Nat) (exponent : Int) {rest : List Char} (hr : Ends rest) :
    readTail negative n exponent rest = (realOf negative n exponent).map (·, rest) := by
  obtain ⟨c, cs, rfl, -, -, he, hE⟩ := hr.not_digit
  simp [readTail, he, hE]

/-- Digits on both sides of a point are read as a real, unless their value is too large. -/
theorem exists_readMagnitude_point (negative : Bool) {whole fraction : List Char} (hwhole : IsWhole whole)
    (hlength : whole.length ≤ 16) (hne : fraction ≠ []) (hfraction : ∀ d ∈ fraction, isDigit d = true)
    (h : StaysFinite (Digits.toNatFrom 0 (whole ++ fraction) * 10 ^ (-(fraction.length : Int)))) :
    ∃ y, ∀ {rest : List Char}, Ends rest →
      readMagnitude negative ((whole ++ '.' :: fraction) ++ rest) = .ok (.real y, rest) := by
  have hfits := toNatFrom_le_wordBound hwhole.1 hlength
  obtain ⟨kept, start, hkeeps, hread⟩ := readFraction_append negative hne hfraction hfits
  rw [← Digits.toNatFrom_append] at hkeeps
  obtain ⟨y, hy⟩ := exists_realOf hkeeps.le_wordBound (h.mono hkeeps.le) negative
  refine ⟨y, fun {rest} hr => ?_⟩
  obtain ⟨c, cs, rfl, hc, -⟩ := id hr.not_digit
  rw [List.append_assoc, List.cons_append, readMagnitude_point negative hwhole hfits, hread cs hc,
    readTail_ends negative kept start hr, hy]
  rfl

/-- With an exponent a decimal is read as a real, unless its value is too large. -/
theorem exists_readMagnitude_scientific (negative : Bool) {d : Decimal} (hd : d.digits ≠ 0)
    (hlead : ¬(-5 ≤ leadOf d ∧ leadOf d ≤ 15)) (h : StaysFinite d.magnitude ∨ d ∈ greatestDecimals) :
    ∃ y, ∀ {rest : List Char}, Ends rest →
      readMagnitude negative ((d.text manifestLayout).toList ++ rest) = .ok (.real y, rest) := by
  obtain ⟨c, ds, hds, hne⟩ := Digits.ofNat_eq_cons hd
  have hdigits : ∀ e ∈ c :: ds, isDigit e = true := hds ▸ isDigit_of_mem_ofNat
  have hvalue : Digits.toNatFrom 0 (c :: ds) = d.digits := hds ▸ Digits.toNatFrom_ofNat _
  have hsmall : leadOf d ≤ 308 := by
    rcases h with h | h
    · exact leadOf_le hd (h.lt_overflowBound (by unfold Decimal.magnitude; positivity))
    · have hgreat : ∀ d ∈ greatestDecimals, leadOf d ≤ 308 := by decide
      exact hgreat d h
  have hsum : -(ds.length : Int) + leadOf d = d.exponent := by
    rw [leadOf, hds, List.length_cons]
    omega
  rw [text_scientific hlead hds]
  have hfirst : isDigit c = true := hdigits c (by simp)
  have hfits : Digits.toNatFrom 0 [c] ≤ wordBound := toNatFrom_le_wordBound (by simpa using hfirst) (by simp)
  by_cases hempty : ds = []
  · subst hempty
    have hone : Digits.toNatFrom 0 [c] = digitOf c := by simp [Digits.toNatFrom]
    have hkeeps : Keeps d.digits d.exponent (digitOf c) (0 + leadOf d) := by
      rw [← hone, hvalue, ← hsum]
      exact ⟨hvalue ▸ hfits, by simp, fun _ => ⟨rfl, by simp⟩⟩
    obtain ⟨y, hy⟩ := readExponent_text negative hsmall (hkeeps.exists_realOf h negative)
    refine ⟨y, fun {rest} hr => ?_⟩
    have hread := readMagnitude_exponent negative hfirst hne ((exponentText (leadOf d)).toList ++ rest)
    simpa using hread.trans (hy hr)
  · obtain ⟨kept, start, hkeeps, hread⟩ := readFraction_append negative hempty
      (fun e he => hdigits e (List.mem_cons_of_mem _ he)) hfits
    rw [← Digits.toNatFrom_append, List.singleton_append, hvalue] at hkeeps
    have hkeeps' := hkeeps.add (leadOf d)
    rw [hsum] at hkeeps'
    obtain ⟨y, hy⟩ := readExponent_text negative hsmall (hkeeps'.exists_realOf h negative)
    refine ⟨y, fun {rest} hr => ?_⟩
    have hletter : isDigit 'e' = false := by decide
    have hwhole : IsWhole [c] := ⟨by simpa using hfirst, .inr ⟨c, [], rfl, hne⟩⟩
    have hpoint := readMagnitude_point negative hwhole hfits
      (ds ++ 'e' :: ((exponentText (leadOf d)).toList ++ rest))
    rw [hread _ hletter] at hpoint
    simpa [hempty] using hpoint.trans (hy hr)

/-- The text of a decimal is read as a real, unless its value is too large. -/
theorem exists_readMagnitude (negative : Bool) {d : Decimal} (hd : d.digits ≠ 0)
    (h : StaysFinite d.magnitude ∨ d ∈ greatestDecimals) : ∃ y, ∀ {rest : List Char}, Ends rest →
    readMagnitude negative ((d.text manifestLayout).toList ++ rest) = .ok (.real y, rest) := by
  by_cases hlead : -5 ≤ leadOf d ∧ leadOf d ≤ 15
  · have hgreat : ∀ d ∈ greatestDecimals, ¬(-5 ≤ leadOf d ∧ leadOf d ≤ 15) := by decide
    have hfinite : StaysFinite d.magnitude := h.resolve_right fun hmem => hgreat d hmem hlead
    obtain ⟨whole, fraction, h⟩ := exists_isPointed hd hlead
    rw [h.text]
    exact exists_readMagnitude_point negative h.isWhole h.length_le h.ne_nil h.digits (h.value ▸ hfinite)
  · exact exists_readMagnitude_scientific negative hd hlead h

/-! ### Numbers -/

/-- A number that fits what is read: an integer whose digits fit, or a finite real. -/
def FitsReader : Number → Prop
  | .integer n => n.natAbs ≤ wordBound
  | .real x => x.IsFinite

theorem exists_wholeOf (negative : Bool) {n : Nat} (hn : n ≤ wordBound) :
    ∃ m, wholeOf negative n = .ok m := by
  unfold wholeOf
  split
  · split
    · have hfinite : StaysFinite (n * 10 ^ (0 : Int)) := by
        refine staysFinite_far.mono ((two_pow_le_far (k := 64) (by decide)).trans' ?_)
        have : (n : ℚ) ≤ ((2 ^ 64 : Nat) : ℚ) := by exact_mod_cast hn.trans (by decide)
        norm_num at this ⊢
        exact this
      obtain ⟨y, hy⟩ := exists_realOf hn hfinite true
      exact ⟨_, hy⟩
    · exact ⟨_, rfl⟩
  · exact ⟨_, rfl⟩

theorem exists_digit_text {d : Decimal} (hd : d.digits ≠ 0) :
    ∃ c cs, (d.text manifestLayout).toList = c :: cs ∧ isDigit c = true := by
  by_cases hlead : -5 ≤ leadOf d ∧ leadOf d ≤ 15
  · obtain ⟨whole, fraction, h⟩ := exists_isPointed hd hlead
    have htext := h.text
    obtain ⟨hdigits, hwhole⟩ := h.isWhole
    rcases hwhole with rfl | ⟨c, ds, rfl, -⟩
    · exact ⟨'0', _, htext, by decide⟩
    · exact ⟨c, _, htext, hdigits c (by simp)⟩
  · obtain ⟨c, ds, hds, -⟩ := Digits.ofNat_eq_cons hd
    exact ⟨c, _, text_scientific hlead hds, isDigit_of_mem_ofNat c (hds ▸ List.mem_cons_self)⟩

/-- The magnitude of a finite real is read. -/
theorem exists_reads_real (depth : Nat) {x : Binary64} (hx : x.IsFinite) :
    ∃ m, Reads (readValue depth) x.text.toList (.number m) := by
  have hsign : ∀ s : String, ((if x.negative then "-" else "") ++ s).toList =
      (if x.negative then ['-'] else []) ++ s.toList := fun s => by
    rw [String.toList_append]
    cases x.negative <;> rfl
  rw [Binary64.text, hsign]
  by_cases hzero : x.isZero = true
  · have hfinite : StaysFinite (Digits.toNatFrom 0 (['0'] ++ ['0']) * 10 ^ (-(['0'].length : Int))) := by
      have hvalue : Digits.toNatFrom 0 (['0'] ++ ['0']) = 0 := by decide
      rw [hvalue, Nat.cast_zero, zero_mul]
      exact staysFinite_far.mono (by positivity)
    obtain ⟨y, hy⟩ :=
      exists_readMagnitude_point x.negative isWhole_zero (by decide) (by decide) isDigit_of_mem_zero hfinite
    rw [if_pos hzero]
    exact ⟨_, reads_magnitude depth x.negative ⟨'0', _, rfl, by decide⟩ hy⟩
  · rw [if_neg hzero]
    have hne : x.significand ≠ 0 := by simpa [isZero] using hzero
    obtain ⟨hdigits, -⟩ := shortest_spec hne
    obtain ⟨y, hy⟩ := exists_readMagnitude x.negative hdigits (staysFinite_shortest hx hne)
    exact ⟨_, reads_magnitude depth x.negative (exists_digit_text hdigits) hy⟩

/-- Every number that fits has a text that is read as a number. -/
theorem exists_reads_number (depth : Nat) : ∀ {n : Number}, FitsReader n →
    ∃ m, Reads (readValue depth) n.text.toList (.number m)
  | .real x, h => exists_reads_real depth h
  | .integer n, h => by
    rcases Int.lt_or_le n 0 with hneg | hpos
    · obtain ⟨k, rfl⟩ : ∃ k : Nat, n = -(k : Int) := ⟨n.natAbs, by omega⟩
      rw [FitsReader, Int.natAbs_neg, Int.natAbs_natCast] at h
      obtain ⟨m, hm⟩ := exists_wholeOf true h
      have hread := reads_magnitude depth true (exists_digit_ofNat k) fun hr => by
        rw [readMagnitude_ofNat true h hr, hm]
        rfl
      rw [Digits.toList_text_neg (by omega)]
      exact ⟨m, hread⟩
    · obtain ⟨k, rfl⟩ : ∃ k : Nat, n = k := ⟨n.toNat, by omega⟩
      rw [FitsReader, Int.natAbs_natCast] at h
      obtain ⟨m, hm⟩ := exists_wholeOf false h
      have hread := reads_magnitude depth false (exists_digit_ofNat k) fun hr => by
        rw [readMagnitude_ofNat false h hr, hm]
        rfl
      rw [Digits.toList_text_natCast]
      exact ⟨m, hread⟩

end StoryManifest.Json
