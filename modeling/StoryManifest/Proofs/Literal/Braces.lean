import StoryManifest.Proofs.Literal.Spelling

/-!
Units by number. A unit is named by four digits after `\u`, or by digits in braces; the braces name a
character, so half of a surrogate pair has no spelling in them and is left out. A text has as many units
as it was made of, so what is left out is missed: main statement, the two spellings of a unit in a
literal make the same text just when the unit is no half of a pair.
-/

namespace StoryManifest

namespace Text.Utf16

/-- A unit that is half of a surrogate pair. -/
def isHalf (u : Nat) : Bool := isHigh u || isLow u

theorem isHalf_iff {u : Nat} : isHalf u = true ↔ 0xD800 ≤ u ∧ u < 0xE000 := by
  simp only [isHalf, isHigh, isLow, Bool.or_eq_true, Bool.and_eq_true, decide_eq_true_eq]
  omega

theorem isValidChar_iff {u : Nat} (hu : u < 0x10000) : u.isValidChar ↔ isHalf u = false := by
  rw [← Bool.not_eq_true, isHalf_iff, Nat.isValidChar]
  omega

theorem unitsOf_lt (c : Char) : ∀ u ∈ unitsOf c, u < 0x10000 := by
  have hvalid : c.toNat.isValidChar := c.valid
  simp only [Nat.isValidChar] at hvalid
  intro u hu
  rw [unitsOf] at hu
  split at hu <;> simp only [List.mem_cons, List.not_mem_nil, or_false] at hu <;> omega

theorem toNat_ofNat {n : Nat} (h : n.isValidChar) : (Char.ofNat n).toNat = n := by
  rw [Char.ofNat, dif_pos h]
  rfl

theorem unitsOf_ofNat {n : Nat} (hn : n < 0x10000) (h : isHalf n = false) :
    unitsOf (Char.ofNat n) = [n] := by
  have hnat : (Char.ofNat n).toNat = n := toNat_ofNat ((isValidChar_iff hn).mpr h)
  rw [unitsOf, hnat, if_pos hn]

theorem length_unitsOf_ofPair {high low : Nat} (hhigh : isHigh high = true) (hlow : isLow low = true) :
    (unitsOf (ofPair high low)).length = 2 := by
  simp only [isHigh, isLow, Bool.and_eq_true, decide_eq_true_eq] at hhigh hlow
  have hvalid : (0x10000 + (high - 0xD800) * 0x400 + (low - 0xDC00)).isValidChar := by
    rw [Nat.isValidChar]
    omega
  have hnat : (ofPair high low).toNat = 0x10000 + (high - 0xD800) * 0x400 + (low - 0xDC00) :=
    toNat_ofNat hvalid
  rw [unitsOf, hnat, if_neg (by omega)]
  rfl

/-- A text has as many units as it was made of, since a half without a partner becomes a character of one
unit. -/
theorem length_units_ofUnits (us : List Nat) (h : ∀ u ∈ us, u < 0x10000) :
    (units (ofUnits us)).length = us.length := by
  fun_induction ofUnits us with
  | case1 => rfl
  | case2 u hhalf => rfl
  | case3 u hhalf =>
    have hu := unitsOf_ofNat (h u (by simp)) (Bool.eq_false_iff.mpr hhalf)
    simp [units, hu]
  | case4 u v rest hhigh hlow ih =>
    have hpair := length_unitsOf_ofPair hhigh hlow
    have ih := ih fun w hw => h w (by simp [hw])
    simp only [units, List.length_append, List.length_cons, hpair, ih]
    omega
  | case5 u v rest hhigh hlow ih =>
    have ih := ih fun w hw => h w (List.mem_cons_of_mem _ hw)
    have hone : (unitsOf replacement).length = 1 := rfl
    simp only [units, List.length_append, hone, ih, List.length_cons]
    omega
  | case6 u v rest hhigh hlow ih =>
    have ih := ih fun w hw => h w (List.mem_cons_of_mem _ hw)
    have hone : (unitsOf replacement).length = 1 := rfl
    simp only [units, List.length_append, hone, ih, List.length_cons]
    omega
  | case7 u v rest hhigh hlow ih =>
    have ih := ih fun w hw => h w (List.mem_cons_of_mem _ hw)
    have hu := unitsOf_ofNat (h u (by simp)) (by simp [isHalf, hhigh, hlow])
    simp only [units, List.length_append, hu, ih, List.length_cons, List.length_nil]
    omega

/-- Different numbers of units are units of different texts. -/
theorem ofUnits_ne {us vs : List Nat} (hus : ∀ u ∈ us, u < 0x10000) (hvs : ∀ v ∈ vs, v < 0x10000)
    (h : us.length ≠ vs.length) : ofUnits us ≠ ofUnits vs := fun heq => by
  rw [← length_units_ofUnits us hus, ← length_units_ofUnits vs hvs, heq] at h
  exact h rfl

end Text.Utf16

namespace Literal

open Source
open Text.Utf16 (isHalf unitsOf unitsOf_lt unitsOf_ofNat ofUnits_ne)

variable {quote next : Char} {cs ds : List Char} {us : List Nat} {n : Nat}

/-! ### Units of escapes -/

theorem numberedUnit_lt (base : Nat) (cs : List Char) : ∀ u ∈ numberedUnit base cs, u < 0x10000 := by
  intro u hu
  rw [numberedUnit, Option.mem_toList, digitsBelow?, Option.filter_eq_some_iff] at hu
  exact of_decide_eq_true hu.2

theorem numberedCharacter_lt (cs : List Char) : ∀ u ∈ numberedCharacter cs, u < 0x10000 := by
  intro u hu
  unfold numberedCharacter at hu
  split at hu
  · split at hu
    · exact unitsOf_lt _ u hu
    · cases hu
  · cases hu

theorem escapeUnits_lt (body : List Char) : ∀ u ∈ escapeUnits body, u < 0x10000 := by
  have hletter : ∀ e ∈ letterEscapes, e.2 < 0x10000 := by decide
  intro u hu
  unfold escapeUnits at hu
  split at hu
  · cases hu
  split at hu
  · rename_i hlookup
    obtain ⟨before, after, heq, -⟩ := List.lookup_eq_some_iff.mp hlookup
    rw [List.mem_singleton.mp hu]
    exact hletter (_, _) (heq.symm ▸ List.mem_append_right before List.mem_cons_self)
  split at hu
  · cases hu
  split at hu
  · exact numberedUnit_lt _ _ u hu
  split at hu
  · split at hu
    · split at hu
      · exact numberedCharacter_lt _ u hu
      · exact numberedUnit_lt _ _ u hu
    · exact numberedUnit_lt _ _ u hu
  split at hu
  · exact numberedUnit_lt _ _ u hu
  · exact unitsOf_lt _ u hu

theorem units_lt_of_body (h : Body quote next cs us) : ∀ u ∈ us, u < 0x10000 := by
  induction h with
  | nil => exact fun _ h => nomatch h
  | plain _ _ ih => exact List.forall_mem_append.mpr ⟨unitsOf_lt _, ih⟩
  | escape _ _ ih => exact List.forall_mem_append.mpr ⟨escapeUnits_lt _, ih⟩

/-! ### The two spellings of a unit -/

/-- The characters of a unit's number, without braces. -/
def fourDigits (ds : List Char) : List Char := '\\' :: 'u' :: ds

/-- The characters of a number in braces. -/
def inBraces (ds : List Char) : List Char := '\\' :: 'u' :: '\x7b' :: (ds ++ ['\x7d'])

/-- A number of four digits in braces keeps its unit unless that is half of a pair. -/
theorem characterUnits_eq (hn : n < 0x10000) : characterUnits n = if isHalf n then [] else [n] := by
  cases hhalf : isHalf n with
  | false =>
    have hvalid : n.isValidChar := (Text.Utf16.isValidChar_iff hn).mpr hhalf
    rw [characterUnits, if_pos hvalid, unitsOf_ofNat hn hhalf]
    rfl
  | true =>
    have hvalid : ¬n.isValidChar := fun h => by simp [(Text.Utf16.isValidChar_iff hn).mp h] at hhalf
    rw [characterUnits, if_neg hvalid]
    rfl

/-- Wherever a unit stands in a literal, writing its number in braces instead of without them leaves the
text as it is just when the unit is no half of a surrogate pair; in every variant both literals evaluate
to a text. -/
theorem braced_eq_iff (v : Variant) (hquote : quote ∈ quoteChars) {before after : List Char}
    {us vs : List Nat}
    (hbefore : Body quote '\\' before us) (hafter : Body quote quote after vs)
    (hnul : '\x00' ∉ before ++ after)
    (h : AreDigits 16 n ds) (hlength : ds.length = 4) :
    ∃ s s', EvaluatesTo v (quote :: (before ++ fourDigits ds ++ after ++ [quote])) (.text s) ∧
      EvaluatesTo v (quote :: (before ++ inBraces ds ++ after ++ [quote])) (.text s') ∧
      (s' = s ↔ ¬(0xD800 ≤ n ∧ n < 0xE000)) := by
  have hn : n < 0x10000 := h.lt_of_length hlength
  have hunit : Body quote quote (before ++ fourDigits ds ++ after) (us ++ n :: vs) := by
    rw [List.append_assoc]
    exact hbefore.append endsEscape_backslash (body_unit h hlength hafter)
  have hbraced : Body quote quote (before ++ inBraces ds ++ after) (us ++ (characterUnits n ++ vs)) := by
    have htail := body_braced h hafter
    rw [List.append_assoc, inBraces, List.cons_append, List.cons_append, List.cons_append, List.append_assoc]
    exact hbefore.append endsEscape_backslash htail
  have hnul' : ∀ escape ∈ [fourDigits ds, inBraces ds], '\x00' ∉ before ++ escape ++ after := by
    rw [List.mem_append, not_or] at hnul
    simp [fourDigits, inBraces, hnul, h.nul_notMem]
  refine ⟨_, _, evaluatesTo_of_body hquote hunit (hnul' _ (by simp)),
    evaluatesTo_of_body hquote hbraced (hnul' _ (by simp)), ?_⟩
  have hlt := units_lt_of_body hbraced
  rw [String.ofList_inj, ← Text.Utf16.isHalf_iff]
  rw [characterUnits_eq hn] at hlt ⊢
  cases hhalf : isHalf n with
  | false => simp
  | true =>
    -- The half is left out, so the text is one unit short.
    rw [hhalf] at hlt
    exact iff_of_false (ofUnits_ne hlt (units_lt_of_body hunit) (by simp)) (by simp)

/-- A letter by its number, between two escapes of other kinds. -/
theorem braced_eq_letter : '\'' ∈ quoteChars ∧ Body '\'' '\\' ['\\', '0'] [0] ∧
    Body '\'' '\'' ['\\', 'n'] [10] ∧ '\x00' ∉ ['\\', '0'] ++ ['\\', 'n'] ∧
    AreDigits 16 0xE9 ['0', '0', 'E', '9'] ∧
    ∃ s, EvaluatesTo .tsx
      ('\'' :: (['\\', '0'] ++ fourDigits ['0', '0', 'E', '9'] ++ ['\\', 'n'] ++ ['\''])) (.text s) ∧
      EvaluatesTo .tsx ('\'' :: (['\\', '0'] ++ inBraces ['0', '0', 'E', '9'] ++ ['\\', 'n'] ++ ['\'']))
        (.text s) := by
  have hbefore : Body '\'' '\\' ['\\', '0'] [0] := body_null (by decide) (by simp) .nil
  have hafter : Body '\'' '\'' ['\\', 'n'] [10] :=
    body_letter (show ('n', '\n') ∈ letterSpellings by decide) .nil
  have hdigits : AreDigits 16 0xE9 ['0', '0', 'E', '9'] := ⟨2, by decide⟩
  obtain ⟨s, s', hs, hs', heq⟩ := braced_eq_iff .tsx (by decide) hbefore hafter (by decide) hdigits rfl
  obtain rfl := heq.mpr (by decide)
  exact ⟨by decide, hbefore, hafter, by decide, hdigits, s', hs, hs'⟩

/-- The halves of a pair by their numbers. -/
def pairText : List Char :=
  '"' :: (fourDigits ['D', '8', '3', 'D'] ++ fourDigits ['D', 'E', '0', '0'] ++ ['"'])

/-- The same halves, the first one in braces. -/
def bracedPairText : List Char :=
  '"' :: (inBraces ['D', '8', '3', 'D'] ++ fourDigits ['D', 'E', '0', '0'] ++ ['"'])

/-- A pair whose first half is in braces is no character. -/
theorem braced_half_differs :
    EvaluatesTo .tsx pairText (.text "😀") ∧ EvaluatesTo .tsx bracedPairText (.text "\uFFFD") ∧
    ¬∃ s, EvaluatesTo .tsx pairText (.text s) ∧ EvaluatesTo .tsx bracedPairText (.text s) := by
  have hhigh : AreDigits 16 0xD83D ['D', '8', '3', 'D'] := ⟨0, by decide⟩
  have hlow : AreDigits 16 0xDE00 ['D', 'E', '0', '0'] := ⟨0, by decide⟩
  have hlast : Body '"' '"' (fourDigits ['D', 'E', '0', '0']) [0xDE00] := body_unit hlow rfl .nil
  have hpair : EvaluatesTo .tsx pairText (.text "😀") :=
    evaluatesTo_of_body (by decide) (body_unit hhigh rfl hlast) (by decide)
  have hbraced : EvaluatesTo .tsx bracedPairText (.text "\uFFFD") :=
    evaluatesTo_of_body (by decide) (body_braced hhigh hlast) (by decide)
  refine ⟨hpair, hbraced, ?_⟩
  rintro ⟨s, hs, hs'⟩
  have heq := (hpair.unique hs).trans (hs'.unique hbraced)
  exact absurd (Value.text.inj heq) (by decide)

end Literal

end StoryManifest
