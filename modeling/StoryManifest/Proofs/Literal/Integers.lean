import StoryManifest.Proofs.Literal.Bases
import StoryManifest.Proofs.Source.Constant

/-!
Integer literals mean the same number in every base, but for one number. Main statement: in every variant a
literal of a number below 2^64, under a sign or none, evaluates to the number nearest to it; the exception is
2^53 + 1, which a decimal rounds down and the other bases keep.
-/

namespace StoryManifest.Literal

open Source (Variant)
open Number (nearest? safeBound)

/-- A numeral with a sign before it, or with none. -/
def withSign (sign : Option Sign) (text : List Char) : List Char := (sign.map Sign.char).toList ++ text

/-- The number that a sign or none makes of a number. -/
def signed (sign : Option Sign) (m : Number) : Number := sign.elim m fun s => s.apply m

variable {base n : Nat} {text : List Char}

theorem IsInteger.nul_notMem (h : IsInteger n base text) : '\x00' ∉ text := by
  have hnone : ∀ base, isDigitOf base '\x00' = false := fun base => by
    unfold isDigitOf
    split
    · rfl
    split
    · rfl
    split <;> rfl
  have hdigits : ∀ {digit : Char → Bool} {ds : List Char}, digit '\x00' = false →
      Source.groupedLength digit ds = ds.length → '\x00' ∉ ds := fun hdigit hgrouped hmem => by
    rcases Source.forall_of_groupedLength hgrouped _ hmem with h | h
    · rw [hdigit] at h
      cases h
    · exact absurd h (by decide)
  cases h with
  | decimal hgrouped _ => exact hdigits rfl hgrouped
  | @marked _ letter text hmark hgrouped _ =>
    have hletter : '\x00' ≠ letter := by
      rintro rfl
      simp [baseMarks, lowered] at hmark
    simp [hletter, hdigits (hnone base) hgrouped]

/-- In every variant an integer literal evaluates to its number, with what a sign before it makes of it. -/
theorem IsInteger.evaluatesTo (h : IsInteger n base text) {m : Number}
    (hm : parseNumber? (String.ofList text) = some m) (v : Variant) (sign : Option Sign) :
    EvaluatesTo v (withSign sign text) (.number (signed sign m)) := by
  have hnul := h.nul_notMem
  cases sign with
  | none => exact evaluatesTo_of_reads hnul fun fuel => Source.readsLiteral_numeral h.isNumeral hm (fuel + 1)
  | some sign =>
    have hsign : '\x00' ∉ withSign (some sign) text := by
      cases sign <;> simpa [withSign, Sign.char] using hnul
    exact evaluatesTo_of_reads hsign fun fuel => Source.readsLiteral_signed h.isNumeral hm sign fuel

theorem signed_injective (sign : Option Sign) {a b : Int}
    (h : signed sign (.integer a) = signed sign (.integer b)) : a = b := by
  cases sign with
  | none => exact Number.integer.inj h
  | some sign =>
    cases sign with
    | plus => exact Number.integer.inj h
    | minus => exact neg_inj.mp (Number.integer.inj h)

/-- Every literal of a number below 2^64, in whatever base, case and grouping, evaluates in every variant and
under the same sign to the same number, the nearest one; but a literal of 2^53 + 1 does so in base ten
only. -/
theorem evaluatesTo_nearest (hn : n < 2 ^ 64) :
    ∃ nearest, nearest? n = some nearest ∧ (n ≤ safeBound → nearest = .integer n) ∧
      ∀ (v : Variant) (sign : Option Sign) (base : Nat) (text : List Char), IsInteger n base text →
        ∃ m, EvaluatesTo v (withSign sign text) (.number m) ∧
          (m = signed sign nearest ↔ base = 10 ∨ n ≠ safeBound + 1) := by
  obtain ⟨nearest, hnearest⟩ : ∃ nearest, nearest? n = some nearest := by
    rcases Nat.lt_or_ge (safeBound + 1) n with hgt | hle
    · obtain ⟨x, -, hx, -⟩ := Number.nearest?_of_gt hgt hn
      exact ⟨_, hx⟩
    · rcases Nat.lt_or_eq_of_le hle with hlt | rfl
      · exact ⟨_, Number.nearest?_of_le (Nat.le_of_lt_succ hlt)⟩
      · exact ⟨_, Number.nearest?_safeBound_add_one⟩
  refine ⟨nearest, hnearest, fun hle => ?_, fun v sign base text h => ?_⟩
  · rw [Number.nearest?_of_le hle] at hnearest
    exact (Option.some.inj hnearest).symm
  · have hparsed := h.parseNumber?_eq hn
    by_cases hkept : base ≠ 10 ∧ n = safeBound + 1
    · obtain ⟨hbase, rfl⟩ := hkept
      rw [if_pos ⟨hbase, rfl⟩] at hparsed
      rw [Number.nearest?_safeBound_add_one] at hnearest
      obtain rfl := Option.some.inj hnearest
      refine ⟨_, h.evaluatesTo hparsed v sign, iff_of_false (fun heq => ?_) (by simp [hbase])⟩
      have := signed_injective sign heq
      omega
    · rw [if_neg hkept, hnearest] at hparsed
      refine ⟨_, h.evaluatesTo hparsed v sign, iff_of_true rfl ?_⟩
      rw [not_and_or, not_not] at hkept
      exact hkept

/-- 2^53 + 3 in base sixteen, with zeros, underscores and letters of either case. -/
def groupedHexadecimal : List Char := "0X0020_0000_0000_0003".toList

/-- The same number in base ten. -/
def groupedDecimal : List Char := "9_007_199_254_740_995".toList

theorem evaluatesTo_nearest_grouped : IsInteger 9007199254740995 16 groupedHexadecimal ∧
    IsInteger 9007199254740995 10 groupedDecimal ∧
    ∃ nearest, nearest? 9007199254740995 = some nearest ∧
      EvaluatesTo .tsx (withSign (some .minus) groupedHexadecimal) (.number (signed (some .minus) nearest)) ∧
      EvaluatesTo .tsx (withSign (some .minus) groupedDecimal) (.number (signed (some .minus) nearest)) := by
  have hhexadecimal : IsInteger 9007199254740995 16 groupedHexadecimal :=
    .marked (by decide) (by decide) ⟨2, by decide⟩
  have hdecimal : IsInteger 9007199254740995 10 groupedDecimal := .decimal (by decide) (by decide)
  obtain ⟨nearest, hnearest, -, h⟩ := evaluatesTo_nearest (n := 9007199254740995) (by norm_num)
  obtain ⟨m, hm, heq⟩ := h .tsx (some .minus) _ _ hhexadecimal
  obtain ⟨m', hm', heq'⟩ := h .tsx (some .minus) _ _ hdecimal
  rw [heq.mpr (.inr (by decide))] at hm
  rw [heq'.mpr (.inl rfl)] at hm'
  exact ⟨hhexadecimal, hdecimal, nearest, hnearest, hm, hm'⟩

/-- The first number above 2^53 in base sixteen. -/
def firstHexadecimal : List Char := "0x20000000000001".toList

/-- The same number in base ten. -/
def firstDecimal : List Char := "9007199254740993".toList

/-- Of 2^53 + 1, literals in two bases evaluate to two numbers. -/
theorem bases_differ : IsInteger 9007199254740993 16 firstHexadecimal ∧
    IsInteger 9007199254740993 10 firstDecimal ∧
    ¬∃ m, EvaluatesTo .tsx firstHexadecimal (.number m) ∧ EvaluatesTo .tsx firstDecimal (.number m) := by
  have hhexadecimal : IsInteger 9007199254740993 16 firstHexadecimal :=
    .marked (by decide) (by decide) ⟨0, by decide⟩
  have hdecimal : IsInteger 9007199254740993 10 firstDecimal := .decimal (by decide) (by decide)
  refine ⟨hhexadecimal, hdecimal, ?_⟩
  rintro ⟨m, hm, hm'⟩
  have hkept : EvaluatesTo .tsx firstHexadecimal (.number (.integer 9007199254740993)) :=
    hhexadecimal.evaluatesTo (hhexadecimal.parseNumber?_eq (by norm_num)) .tsx none
  have hrounded : EvaluatesTo .tsx firstDecimal (.number (.integer 9007199254740992)) :=
    hdecimal.evaluatesTo (hdecimal.parseNumber?_eq (by norm_num)) .tsx none
  have heq := (hkept.unique hm).trans (hm'.unique hrounded)
  cases heq

end StoryManifest.Literal
