import StoryManifest.Proofs.Number.Range
import StoryManifest.Proofs.Source.Lexemes

/-!
Which numeric literals have a number. Underscores and the case of letters aside, a literal is a row of
digits in a base that is marked in front of it, or a decimal with perhaps a point and an exponent. It has a
number exactly when the digits are below 2^64, and when the decimal has a finite nearest number. A big
integer is neither, for the letter at its end.
-/

namespace StoryManifest.Literal

open Number (Binary64)

/-- The marks of the bases other than ten. -/
def baseMarks : List (Char × Nat) := [('x', 16), ('o', 8), ('b', 2)]

/-- A point with the digits after it, or nothing. -/
inductive IsFraction : List Char → List Char → Prop
  | absent : IsFraction [] []
  | point (digits : List Char) : IsFraction ('.' :: digits) digits

/-- A text that gives an exponent, or nothing. -/
inductive IsExponent : List Char → Int → Prop
  | absent : IsExponent [] 0
  | plain {digits : List Char} {n : Nat} : digits? 10 digits = some n → IsExponent ('e' :: digits) n
  | positive {digits : List Char} {n : Nat} : digits? 10 digits = some n →
      IsExponent ('e' :: '+' :: digits) n
  | negative {digits : List Char} {n : Nat} : digits? 10 digits = some n →
      IsExponent ('e' :: '-' :: digits) (-n)

/-- The characters of a literal with a number, in lower case and without underscores. -/
inductive Numeral : List Char → Prop
  | marked {mark : Char} {base n : Nat} {digits : List Char} : (mark, base) ∈ baseMarks →
      digits? base digits = some n → n < 2 ^ 64 → Numeral ('0' :: mark :: digits)
  | decimal {whole point fraction exponent : List Char} {n : Nat} {e : Int} :
      IsFraction point fraction → IsExponent exponent e → digits? 10 (whole ++ fraction) = some n →
      (n : ℚ) * 10 ^ (e - fraction.length) < Binary64.overflowBound →
      Numeral (whole ++ point ++ exponent)

/-- A numeric literal that is no big integer and has a number that is not too large. -/
def Representable (text : String) : Prop := Numeral ((text.toList.filter (· ≠ '_')).map lowered)

variable {base n : Nat} {cs ds whole point fraction exponent : List Char} {e : Int}

/-! ### Digits -/

theorem digitValue?_of_digitsFrom : ∀ {ds : List Char} {m n : Nat}, digitsFrom base m ds = some n →
    ∀ c ∈ ds, ∃ d, digitValue? c = some d ∧ d < base
  | [], _, _, _ => by simp
  | c :: ds, m, n, h => by
    rw [digitsFrom] at h
    split at h
    · rename_i d hd
      split at h
      · rename_i hlt
        exact List.forall_mem_cons.mpr ⟨⟨d, hd, hlt⟩, digitValue?_of_digitsFrom h⟩
      · cases h
    · cases h

theorem digitValue?_of_digits? (h : digits? base ds = some n) :
    ∀ c ∈ ds, ∃ d, digitValue? c = some d ∧ d < base := by
  rw [digits?] at h
  split at h
  · cases h
  · exact digitValue?_of_digitsFrom h

theorem ne_nil_of_digits? (h : digits? base ds = some n) : ds ≠ [] := by
  rintro rfl
  cases h

theorem isDigit_of_digitValue? {c : Char} {d : Nat} (h : digitValue? c = some d) (hd : d < 10) :
    c.isDigit = true := by
  unfold digitValue? at h
  split at h
  · rename_i hc
    simpa [Char.isDigit, Char.le_def] using hc
  · split at h
    · cases h
      omega
    · split at h
      · cases h
        omega
      · cases h

/-- The digits of a decimal are decimal digits. -/
theorem isDigit_of_digits? (h : digits? 10 ds = some n) : ∀ c ∈ ds, c.isDigit = true := fun c hc => by
  obtain ⟨d, hd, hlt⟩ := digitValue?_of_digits? h c hc
  exact isDigit_of_digitValue? hd hlt

/-! ### No big integer -/

theorem IsExponent.notMem_n (h : IsExponent exponent e) : 'n' ∉ exponent := by
  have hdigits : ∀ {ds : List Char} {n : Nat}, digits? 10 ds = some n → 'n' ∉ ds := fun h hmem =>
    absurd (isDigit_of_digits? h _ hmem) (by decide)
  cases h with
  | absent => simp
  | plain h => simp [hdigits h]
  | positive h => simp [hdigits h]
  | negative h => simp [hdigits h]

/-- The letter of big integers is in no literal with a number. -/
theorem Numeral.notMem_n (h : Numeral cs) : 'n' ∉ cs := by
  cases h with
  | @marked mark base n digits hbase hdigits hbound =>
    have hmark : 'n' ≠ mark := by
      rintro rfl
      simp [baseMarks] at hbase
    have hmem : 'n' ∉ digits := fun hmem => by
      obtain ⟨d, hd, -⟩ := digitValue?_of_digits? hdigits _ hmem
      cases hd
    simp [hmark, hmem]
  | @decimal whole point fraction exponent n e hpoint hexponent hdigits hfinite =>
    have hmem : 'n' ∉ whole ++ fraction := fun hmem =>
      absurd (isDigit_of_digits? hdigits _ hmem) (by decide)
    rw [List.mem_append, not_or] at hmem
    cases hpoint <;> simp_all [hexponent.notMem_n]

/-! ### Marked bases -/

theorem radix?_eq_some_iff : radix? cs = some (base, ds) ↔
    ∃ mark, (mark, base) ∈ baseMarks ∧ cs = '0' :: mark :: ds := by
  constructor
  · intro h
    unfold radix? at h
    split at h
    · obtain ⟨rfl, rfl⟩ := Prod.mk.inj (Option.some.inj h)
      exact ⟨'x', by decide, rfl⟩
    · obtain ⟨rfl, rfl⟩ := Prod.mk.inj (Option.some.inj h)
      exact ⟨'o', by decide, rfl⟩
    · obtain ⟨rfl, rfl⟩ := Prod.mk.inj (Option.some.inj h)
      exact ⟨'b', by decide, rfl⟩
    · cases h
  · rintro ⟨mark, hmark, rfl⟩
    simp only [baseMarks, List.mem_cons, Prod.mk.injEq, List.not_mem_nil, or_false] at hmark
    rcases hmark with ⟨rfl, rfl⟩ | ⟨rfl, rfl⟩ | ⟨rfl, rfl⟩ <;> rfl

/-- Every number below 2^64 has a nearest finite number. -/
theorem isSome_ofNatural (h : n < 2 ^ 64) : (ofNatural n).isSome = true := by
  have hbound : ((n : Nat) : ℚ) / (1 : Nat) < Binary64.overflowBound := by
    refine lt_of_lt_of_le ?_ Binary64.pow_le_overflowBound
    have hlt : (n : ℚ) < 2 ^ 64 := by exact_mod_cast h
    rw [Nat.cast_one, div_one]
    exact hlt.trans_le (pow_le_pow_right₀ (by norm_num) (by norm_num))
  have hfinite := (Binary64.isSome_ofRatio_iff ((n : Int) < 0) one_ne_zero).mpr hbound
  obtain ⟨x, hx⟩ := Option.isSome_iff_exists.mp hfinite
  have hint : Binary64.ofInt n = some x := hx
  rw [ofNatural, hint]
  dsimp only
  split <;> rfl

theorem isSome_digitsBelow? :
    ((digitsBelow? wordBound base ds).bind ofNatural).isSome = true ↔
      ∃ n, digits? base ds = some n ∧ n < 2 ^ 64 := by
  have hword : wordBound = 2 ^ 64 := rfl
  cases hdigits : digits? base ds with
  | none => simp [digitsBelow?, hdigits]
  | some n =>
    rw [digitsBelow?, hdigits, Option.filter_some, hword]
    by_cases hn : n < 2 ^ 64
    · simp only [hn, decide_true, if_true, Option.bind_some, isSome_ofNatural hn, Option.some.injEq,
        exists_eq_left']
    · simp only [hn, decide_false, Bool.false_eq_true, if_false, Option.bind_none, Option.isSome_none,
        Option.some.injEq, exists_eq_left']

/-! ### Decimals -/

theorem takeWhile_digits (hds : ∀ c ∈ ds, c.isDigit = true) (hcs : ∀ c ∈ cs.head?, c.isDigit = false) :
    (ds ++ cs).takeWhile Char.isDigit = ds := by
  have hstop : cs.takeWhile Char.isDigit = [] := by
    cases cs with
    | nil => rfl
    | cons c cs => simp [hcs c (by simp)]
  rw [List.takeWhile_append_of_pos hds, hstop, List.append_nil]

theorem IsExponent.head?_not_digit (h : IsExponent exponent e) :
    ∀ c ∈ exponent.head?, c.isDigit = false := by
  cases h <;> simp

/-- The exponent that the text after the digits of a decimal gives. -/
def exponentOf? : List Char → Option Int
  | [] => some 0
  | 'e' :: more => exponent? more
  | _ => none

theorem exponentOf?_eq_some_iff : exponentOf? cs = some e ↔ IsExponent cs e := by
  constructor
  · intro h
    unfold exponentOf? at h
    split at h
    · cases h
      exact .absent
    · unfold exponent? at h
      split at h <;> simp only [Option.pure_def, Option.bind_eq_bind, Option.map_eq_some_iff,
        Option.bind_eq_some_iff, Option.some.injEq] at h <;> obtain ⟨_, ⟨n, hn, rfl⟩, rfl⟩ := h
      · exact .negative hn
      · exact .positive hn
      · exact .plain hn
    · cases h
  · intro h
    cases h with
    | absent => rfl
    | @plain digits n h =>
      have hdigit := isDigit_of_digits? h
      obtain ⟨c, cs, rfl⟩ := List.exists_cons_of_ne_nil (ne_nil_of_digits? h)
      have hc := hdigit c (by simp)
      have hminus : c ≠ '-' := digit_ne hc '-' (by decide)
      have hplus : c ≠ '+' := digit_ne hc '+' (by decide)
      simp [exponentOf?, exponent?, h, hminus, hplus]
    | positive h => simp [exponentOf?, exponent?, h]
    | negative h => simp [exponentOf?, exponent?, h]

/-- The number of a decimal with the digits and the text that gives the exponent. -/
def decimalOf? (digits fraction exponent : List Char) : Option Binary64 :=
  (digits? 10 digits).bind fun n => (exponentOf? exponent).bind fun e =>
    Binary64.ofDecimal false n (e - fraction.length)

theorem decimalOf?_eq (digits fraction exponent : List Char) :
    decimalOf? digits fraction exponent = match digits? 10 digits, exponentOf? exponent with
      | some n, some e => Binary64.ofDecimal false n (e - fraction.length)
      | _, _ => none := by
  unfold decimalOf?
  cases digits? 10 digits <;> cases exponentOf? exponent <;> rfl

theorem decimal?_point (hwhole : ∀ c ∈ whole, c.isDigit = true)
    (hfraction : ∀ c ∈ fraction, c.isDigit = true)
    (hcs : ∀ c ∈ cs.head?, c.isDigit = false) :
    decimal? (whole ++ '.' :: (fraction ++ cs)) = decimalOf? (whole ++ fraction) fraction cs := by
  have htake : (whole ++ '.' :: (fraction ++ cs)).takeWhile Char.isDigit = whole :=
    takeWhile_digits hwhole (by simp)
  rw [decimalOf?_eq, decimal?]
  simp only [htake, List.drop_left, takeWhile_digits hfraction hcs]
  rfl

theorem decimal?_plain (hwhole : ∀ c ∈ whole, c.isDigit = true)
    (hcs : ∀ c ∈ cs.head?, c.isDigit = false ∧ c ≠ '.') :
    decimal? (whole ++ cs) = decimalOf? whole [] cs := by
  have htake : (whole ++ cs).takeWhile Char.isDigit = whole :=
    takeWhile_digits hwhole fun c hc => (hcs c hc).1
  rw [decimalOf?_eq, decimal?]
  simp only [htake, List.drop_left]
  cases cs with
  | nil =>
    rw [List.append_nil]
    rfl
  | cons c cs =>
    have hc : c ≠ '.' := (hcs c (by simp)).2
    simp only [List.cons.injEq, hc, false_and, imp_false, not_false_eq_true, implies_true, List.append_nil]
    rfl

/-- A text is its first digits and a rest that starts with no digit. -/
theorem exists_digits_append (cs : List Char) : ∃ ds rest, cs = ds ++ rest ∧
    (∀ c ∈ ds, c.isDigit = true) ∧ ∀ c ∈ rest.head?, c.isDigit = false :=
  ⟨cs.takeWhile Char.isDigit, cs.dropWhile Char.isDigit, List.takeWhile_append_dropWhile.symm,
    fun _ hc => List.mem_takeWhile_imp hc, fun c hc => by
      simpa [Option.mem_def.mp hc] using List.head?_dropWhile_not Char.isDigit cs⟩

/-- Every text is read as digits, a point with digits, and what gives the exponent. -/
theorem exists_decimal?_eq (cs : List Char) : ∃ whole point fraction rest,
    cs = whole ++ point ++ rest ∧ IsFraction point fraction ∧
    decimal? cs = decimalOf? (whole ++ fraction) fraction rest := by
  obtain ⟨whole, rest, rfl, hwhole, hrest⟩ := exists_digits_append cs
  by_cases hpoint : rest.head? = some '.'
  · obtain ⟨more, rfl⟩ : ∃ more, rest = '.' :: more := List.head?_eq_some_iff.mp hpoint
    obtain ⟨fraction, rest, rfl, hfraction, hmore⟩ := exists_digits_append more
    exact ⟨whole, _, fraction, rest, by simp, .point fraction, decimal?_point hwhole hfraction hmore⟩
  · have hplain := decimal?_plain hwhole fun c hc => ⟨hrest c hc, fun h => hpoint (h ▸ hc)⟩
    exact ⟨whole, [], [], rest, by simp, .absent, by rw [hplain, List.append_nil]⟩

/-- A decimal is read as the parts that it is written from. -/
theorem decimal?_append (hpoint : IsFraction point fraction) (hexponent : IsExponent exponent e)
    (hdigits : digits? 10 (whole ++ fraction) = some n) :
    decimal? (whole ++ point ++ exponent) = Binary64.ofDecimal false n (e - fraction.length) := by
  have hdigit := isDigit_of_digits? hdigits
  have hwhole : ∀ c ∈ whole, c.isDigit = true := fun c hc => hdigit c (by simp [hc])
  have hfraction : ∀ c ∈ fraction, c.isDigit = true := fun c hc => hdigit c (by simp [hc])
  have hvalue : decimalOf? (whole ++ fraction) fraction exponent =
      Binary64.ofDecimal false n (e - fraction.length) := by
    simp [decimalOf?, hdigits, exponentOf?_eq_some_iff.mpr hexponent]
  rw [← hvalue]
  cases hpoint with
  | absent =>
    have hplain : ∀ c ∈ exponent.head?, c.isDigit = false ∧ c ≠ '.' := by cases hexponent <;> simp
    simpa using decimal?_plain hwhole hplain
  | point => simpa using decimal?_point hwhole hfraction hexponent.head?_not_digit

/-- A decimal starts like no literal in another base. -/
theorem radix?_decimal (hpoint : IsFraction point fraction) (hexponent : IsExponent exponent e)
    (hdigits : digits? 10 (whole ++ fraction) = some n) : radix? (whole ++ point ++ exponent) = none := by
  have hdigit := isDigit_of_digits? hdigits
  have hwhole : ∀ c ∈ whole, c.isDigit = true := fun c hc => hdigit c (by simp [hc])
  rw [Option.eq_none_iff_forall_ne_some]
  rintro ⟨base, ds⟩ h
  obtain ⟨mark, hmark, heq⟩ := radix?_eq_some_iff.mp h
  have hletter : mark.isDigit = false ∧ mark ≠ '.' ∧ mark ≠ 'e' := by
    simp only [baseMarks, List.mem_cons, Prod.mk.injEq, List.not_mem_nil, or_false] at hmark
    rcases hmark with ⟨rfl, -⟩ | ⟨rfl, -⟩ | ⟨rfl, -⟩ <;> decide
  have hhead : ∀ c ∈ (point ++ exponent).head?, c.isDigit = false ∧ (c = '.' ∨ c = 'e') := by
    cases hpoint <;> cases hexponent <;> simp
  -- Both readings end the digits before the mark, and the rest of a decimal has no mark there.
  have htake := takeWhile_digits hwhole fun c hc => (hhead c hc).1
  have htake' : ('0' :: mark :: ds).takeWhile Char.isDigit = ['0'] := by simp [hletter.1]
  rw [← List.append_assoc, heq, htake'] at htake
  rw [List.append_assoc, ← htake] at heq
  have hrest : point ++ exponent = mark :: ds := (List.cons.inj heq).2
  obtain ⟨-, hmark⟩ := hhead mark (by simp [hrest])
  exact hmark.elim hletter.2.1 hletter.2.2

theorem isSome_decimal?_iff : (decimal? cs).isSome = true ↔ ∃ whole point fraction exponent n e,
    cs = whole ++ point ++ exponent ∧ IsFraction point fraction ∧ IsExponent exponent e ∧
    digits? 10 (whole ++ fraction) = some n ∧
    (n : ℚ) * 10 ^ (e - fraction.length) < Binary64.overflowBound := by
  constructor
  · intro h
    obtain ⟨whole, point, fraction, rest, rfl, hpoint, hread⟩ := exists_decimal?_eq cs
    obtain ⟨x, hx⟩ := Option.isSome_iff_exists.mp h
    rw [hread, decimalOf?, Option.bind_eq_some_iff] at hx
    obtain ⟨n, hdigits, hx⟩ := hx
    obtain ⟨e, hexponent, hx⟩ := Option.bind_eq_some_iff.mp hx
    exact ⟨whole, point, fraction, rest, n, e, rfl, hpoint, exponentOf?_eq_some_iff.mp hexponent,
      hdigits, (Binary64.isSome_ofDecimal_iff _ _ _).mp (by rw [hx]; rfl)⟩
  · rintro ⟨whole, point, fraction, exponent, n, e, rfl, hpoint, hexponent, hdigits, hfinite⟩
    rw [decimal?_append hpoint hexponent hdigits]
    exact (Binary64.isSome_ofDecimal_iff _ _ _).mpr hfinite

/-! ### Literals -/

/-- The number of a literal that is no big integer. -/
def numeralOf? (cs : List Char) : Option Number :=
  match radix? cs with
  | some (base, digits) => (digitsBelow? wordBound base digits).bind ofNatural
  | none => (decimal? cs).map Number.ofBinary64

theorem isSome_numeralOf?_iff : (numeralOf? cs).isSome = true ↔ Numeral cs := by
  unfold numeralOf?
  constructor
  · intro h
    split at h
    · rename_i base digits hradix
      obtain ⟨mark, hmark, rfl⟩ := radix?_eq_some_iff.mp hradix
      obtain ⟨n, hdigits, hbound⟩ := isSome_digitsBelow?.mp h
      exact .marked hmark hdigits hbound
    · rw [Option.isSome_map] at h
      obtain ⟨whole, point, fraction, exponent, n, e, rfl, hpoint, hexponent, hdigits, hfinite⟩ :=
        isSome_decimal?_iff.mp h
      exact .decimal hpoint hexponent hdigits hfinite
  · intro h
    cases h with
    | marked hmark hdigits hbound =>
      rw [radix?_eq_some_iff.mpr ⟨_, hmark, rfl⟩]
      exact isSome_digitsBelow?.mpr ⟨_, hdigits, hbound⟩
    | decimal hpoint hexponent hdigits hfinite =>
      rw [radix?_decimal hpoint hexponent hdigits]
      dsimp only
      rw [Option.isSome_map]
      exact isSome_decimal?_iff.mpr ⟨_, _, _, _, _, _, rfl, hpoint, hexponent, hdigits, hfinite⟩

/-- A numeric literal has a number exactly when it is representable. -/
theorem isSome_parseNumber?_iff (text : String) :
    (parseNumber? text).isSome = true ↔ Representable text := by
  rw [Representable, ← isSome_numeralOf?_iff, parseNumber?]
  dsimp only
  split
  · rename_i hlast
    have hmem : 'n' ∈ (text.toList.filter (· ≠ '_')).map lowered :=
      List.mem_map.mpr ⟨'n', List.mem_of_getLast? hlast, rfl⟩
    exact iff_of_false Bool.false_ne_true fun h => (isSome_numeralOf?_iff.mp h).notMem_n hmem
  · rfl

end StoryManifest.Literal
