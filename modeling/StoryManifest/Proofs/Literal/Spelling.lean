import StoryManifest.Proofs.Literal.Bases
import StoryManifest.Proofs.Source.Constant

/-!
Spellings of strings. A character between quotes is written as it stands or as an escape, of a letter, of its
number, or of the two halves of a surrogate pair. Main statement: however each character of a string is
spelled, and wherever lines are continued between them, the literal evaluates to the string.
-/

namespace StoryManifest.Literal

open Source
open Text.Utf16 (units unitsOf)

/-! ### Spellings -/

/-- Escapes of one character, with the characters that they stand for. -/
def letterSpellings : List (Char × Char) :=
  [('n', '\n'), ('t', '\t'), ('r', '\r'), ('b', '\x08'), ('f', '\x0c'), ('v', '\x0b'), ('\\', '\\'),
    ('\'', '\''),
    ('"', '"')]

/-- The ways to write a character between quotes of a kind. -/
inductive Spells (quote : Char) : List Char → Char → Prop
  | itself {c : Char} : c ∉ ['\x00', quote, '\\'] → isLineEndOrReturn c = false → Spells quote [c] c
  | letter {letter c : Char} : (letter, c) ∈ letterSpellings → Spells quote ['\\', letter] c
  | null : Spells quote ['\\', '0'] '\x00'
  | byte {c : Char} {ds : List Char} : AreDigits 16 c.toNat ds → ds.length = 2 →
    Spells quote ('\\' :: 'x' :: ds) c
  | unit {c : Char} {ds : List Char} : AreDigits 16 c.toNat ds → ds.length = 4 →
    Spells quote ('\\' :: 'u' :: ds) c
  | pair {c : Char} {high low : Nat} {hs ls : List Char} :
      0xD800 ≤ high → high < 0xDC00 → 0xDC00 ≤ low → low < 0xE000 →
      c.toNat = 0x10000 + (high - 0xD800) * 0x400 + (low - 0xDC00) →
      AreDigits 16 high hs → hs.length = 4 → AreDigits 16 low ls → ls.length = 4 →
      Spells quote ('\\' :: 'u' :: (hs ++ '\\' :: 'u' :: ls)) c
  | braced {c : Char} {ds : List Char} : AreDigits 16 c.toNat ds →
      Spells quote ('\\' :: 'u' :: '\x7b' :: (ds ++ ['\x7d'])) c

/-- A text between quotes of a kind spells a string: each character in one of the ways, the short one for the
zero character only where no octal digit follows, with lines continued in between. -/
inductive Spelled (quote : Char) : List Char → List Char → Prop
  | nil : Spelled quote [] []
  | char {piece rest : List Char} {c : Char} {cs : List Char} : Spells quote piece c →
      (piece = ['\\', '0'] → ∀ d ∈ rest.head?, isOctalDigit d = false) → Spelled quote rest cs →
      Spelled quote (piece ++ rest) (c :: cs)
  | continuation {lineEnd rest cs : List Char} : lineEnd ∈ [['\n'], ['\r', '\n']] → Spelled quote rest cs →
      Spelled quote ('\\' :: (lineEnd ++ rest)) cs

/-- Characters that may stand for themselves are their own spelling. -/
theorem Spelled.itself {quote : Char} {rest cs : List Char} (h : Spelled quote rest cs) : ∀ {ds : List Char},
    ds.all (fun c => c ∉ ['\x00', quote, '\\'] ∧ isLineEndOrReturn c = false) = true →
      Spelled quote (ds ++ rest) (ds ++ cs)
  | [], _ => h
  | c :: ds, hds => by
    obtain ⟨hc, hds⟩ := Bool.and_eq_true_iff.mp hds
    have hc := of_decide_eq_true hc
    have ih := h.itself hds
    exact @Spelled.char _ [c] _ _ _ (.itself hc.1 hc.2) (fun heq => nomatch heq) ih

/-! ### Escapes by number -/

variable {quote next : Char} {n : Nat} {cs ds : List Char} {us : List Nat}

theorem isHexDigit_of_digitValue? {d : Char} {k : Nat} (h : digitValue? d = some k) :
    isHexDigit d = true := by
  unfold digitValue? at h
  simp only [isHexDigit, isDigit, Bool.or_eq_true, Bool.and_eq_true, decide_eq_true_eq]
  split at h
  · exact .inl (.inl ‹_›)
  split at h
  · exact .inl (.inr ‹_›)
  split at h
  · exact .inr ‹_›
  · cases h

theorem AreDigits.hexLength_append (h : AreDigits 16 n ds) (cs : List Char) :
    hexLength (ds ++ cs) = ds.length + hexLength cs := by
  have hhex : ∀ d ∈ ds, isHexDigit d = true := fun d hd => by
    obtain ⟨k, hk, -⟩ := digitValue?_of_digits? (h.digits?_eq (by decide) (by decide)) d hd
    exact isHexDigit_of_digitValue? hk
  rw [hexLength, List.takeWhile_append_of_pos hhex, List.length_append, hexLength]

theorem AreDigits.head_ne_brace (h : AreDigits 16 n ds) : ∃ d rest, ds = d :: rest ∧ d ≠ '\x7b' := by
  obtain ⟨d, rest, rfl⟩ := List.exists_cons_of_ne_nil h.ne_nil
  obtain ⟨k, hk, -⟩ := digitValue?_of_digits? (h.digits?_eq (by decide) (by decide)) d (by simp)
  refine ⟨d, rest, rfl, ?_⟩
  rintro rfl
  cases hk

theorem lt_of_digitsFrom : ∀ {ds : List Char} {base m n : Nat}, digitsFrom base m ds = some n →
    n < (m + 1) * base ^ ds.length
  | [], _, m, n, h => by
    cases h
    simp
  | d :: ds, base, m, n, h => by
    rw [digitsFrom] at h
    split at h
    · rename_i k _
      split at h
      · have hk : k + 1 ≤ base := ‹_›
        refine lt_of_lt_of_le (lt_of_digitsFrom h) ?_
        rw [List.length_cons, Nat.pow_succ', ← Nat.mul_assoc]
        exact Nat.mul_le_mul_right _ (by rw [Nat.add_one_mul]; omega)
      · cases h
    · cases h

/-- A number of four digits is one unit. -/
theorem AreDigits.lt_of_length (h : AreDigits 16 n ds) {k : Nat} (hlength : ds.length = k) : n < 16 ^ k := by
  have hdigits := h.digits?_eq (by decide) (by decide)
  rw [digits?, if_neg h.ne_nil] at hdigits
  simpa [hlength] using lt_of_digitsFrom hdigits

theorem AreDigits.numberedUnit_eq (h : AreDigits 16 n ds) (hn : n < 0x10000) : numberedUnit 16 ds = [n] := by
  rw [numberedUnit, digitsBelow?, h.digits?_eq (by decide) (by decide), Option.filter_some,
    if_pos (decide_eq_true hn)]
  rfl

theorem AreDigits.escapeUnits_unit (h : AreDigits 16 n ds) (hlength : ds.length = 4) :
    escapeUnits ('u' :: ds) = [n] := by
  have hunit := h.numberedUnit_eq (h.lt_of_length hlength)
  obtain ⟨d, rest, rfl, hd⟩ := h.head_ne_brace
  have hletter : letterEscapes.lookup 'u' = none := by decide
  have hline : isLineEndOrReturn 'u' = false := by decide
  simp [escapeUnits, hletter, hline, hd, hunit]

/-- The units of the character with a number, if there is one. -/
def characterUnits (n : Nat) : List Nat := if n.isValidChar then unitsOf (Char.ofNat n) else []

theorem AreDigits.escapeUnits_braced (h : AreDigits 16 n ds) :
    escapeUnits ('u' :: '\x7b' :: (ds ++ ['\x7d'])) = characterUnits n := by
  have hletter : letterEscapes.lookup 'u' = none := by decide
  have hline : isLineEndOrReturn 'u' = false := by decide
  simp [escapeUnits, hletter, hline, numberedCharacter, h.digits?_eq (by decide) (by decide), characterUnits]

/-- An escape of four digits stands for the unit of that number. -/
theorem body_unit (h : AreDigits 16 n ds) (hlength : ds.length = 4) (hcs : Body quote next cs us) :
    Body quote next ('\\' :: 'u' :: (ds ++ cs)) (n :: us) := by
  have hescape : escapeLength? ('\\' :: ('u' :: ds ++ (cs ++ [next]))) = some (('u' :: ds).length + 1) := by
    have hhex := h.hexLength_append (cs ++ [next])
    obtain ⟨d, rest, rfl, hd⟩ := h.head_ne_brace
    rw [hlength, List.cons_append] at hhex
    simp only [List.cons_append, escapeLength?, unicodeTailLength?]
    split
    · exact absurd (List.cons.inj ‹_›).1 hd
    · rw [hhex, if_pos (by omega), List.length_cons, hlength]
      rfl
  have hbody := Body.escape hescape hcs
  rwa [h.escapeUnits_unit hlength] at hbody

/-- An escape of digits in braces stands for the character of that number. -/
theorem body_braced (h : AreDigits 16 n ds) (hcs : Body quote next cs us) :
    Body quote next ('\\' :: 'u' :: '\x7b' :: (ds ++ '\x7d' :: cs)) (characterUnits n ++ us) := by
  have hescape : escapeLength? ('\\' :: ('u' :: '\x7b' :: (ds ++ ['\x7d']) ++ (cs ++ [next]))) =
      some (('u' :: '\x7b' :: (ds ++ ['\x7d'])).length + 1) := by
    have hhex : hexLength (ds ++ '\x7d' :: (cs ++ [next])) = ds.length := by
      rw [h.hexLength_append]
      rfl
    have hne : ds.length ≠ 0 := fun hzero => h.ne_nil (List.length_eq_zero_iff.mp hzero)
    simp [escapeLength?, unicodeTailLength?, hhex, hne]
  have hbody := Body.escape hescape hcs
  rw [h.escapeUnits_braced] at hbody
  simpa using hbody

/-! ### Spelled strings -/

variable {c : Char} {piece text : List Char}

/-- The units of the character with a number are those of the character. -/
theorem characterUnits_toNat (c : Char) : characterUnits c.toNat = unitsOf c := by
  have hvalid : c.toNat.isValidChar := c.valid
  rw [characterUnits, if_pos hvalid, Char.ofNat_toNat]

theorem unitsOf_eq_singleton (h : c.toNat < 0x10000) : unitsOf c = [c.toNat] := if_pos h

theorem unitsOf_eq_pair {high low : Nat} (hhigh : 0xD800 ≤ high) (hlow : 0xDC00 ≤ low) (hlow' : low < 0xE000)
    (hc : c.toNat = 0x10000 + (high - 0xD800) * 0x400 + (low - 0xDC00)) : unitsOf c = [high, low] := by
  have hhigh' : 0xD800 + (c.toNat - 0x10000) / 0x400 = high := by omega
  have hlow'' : 0xDC00 + (c.toNat - 0x10000) % 0x400 = low := by omega
  rw [unitsOf, if_neg (by omega), hhigh', hlow'']

/-- A letter after a backslash stands for one character. -/
theorem body_letter {letter : Char} (h : (letter, c) ∈ letterSpellings) (hcs : Body quote next cs us) :
    Body quote next ('\\' :: letter :: cs) (unitsOf c ++ us) := by
  have hletter : ∀ e ∈ letterSpellings, escapeUnits [e.1] = unitsOf e.2 ∧ isOctalDigit e.1 = false ∧
      e.1 ∉ ['x', 'u', '\r', '?'] := by decide
  obtain ⟨hunits, hoctal, hne⟩ := hletter _ h
  simp only [List.mem_cons, List.not_mem_nil, or_false, not_or] at hne hunits
  have hbody := Body.escape (e := [letter]) (by simp [escapeLength?, hoctal, hne]) hcs
  rwa [hunits] at hbody

/-- A zero after a backslash stands for the zero character where no octal digit follows. -/
theorem body_null (hnext : isOctalDigit next = false) (hhead : ∀ d ∈ cs.head?, isOctalDigit d = false)
    (hcs : Body quote next cs us) : Body quote next ('\\' :: '0' :: cs) (0 :: us) := by
  have hzero : isOctalDigit '0' = true := by decide
  have hescape : escapeLength? ('\\' :: (['0'] ++ (cs ++ [next]))) = some (['0'].length + 1) := by
    cases cs with
    | nil => simp [escapeLength?, hzero, hnext]
    | cons d cs => simp [escapeLength?, hzero, hhead d rfl]
  exact Body.escape hescape hcs

/-- An escape of two digits stands for the unit of that number. -/
theorem body_byte (h : AreDigits 16 n ds) (hlength : ds.length = 2) (hcs : Body quote next cs us) :
    Body quote next ('\\' :: 'x' :: (ds ++ cs)) (n :: us) := by
  have hunits : escapeUnits ('x' :: ds) = [n] := by
    have hletter : letterEscapes.lookup 'x' = none := by decide
    have hline : isLineEndOrReturn 'x' = false := by decide
    have hn := h.lt_of_length hlength
    simp [escapeUnits, hletter, hline, h.numberedUnit_eq (by omega)]
  have hescape : escapeLength? ('\\' :: ('x' :: ds ++ (cs ++ [next]))) = some (('x' :: ds).length + 1) := by
    have hhex := h.hexLength_append []
    rw [List.append_nil] at hhex
    have htake : (ds ++ (cs ++ [next])).take 2 = ds := by rw [← hlength, List.take_left]
    simp [escapeLength?, htake, hhex, hlength]
  have hbody := Body.escape hescape hcs
  rwa [hunits] at hbody

/-- A continued line stands for nothing. -/
theorem body_continuation {lineEnd : List Char} (h : lineEnd ∈ [['\n'], ['\r', '\n']])
    (hcs : Body quote next cs us) : Body quote next ('\\' :: (lineEnd ++ cs)) us := by
  simp only [List.mem_cons, List.not_mem_nil, or_false] at h
  rcases h with rfl | rfl <;> exact Body.escape rfl hcs

/-- However a character is spelled, it stands for its units. -/
theorem body_of_spells (hquote : quote ∈ quoteChars) (h : Spells quote piece c)
    (hnull : piece = ['\\', '0'] → ∀ d ∈ cs.head?, isOctalDigit d = false) (hcs : Body quote quote cs us) :
    Body quote quote (piece ++ cs) (unitsOf c ++ us) := by
  cases h with
  | itself hc hline =>
    refine .plain ?_ hcs
    have hn : c ≠ '\n' := fun h => by rw [h] at hline; cases hline
    have hr : c ≠ '\r' := fun h => by rw [h] at hline; cases hline
    simp only [List.mem_cons, List.not_mem_nil, or_false, not_or] at hc
    simp [isPlain, hc, hn, hr]
  | letter hletter => exact body_letter hletter hcs
  | null => exact body_null (endsEscape_quote hquote).octal (hnull rfl) hcs
  | byte hds hlength =>
    have hn := hds.lt_of_length hlength
    rw [unitsOf_eq_singleton (by omega)]
    exact body_byte hds hlength hcs
  | unit hds hlength =>
    rw [unitsOf_eq_singleton (hds.lt_of_length hlength)]
    exact body_unit hds hlength hcs
  | pair hhigh _ hlow hlow' hc hhs hhs' hls hls' =>
    rw [unitsOf_eq_pair hhigh hlow hlow' hc]
    simpa using body_unit hhs hhs' (body_unit hls hls' hcs)
  | braced hds =>
    have hbody := body_braced hds hcs
    rw [characterUnits_toNat] at hbody
    simpa using hbody

/-- A spelled string stands for the units of the string. -/
theorem body_of_spelled (hquote : quote ∈ quoteChars) {s : List Char} (h : Spelled quote text s) :
    Body quote quote text (Text.Utf16.units s) := by
  induction h with
  | nil => exact .nil
  | char hpiece hnull _ ih => exact body_of_spells hquote hpiece hnull ih
  | continuation hline _ ih => exact body_continuation hline ih

theorem AreDigits.nul_notMem (h : AreDigits 16 n ds) : '\x00' ∉ ds := fun hmem => by
  obtain ⟨k, hk, -⟩ := digitValue?_of_digits? (h.digits?_eq (by decide) (by decide)) _ hmem
  cases hk

theorem Spells.nul_notMem (h : Spells quote piece c) : '\x00' ∉ piece := by
  cases h with
  | itself hc _ =>
    rw [List.mem_singleton]
    rintro rfl
    exact hc List.mem_cons_self
  | @letter letter _ hletter =>
    have hall : ∀ e ∈ letterSpellings, e.1 ≠ '\x00' := by decide
    simp [(hall _ hletter).symm]
  | null => decide
  | byte hds _ => simp [hds.nul_notMem]
  | unit hds _ => simp [hds.nul_notMem]
  | pair _ _ _ _ _ hhs _ hls _ => simp [hhs.nul_notMem, hls.nul_notMem]
  | braced hds => simp [hds.nul_notMem]

theorem Spelled.nul_notMem {s : List Char} (h : Spelled quote text s) : '\x00' ∉ text := by
  induction h with
  | nil => exact List.not_mem_nil
  | char hpiece _ _ ih => simp [hpiece.nul_notMem, ih]
  | continuation hline _ ih =>
    have hall : ∀ lineEnd ∈ [['\n'], ['\r', '\n']], '\x00' ∉ lineEnd := by decide
    simp [hall _ hline, ih]

/-- Quotes with characters and escapes between them evaluate to the text of the units that these
stand for. -/
theorem evaluatesTo_of_body {v : Variant} (hquote : quote ∈ quoteChars) (h : Body quote quote text us)
    (hnul : '\x00' ∉ text) :
    EvaluatesTo v (quote :: (text ++ [quote])) (.text (String.ofList (Text.Utf16.ofUnits us))) := by
  have hne : '\x00' ≠ quote := by
    rintro rfl
    exact absurd hquote (by decide)
  refine evaluatesTo_of_reads (by simp [hne, hnul]) fun fuel => ?_
  exact Source.readsLiteral_quoted hquote h (fuel + 1)

/-- However a string is spelled between quotes of either kind, in every variant it evaluates to
the string. -/
theorem evaluatesTo_of_spelled (v : Variant) (hquote : quote ∈ quoteChars) {s : List Char}
    (h : Spelled quote text s) : EvaluatesTo v (quote :: (text ++ [quote])) (.text (String.ofList s)) := by
  have htext := evaluatesTo_of_body (v := v) hquote (body_of_spelled hquote h) h.nul_notMem
  rwa [Text.Utf16.ofUnits_units] at htext

/-- Seven characters, each spelled in another way, and a continued line. -/
def mixedSpelling : List Char :=
  ['"'] ++ (['\\', 'n'] ++ (['\\', '0'] ++ ('\\' :: (['\r', '\n'] ++ (('\\' :: 'x' :: ['E', '9']) ++
    (('\\' :: 'u' :: ['2', '0', '2', '8']) ++
      (('\\' :: 'u' :: (['D', '8', '3', 'D'] ++ '\\' :: 'u' :: ['d', 'e', '0', '0'])) ++
        (('\\' :: 'u' :: '\x7b' :: (['0', '0', '1', 'F', '6', '0', '0'] ++ ['\x7d'])) ++ []))))))))

theorem spelled_mixedSpelling :
    Spelled '\'' mixedSpelling ['"', '\n', '\x00', '\u00e9', '\u2028', '😀', '😀'] := by
  have hbraced :
      Spells '\'' ('\\' :: 'u' :: '\x7b' :: (['0', '0', '1', 'F', '6', '0', '0'] ++ ['\x7d'])) '😀' :=
    .braced ⟨2, by decide⟩
  have hpair :
      Spells '\'' ('\\' :: 'u' :: (['D', '8', '3', 'D'] ++ '\\' :: 'u' :: ['d', 'e', '0', '0'])) '😀' :=
    @Spells.pair _ _ 0xD83D 0xDE00 _ _ (by decide) (by decide) (by decide) (by decide) (by decide)
      ⟨0, by decide⟩ rfl
      ⟨0, by decide⟩ rfl
  have hunit : Spells '\'' ('\\' :: 'u' :: ['2', '0', '2', '8']) '\u2028' := .unit ⟨0, by decide⟩ rfl
  have hbyte : Spells '\'' ('\\' :: 'x' :: ['E', '9']) '\u00e9' := .byte ⟨0, by decide⟩ rfl
  have hletter : Spells '\'' ['\\', 'n'] '\n' := .letter (by decide)
  have hitself : Spells '\'' ['"'] '"' := .itself (by decide) (by decide)
  refine .char hitself (by decide)
    (.char hletter (by decide) (.char .null ?_ (.continuation (by decide) ?_)))
  · rintro - d hd
    obtain rfl : '\\' = d := by simpa using hd
    decide
  exact .char hbyte (by decide)
    (.char hunit (by decide) (.char hpair (by decide) (.char hbraced (by decide) .nil)))

theorem evaluatesTo_of_spelled_mixedSpelling : '\'' ∈ quoteChars ∧
    Spelled '\'' mixedSpelling ['"', '\n', '\x00', '\u00e9', '\u2028', '😀', '😀'] ∧
    EvaluatesTo .tsx ('\'' :: (mixedSpelling ++ ['\'']))
      (.text (String.ofList ['"', '\n', '\x00', '\u00e9', '\u2028', '😀', '😀'])) :=
  ⟨by decide, spelled_mixedSpelling, evaluatesTo_of_spelled .tsx (by decide) spelled_mixedSpelling⟩

end StoryManifest.Literal
