import StoryManifest.Proofs.Json.Text
import StoryManifest.Proofs.Source.Quoted

/-!
Strings as they are written and as source reads them. The written text of a string is a row of characters and
escapes that stands for the units of the string. Text becomes UTF-16 units and comes back unchanged.
-/

namespace StoryManifest

/-! ### Units -/

namespace Text.Utf16

theorem not_surrogate (c : Char) : isHigh c.toNat = false ∧ isLow c.toNat = false := by
  have hvalid := c.valid
  simp only [UInt32.isValidChar, Nat.isValidChar] at hvalid
  have : c.toNat = c.val.toNat := rfl
  simp only [isHigh, isLow, Bool.and_eq_false_iff, decide_eq_false_iff_not]
  omega

theorem ofUnits_cons (c : Char) (us : List Nat) : ofUnits (c.toNat :: us) = c :: ofUnits us := by
  obtain ⟨hhigh, hlow⟩ := not_surrogate c
  cases us <;> simp [ofUnits, hhigh, hlow]

theorem ofUnits_pair (c : Char) (h : ¬c.toNat < 0x10000) (us : List Nat) :
    ofUnits ((0xD800 + (c.toNat - 0x10000) / 0x400) :: (0xDC00 + (c.toNat - 0x10000) % 0x400) :: us) =
      c :: ofUnits us := by
  have hvalid := c.valid
  simp only [UInt32.isValidChar, Nat.isValidChar] at hvalid
  have hval : c.toNat = c.val.toNat := rfl
  have hhigh : isHigh (0xD800 + (c.toNat - 0x10000) / 0x400) = true := by
    simp only [isHigh, Bool.and_eq_true, decide_eq_true_eq]
    omega
  have hlow : isLow (0xDC00 + (c.toNat - 0x10000) % 0x400) = true := by
    simp only [isLow, Bool.and_eq_true, decide_eq_true_eq]
    omega
  have hpair : ofPair (0xD800 + (c.toNat - 0x10000) / 0x400)
      (0xDC00 + (c.toNat - 0x10000) % 0x400) = c := by
    have hn : 0x10000 + (0xD800 + (c.toNat - 0x10000) / 0x400 - 0xD800) * 0x400 +
        (0xDC00 + (c.toNat - 0x10000) % 0x400 - 0xDC00) = c.toNat := by omega
    rw [ofPair, hn, Char.ofNat_toNat]
  rw [ofUnits, if_pos hhigh, if_pos hlow, hpair]

/-- Text that became units comes back unchanged. -/
theorem ofUnits_units : ∀ cs : List Char, ofUnits (units cs) = cs
  | [] => rfl
  | c :: cs => by
    rw [units, unitsOf]
    split
    · rw [List.singleton_append, ofUnits_cons, ofUnits_units cs]
    · rename_i h
      rw [List.cons_append, List.singleton_append, ofUnits_pair c h, ofUnits_units cs]

end Text.Utf16

/-! ### Written characters -/

namespace Json

/-- A character that stands for itself in quotes. -/
def standsAlone (c : Char) : Bool := c ≠ '"' && c ≠ '\\' && 0x20 ≤ c.toNat

theorem escape_of_standsAlone {c : Char} (h : standsAlone c = true) : escape c = [c] := by
  simp only [standsAlone, Bool.and_eq_true, decide_eq_true_eq] at h
  obtain ⟨⟨hquote, hslash⟩, hbound⟩ := h
  have hne : ∀ d : Char, d.toNat < 0x20 → c ≠ d := fun d hd hcd => by subst hcd; omega
  simp [escape, hquote, hslash, hne '\x08' (by decide), hne '\t' (by decide), hne '\n' (by decide),
    hne '\x0c' (by decide), hne '\x0d' (by decide), Nat.not_lt.mpr hbound]

end Json

/-! ### Written strings -/

namespace Source

open Json (escape standsAlone)

theorem isHexDigit_hexDigit : ∀ n < 16, isHexDigit (Json.hexDigit n) = true := by decide

theorem escapeUnits_control : ∀ n < 0x20, Literal.escapeUnits
    ['u', '0', '0', Json.hexDigit (n / 16), Json.hexDigit (n % 16)] = [n] := by decide

theorem escapeLength?_control {n : Nat} (h : n < 0x20) (cs : List Char) :
    escapeLength? ('\\' :: 'u' :: '0' :: '0' :: Json.hexDigit (n / 16) :: Json.hexDigit (n % 16) :: cs) =
      some 6 := by
  have h₀ : isHexDigit '0' = true := by decide
  have h₁ := isHexDigit_hexDigit (n / 16) (by omega)
  have h₂ := isHexDigit_hexDigit (n % 16) (by omega)
  simp [escapeLength?, unicodeTailLength?, hexLength, h₀, h₁, h₂]

/-- A character that is escaped is read as one escape that stands for it. -/
theorem escape_isEscape {c : Char} (h : standsAlone c = false) :
    ∃ body, escape c = '\\' :: body ∧ Literal.escapeUnits body = Text.Utf16.unitsOf c ∧
      ∀ cs, escapeLength? (escape c ++ cs) = some (escape c).length := by
  unfold escape
  iterate 7
    split
    · rename_i hc; subst hc; exact ⟨_, rfl, by decide, fun _ => rfl⟩
  split
  · rename_i hc
    refine ⟨_, rfl, ?_, escapeLength?_control hc⟩
    rw [escapeUnits_control c.toNat hc, Text.Utf16.unitsOf, if_pos (by omega)]
  · rename_i hq hs _ _ _ _ _ hc
    simp [standsAlone, hq, hs] at h
    omega

theorem isPlain_of_standsAlone {c : Char} (h : standsAlone c = true) : isPlain '"' c = true := by
  have hn : c ≠ '\n' := fun h' => absurd (h' ▸ h) (by decide)
  have hr : c ≠ '\r' := fun h' => absurd (h' ▸ h) (by decide)
  simp only [standsAlone, Bool.and_eq_true, decide_eq_true_eq] at h
  simp [isPlain, h.1.1, h.1.2, hn, hr]

/-- The written characters of a string stand for its units. -/
theorem body_escape : ∀ cs : List Char, Body '"' '"' (cs.flatMap escape) (Text.Utf16.units cs)
  | [] => .nil
  | c :: cs => by
    have ih := body_escape cs
    rw [List.flatMap_cons, Text.Utf16.units]
    cases hc : standsAlone c with
    | true =>
      rw [Json.escape_of_standsAlone hc]
      exact .plain (isPlain_of_standsAlone hc) ih
    | false =>
      obtain ⟨body, hbody, hunits, hlength⟩ := escape_isEscape hc
      have hlength := hlength (cs.flatMap escape ++ ['"'])
      rw [hbody] at hlength ⊢
      rw [← hunits]
      exact .escape hlength ih

/-! ### Reading strings -/

/-- A written string is read as a node that stands for it. -/
theorem Parser.Ensures.string {s : State} {text : String} {rest : List Char} {Q : Node → State → Prop}
    (hs : s.cursor.rest = Json.quoted text ++ rest)
    (hQ : ∀ n t, IsString text n → n.start = s.cursor.place → Moves s t rest s.made → Q n t) :
    Ensures Parser.string s Q := by
  simp only [Json.quoted, List.cons_append, List.append_assoc, List.nil_append] at hs
  refine Ensures.quoted (by decide) (body_escape text.toList) hs fun n t hn hplace ht => hQ n t ?_ hplace ht
  rwa [Text.Utf16.ofUnits_units, String.ofList_toList] at hn

end Source

end StoryManifest
