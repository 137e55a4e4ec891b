import StoryManifest.Proofs.Literal.Braces
import StoryManifest.Proofs.Source.Ordering

/-!
What a string literal can stand for. Every escape stands for fewer units than it is written with, and a
line end in a literal stands for none; so a literal stands for no more units than it has between its
quotes, and for as many only when each of its characters stands for itself.
-/

namespace StoryManifest

open Text.Utf16 (units unitsOf units_append unitsOf_lt)

namespace Text.Utf16

theorem length_unitsOf_pos (c : Char) : 0 < (unitsOf c).length := by
  rw [unitsOf]
  split <;> simp

theorem length_le_length_units : ∀ cs : List Char, cs.length ≤ (units cs).length
  | [] => Nat.le_refl 0
  | c :: cs => by
    have hc := length_unitsOf_pos c
    have ih := length_le_length_units cs
    rw [units, List.length_append, List.length_cons]
    omega

theorem units_lt : ∀ cs : List Char, ∀ u ∈ units cs, u < 0x10000
  | [] => by simp [units]
  | c :: cs => List.forall_mem_append.mpr ⟨unitsOf_lt c, units_lt cs⟩

end Text.Utf16

namespace Literal

open Source Source.Parser

variable {quote : Char} {cs ds : List Char} {us vs : List Nat}

/-! ### How many units escapes have -/

theorem length_numberedUnit_le (base : Nat) (cs : List Char) : (numberedUnit base cs).length ≤ 1 := by
  rw [numberedUnit]
  cases digitsBelow? 0x10000 base cs <;> simp

theorem length_numberedCharacter_le (cs : List Char) : (numberedCharacter cs).length ≤ 2 := by
  unfold numberedCharacter
  split
  · split
    · rw [unitsOf]
      split <;> simp
    · simp
  · simp

/-- An escape stands for no more units than it has after its backslash. -/
theorem length_escapeUnits_le (body : List Char) : (escapeUnits body).length ≤ (units body).length := by
  have hlength := Text.Utf16.length_le_length_units body
  unfold escapeUnits
  split
  · simp
  rename_i c rest
  have hone : 1 ≤ (units (c :: rest)).length := Nat.le_trans (by simp) hlength
  split
  · simpa using hone
  split
  · simp
  split
  · exact Nat.le_trans (length_numberedUnit_le _ _) hone
  split
  · split
    · split
      · refine Nat.le_trans (length_numberedCharacter_le _) (Nat.le_trans ?_ hlength)
        simp
      · exact Nat.le_trans (length_numberedUnit_le _ _) hone
    · exact Nat.le_trans (length_numberedUnit_le _ _) hone
  split
  · exact Nat.le_trans (length_numberedUnit_le _ _) hone
  · rw [units, List.length_append]
    omega

/-! ### What stands between quotes -/

/-- Characters between quotes make units: no more than they have, and as many only when all of them stand for
themselves. -/
structure Makes (quote : Char) (cs : List Char) (us : List Nat) : Prop where
  lt : ∀ u ∈ us, u < 0x10000
  le : us.length ≤ (units cs).length
  plain : (units cs).length ≤ us.length → ∀ c ∈ cs, isPlain quote c = true

theorem Makes.nil : Makes quote [] [] := ⟨by simp, by simp [units], by simp⟩

theorem Makes.append (h : Makes quote cs us) (h' : Makes quote ds vs) :
    Makes quote (cs ++ ds) (us ++ vs) where
  lt := List.forall_mem_append.mpr ⟨h.lt, h'.lt⟩
  le := by
    rw [units_append, List.length_append, List.length_append]
    exact Nat.add_le_add h.le h'.le
  plain hle := by
    have hcs := h.le
    have hds := h'.le
    rw [units_append, List.length_append, List.length_append] at hle
    exact List.forall_mem_append.mpr ⟨h.plain (by omega), h'.plain (by omega)⟩

theorem Makes.stretch (h : ∀ c ∈ cs, isPlain quote c = true) : Makes quote cs (units cs) :=
  ⟨Text.Utf16.units_lt cs, Nat.le_refl _, fun _ => h⟩

/-- Characters that make fewer units than they have. -/
theorem Makes.fewer (hlt : ∀ u ∈ us, u < 0x10000) (h : us.length < (units cs).length) : Makes quote cs us :=
  ⟨hlt, Nat.le_of_lt h, fun hle => absurd h (by omega)⟩

theorem Makes.escape (body : List Char) : Makes quote ('\\' :: body) (escapeUnits body) := by
  refine .fewer (escapeUnits_lt body) ?_
  have hbody := length_escapeUnits_le body
  have hslash : (unitsOf '\\').length = 1 := rfl
  rw [units, List.length_append]
  omega

theorem Makes.passed (hne : cs ≠ []) : Makes quote cs [] := by
  refine .fewer (by simp) ?_
  exact Nat.lt_of_lt_of_le (List.length_pos_iff.mpr hne) (Text.Utf16.length_le_length_units cs)

/-- A parser reads characters between quotes and appends pieces with the units that they make. -/
def ReadsUnits (quote : Char) (s t : State) : Prop :=
  ∃ (cs : List Char) (ns : List Node), s.cursor.rest = cs ++ t.cursor.rest ∧ t.made = ns.reverse ++ s.made ∧
    Makes quote cs (ns.flatMap pieceUnits)

theorem ReadsUnits.trans {s t u : State} (h : ReadsUnits quote s t) (h' : ReadsUnits quote t u) :
    ReadsUnits quote s u := by
  obtain ⟨cs, ns, hrest, hmade, hmakes⟩ := h
  obtain ⟨ds, ms, hrest', hmade', hmakes'⟩ := h'
  refine ⟨cs ++ ds, ns ++ ms, by rw [hrest, hrest', List.append_assoc], by rw [hmade', hmade]; simp, ?_⟩
  rw [List.flatMap_append]
  exact hmakes.append hmakes'

/-- A piece of some characters is appended. -/
theorem readsUnits_piece {s t : State} {b : Bool} {kind : Kind} {n : Nat}
    (h : (do push (← Parser.take (.named kind) n); pure true : Parser Bool) s = .done b t)
    (hmakes : ∀ leaf : Node, leaf.label = .named kind → leaf.text.toList = s.cursor.rest.take n →
      Makes quote (s.cursor.rest.take n) (pieceUnits leaf)) : ReadsUnits quote s t := by
  obtain ⟨leaf, u, htake, h⟩ := bind_eq_done.mp h
  obtain ⟨_, w, hpush, h⟩ := bind_eq_done.mp h
  obtain ⟨-, rfl⟩ := pure_eq_done.mp h
  obtain rfl := push_eq_done.mp hpush
  cases htake
  refine ⟨s.cursor.rest.take n, [_], by simp, rfl, ?_⟩
  rw [List.flatMap_singleton]
  exact hmakes _ rfl String.toList_ofList

/-- Blanks and a comment in a string stand for nothing. -/
theorem readsUnits_gapStep {c : Char} {s t : State} {b : Bool} (hs : s.cursor.rest = c :: cs)
    (hc : isBlank c = true) (h : gapStep false s = .done b t) : ReadsUnits quote s t := by
  have hskip : s.cursor.rest.take (blankLength s.cursor.rest) ≠ [] := by
    rw [hs, blankLength, List.takeWhile_cons_of_pos hc]
    simp
  rw [gapStep, rest_bind] at h
  obtain ⟨_, w, hw, h⟩ := bind_eq_done.mp h
  obtain rfl := skip_eq_done.mp hw
  have hblanks : ReadsUnits quote s { s with cursor := s.cursor.advance (blankLength s.cursor.rest) } :=
    ⟨_, [], by simp, rfl, .passed hskip⟩
  refine hblanks.trans ?_
  rw [rest_bind] at h
  cases hlength : commentLength? (s.cursor.advance (blankLength s.cursor.rest)).rest with
  | none =>
    simp only [hlength] at h
    obtain ⟨-, rfl⟩ := pure_eq_done.mp h
    exact ⟨[], [], rfl, rfl, .nil⟩
  | some length =>
    simp only [hlength] at h
    refine readsUnits_piece h fun leaf hlabel _ => ?_
    have hunits : pieceUnits leaf = [] := by simp [pieceUnits, Node.is, hlabel]
    obtain ⟨hrest, hpos⟩ := of_commentLength? hlength
    rw [hunits]
    exact .passed (by simpa [hpos] using hrest)

theorem readsUnits_stringStep {s t : State} {b : Bool} (h : stringStep quote s = .done b t) :
    ReadsUnits quote s t := by
  rw [stringStep, rest_bind] at h
  cases hs : s.cursor.rest with
  | nil => rw [hs] at h; cases h
  | cons c cs =>
    rw [hs] at h
    dsimp only at h
    split at h
    · obtain ⟨-, rfl⟩ := pure_eq_done.mp h
      exact ⟨[], [], rfl, rfl, .nil⟩
    split at h
    · rename_i hslash
      subst hslash
      cases hlength : escapeLength? ('\\' :: cs) with
      | none => simp only [hlength] at h; cases h
      | some length =>
        simp only [hlength] at h
        refine readsUnits_piece h fun leaf hlabel htext => ?_
        obtain ⟨k, rfl⟩ : ∃ k, length = k + 1 := ⟨length - 1, by have := two_le_escapeLength hlength; omega⟩
        rw [hs, List.take_succ_cons] at htext ⊢
        have hunits : pieceUnits leaf = escapeUnits (cs.take k) := by
          simp [pieceUnits, Node.is, hlabel, htext]
        rw [hunits]
        exact .escape _
    rename_i hquote hslash
    split at h
    · rename_i hline
      refine readsUnits_gapStep hs ?_ h
      rw [Bool.or_eq_true, decide_eq_true_iff, decide_eq_true_iff] at hline
      rcases hline with rfl | rfl <;> decide
    · refine readsUnits_piece h fun leaf hlabel htext => ?_
      have hunits : pieceUnits leaf = units leaf.text.toList := by simp [pieceUnits, Node.is, hlabel]
      rw [hunits, htext]
      refine .stretch fun d hd => ?_
      have hstretch := List.prefix_iff_eq_take.mp (List.takeWhile_prefix (l := c :: cs) (isPlain quote))
      rw [hs] at hd
      exact List.mem_takeWhile_imp (hstretch.symm ▸ hd)

theorem exactly_eq_done {text : String} {s t : State} {n : Node} (h : exactly text s = .done n t) :
    s.cursor.rest = text.toList ++ t.cursor.rest ∧ t.made = s.made ∧ n.label = .token text := by
  rw [exactly, rest_bind] at h
  obtain ⟨_, u, hrequire, htake⟩ := bind_eq_done.mp h
  obtain ⟨hbegins, rfl⟩ := require_eq_done.mp hrequire
  obtain ⟨rest, hrest⟩ := List.isPrefixOf_iff_prefix.mp hbegins
  cases htake
  refine ⟨?_, rfl, rfl⟩
  rw [Cursor.rest_advance, ← hrest, ← String.length_toList, List.drop_left]

theorem pieceUnits_of_token {text : String} {n : Node} (h : n.label = .token text) : pieceUnits n = [] := by
  simp [pieceUnits, Node.is, h]

/-- A string that was read closes behind the characters that made its units. -/
theorem quoted_eq_done {s t : State} {n : Node} (h : quoted quote s = .done n t) : ∃ cs us,
    s.cursor.rest = quote :: (cs ++ quote :: t.cursor.rest) ∧ Makes quote cs us ∧
      decodeString n = String.ofList (Text.Utf16.ofUnits us) := by
  obtain ⟨kind, u, hrun, rfl, rfl⟩ := nodeOf_eq_done h
  obtain ⟨_, w, hbody, hkind⟩ := bind_eq_done.mp hrun
  obtain ⟨rfl, rfl⟩ := pure_eq_done.mp hkind
  obtain ⟨opening, s₁, hopening, h₁⟩ := bind_eq_done.mp hbody
  obtain ⟨_, s₂, hpush, h₂⟩ := bind_eq_done.mp h₁
  obtain ⟨_, s₃, hloop, h₃⟩ := bind_eq_done.mp h₂
  obtain ⟨closing, s₄, hclosing, h₄⟩ := bind_eq_done.mp h₃
  obtain ⟨hrest, hmade, hlabel⟩ := exactly_eq_done hopening
  obtain ⟨hrest', hmade', hlabel'⟩ := exactly_eq_done hclosing
  obtain ⟨cs, ns, hcs, hns, hmakes⟩ := rel_loop (R := ReadsUnits quote) (fun _ _ _ => .trans)
    (fun _ _ _ => readsUnits_stringStep) hloop
  obtain rfl := push_eq_done.mp hpush
  obtain rfl := push_eq_done.mp h₄
  refine ⟨cs, _, ?_, hmakes, ?_⟩
  · have hbetween : s₁.cursor.rest = cs ++ s₃.cursor.rest := hcs
    simpa [hbetween, hrest'] using hrest
  · have hchildren : (closing :: s₄.made).reverse = opening :: (ns ++ [closing]) := by
      simp [hmade', hns, hmade]
    simp [decodeString, build, hchildren, pieceUnits_of_token hlabel, pieceUnits_of_token hlabel']

/-- A string that stands for a text can only end where the text ends and a closing quote follows it when each
character of the text stands for itself. -/
theorem isPlain_of_quoted {s t : State} {n : Node} (h : quoted quote s = .done n t) {shown tail : List Char}
    (hs : s.cursor.rest = quote :: (shown ++ quote :: tail)) (htail : quote ∉ tail)
    (hn : decodeString n = String.ofList shown) : ∀ c ∈ shown, isPlain quote c = true := by
  obtain ⟨cs, us, hrest, hmakes, htext⟩ := quoted_eq_done h
  have hshown : Text.Utf16.ofUnits us = shown := String.ofList_inj.mp (htext.symm.trans hn)
  have hlength : (units shown).length = us.length := by
    rw [← hshown, Text.Utf16.length_units_ofUnits us hmakes.lt]
  have hsame : shown ++ quote :: tail = cs ++ quote :: t.cursor.rest :=
    List.cons.inj (hs.symm.trans hrest) |>.2
  have hle := hmakes.le
  obtain rfl : shown = cs := by
    rcases List.append_eq_append_iff.mp hsame with ⟨more, rfl, htail'⟩ | ⟨more, rfl, -⟩
    · -- The string would go on behind the closing quote, up to another one.
      cases more with
      | nil => simp
      | cons c more =>
        refine absurd ?_ htail
        rw [(List.cons.inj htail').2]
        simp
    · -- The string would end too early to have as many units.
      have hmore := Text.Utf16.length_le_length_units more
      rw [units_append, List.length_append] at hlength
      have hnil : more = [] := List.eq_nil_of_length_eq_zero (by omega)
      rw [hnil, List.append_nil]
  exact hmakes.plain (by omega)

end Literal

end StoryManifest
