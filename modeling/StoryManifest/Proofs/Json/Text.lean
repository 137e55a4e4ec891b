import StoryManifest.Proofs.Digits
import StoryManifest.Proofs.Values
import StoryManifest.Json.Writer

/-!
The written text of a value, character by character. Every value without markers has a text, and both
ways of spacing give the same text but for blanks before items, after colons and before the closing
bracket.
-/

namespace StoryManifest.Json

/-- The characters of a text in quotes. -/
def quoted (s : String) : List Char := '"' :: (s.toList.flatMap escape ++ ['"'])

/-- The blanks before an item at a depth. -/
def Spacing.blanks (sp : Spacing) (depth : Nat) : List Char := (sp.lead depth).toList

theorem Spacing.blanks_compact (depth : Nat) : Spacing.compact.blanks depth = [] := rfl

theorem Spacing.blanks_indented (depth : Nat) :
    Spacing.indented.blanks depth = '\n' :: List.replicate (2 * depth) ' ' := by
  simp [blanks, lead]

/-- The blank between a key's colon and its value, if there is one. -/
def Spacing.gap : Spacing → List Char
  | .compact => []
  | .indented => [' ']

/-- The further items of a row, a comma before each of them, and the closing bracket. -/
def rowTail (sp : Spacing) (depth : Nat) (closing : Char) : List (List Char) → List Char
  | [] => sp.blanks depth ++ [closing]
  | item :: items => ',' :: (sp.blanks (depth + 1) ++ (item ++ rowTail sp depth closing items))

/-- The characters after an opening bracket. -/
def rowBody (sp : Spacing) (depth : Nat) (closing : Char) : List (List Char) → List Char
  | [] => [closing]
  | item :: items => sp.blanks (depth + 1) ++ (item ++ rowTail sp depth closing items)

/-- The characters of items between brackets. -/
def row (sp : Spacing) (depth : Nat) (opening closing : Char) (items : List (List Char)) : List Char :=
  opening :: rowBody sp depth closing items

/-- The characters of a key and its value. -/
def memberChars (sp : Spacing) (k : String) (text : List Char) : List Char :=
  quoted k ++ (':' :: (sp.gap ++ text))

mutual

/-- The characters of a value that starts at a depth. -/
def chars (sp : Spacing) (depth : Nat) : Value → List Char
  | .null => ['n', 'u', 'l', 'l']
  | .bool true => ['t', 'r', 'u', 'e']
  | .bool false => ['f', 'a', 'l', 's', 'e']
  | .number n => n.text.toList
  | .text s => quoted s
  | .list items => row sp depth '[' ']' (itemChars sp (depth + 1) items)
  | .record fields => row sp depth '\x7b' '\x7d' (fieldChars sp (depth + 1) fields)
  | .unsupported _ => []

def itemChars (sp : Spacing) (depth : Nat) : List Value → List (List Char)
  | [] => []
  | v :: rest => chars sp depth v :: itemChars sp depth rest

def fieldChars (sp : Spacing) (depth : Nat) : List (String × Value) → List (List Char)
  | [] => []
  | (k, v) :: rest => memberChars sp k (chars sp depth v) :: fieldChars sp depth rest

end

theorem itemChars_eq (sp : Spacing) (depth : Nat) (items : List Value) :
    itemChars sp depth items = items.map (chars sp depth) := by
  induction items with
  | nil => rfl
  | cons v rest ih => rw [itemChars, ih, List.map_cons]

theorem fieldChars_eq (sp : Spacing) (depth : Nat) (fields : Fields Value) :
    fieldChars sp depth fields =
      fields.map fun f => memberChars sp f.1 (chars sp depth f.2) := by
  induction fields with
  | nil => rfl
  | cons f rest ih => rw [fieldChars, ih, List.map_cons]

/-! ### Writing gives these characters -/

theorem length_le_rowTail (sp : Spacing) (depth : Nat) (closing : Char) : ∀ items : List (List Char),
    items.length < (rowTail sp depth closing items).length
  | [] => by simp [rowTail]
  | item :: items => by
    have ih := length_le_rowTail sp depth closing items
    simp only [rowTail, List.length_cons, List.length_append]
    omega

theorem length_le_rowBody (sp : Spacing) (depth : Nat) (closing : Char) : ∀ items : List (List Char),
    items.length ≤ (rowBody sp depth closing items).length
  | [] => by simp
  | item :: items => by
    have h := length_le_rowTail sp depth closing items
    simp only [rowBody, List.length_cons, List.length_append]
    omega

theorem toList_quote (s : String) : (quote s).toList = quoted s := by simp [quote, quoted]

theorem toList_colon (sp : Spacing) : sp.colon.toList = ':' :: sp.gap := by cases sp <;> rfl

theorem intercalate_lead (sp : Spacing) (depth : Nat) (closing : Char) : ∀ (first : String)
    (rest : List String),
    ((String.intercalate "," ((first :: rest).map (sp.lead (depth + 1) ++ ·))).toList ++
        (sp.blanks depth ++ [closing])) =
      sp.blanks (depth + 1) ++ (first.toList ++ rowTail sp depth closing (rest.map String.toList))
  | first, [] => by simp [Spacing.blanks, rowTail]
  | first, second :: rest => by
    have ih := intercalate_lead sp depth closing second rest
    simp only [List.map_cons, String.intercalate_cons_cons, String.toList_append] at ih ⊢
    simp only [List.append_assoc, ih, rowTail]
    simp [Spacing.blanks]

theorem toList_bracketed (sp : Spacing) (depth : Nat) (opening closing : String) (o c : Char)
    (ho : opening.toList = [o]) (hc : closing.toList = [c]) : ∀ items : List String,
    (bracketed sp depth opening closing items).toList = row sp depth o c (items.map String.toList)
  | [] => by simp [bracketed, row, rowBody, ho, hc]
  | first :: rest => by
    have h := intercalate_lead sp depth c first rest
    simp only [bracketed, String.toList_append, ho, hc, row, rowBody, List.append_assoc,
      List.map_cons] at h ⊢
    rw [← h]
    simp [Spacing.blanks]

mutual

/-- A value is written exactly when no marker occurs in it. -/
theorem write_eq (sp : Spacing) : ∀ (v : Value) (depth : Nat), write sp depth v =
    if v.unsupportedKind = none then some (String.ofList (chars sp depth v)) else none
  | .null, _ => rfl
  | .bool true, _ => rfl
  | .bool false, _ => rfl
  | .number n, _ => by simp [write, chars, Value.unsupportedKind]
  | .text s, _ => by
    simp [write, chars, Value.unsupportedKind, ← toList_quote]
  | .list items, depth => by
    rw [write, writeItems_eq sp items, Value.unsupportedKind]
    split
    · have h := toList_bracketed sp depth "[" "]" '[' ']' rfl rfl
      simp [chars, ← String.toList_inj, h, Function.comp_def]
    · rfl
  | .record fields, depth => by
    rw [write, writeFields_eq sp fields, Value.unsupportedKind]
    split
    · have h := toList_bracketed sp depth "\x7b" "\x7d" '\x7b' '\x7d' rfl rfl
      simp [chars, ← String.toList_inj, h, Function.comp_def]
    · rfl
  | .unsupported _, _ => rfl

theorem writeItems_eq (sp : Spacing) : ∀ (items : List Value) (depth : Nat),
    writeItems sp depth items =
      if Value.firstUnsupportedItem items = none then
        some ((itemChars sp depth items).map String.ofList)
      else none
  | [], _ => rfl
  | v :: rest, depth => by
    rw [writeItems, write_eq sp v, writeItems_eq sp rest, Value.firstUnsupportedItem]
    cases hv : v.unsupportedKind <;> cases hr : Value.firstUnsupportedItem rest <;>
      simp [itemChars]

theorem writeFields_eq (sp : Spacing) : ∀ (fields : List (String × Value)) (depth : Nat),
    writeFields sp depth fields =
      if Value.firstUnsupportedField fields = none then
        some ((fieldChars sp depth fields).map String.ofList)
      else none
  | [], _ => rfl
  | (k, v) :: rest, depth => by
    rw [writeFields, write_eq sp v, writeFields_eq sp rest, Value.firstUnsupportedField]
    cases hv : v.unsupportedKind <;> cases hr : Value.firstUnsupportedField rest <;>
      simp [fieldChars, memberChars, ← String.toList_inj, toList_quote, toList_colon]

end

theorem write_of_not_marked (sp : Spacing) (depth : Nat) {v : Value} (h : ¬v.Marked) :
    write sp depth v = some (String.ofList (chars sp depth v)) := by
  rw [write_eq, if_pos ((Value.unsupportedKind_eq_none v).mpr h)]

/-! ### What a text holds -/

theorem length_le_of_mem_rowTail (sp : Spacing) (depth : Nat) (closing : Char) {text : List Char} :
    ∀ {texts : List (List Char)}, text ∈ texts →
      text.length ≤ (rowTail sp depth closing texts).length
  | next :: texts, h => by
    rw [rowTail, List.length_cons, List.length_append, List.length_append]
    rcases List.mem_cons.mp h with rfl | h
    · omega
    · have ih := length_le_of_mem_rowTail sp depth closing h
      omega

theorem length_le_of_mem_rowBody (sp : Spacing) (depth : Nat) (closing : Char) {text : List Char}
    {texts : List (List Char)} (h : text ∈ texts) :
    text.length ≤ (rowBody sp depth closing texts).length := by
  cases texts with
  | nil => cases h
  | cons next texts =>
    rw [rowBody, List.length_append, List.length_append]
    rcases List.mem_cons.mp h with rfl | h
    · omega
    · have := length_le_of_mem_rowTail sp depth closing h
      omega

/-- Brackets are not nested deeper than the text is long. -/
theorem nesting_le_length (sp : Spacing) {fits : Int → Prop} {v : Value} (h : v.Plain fits) :
    ∀ depth, v.nesting ≤ (chars sp depth v).length := by
  induction h with
  | null => exact fun _ => Nat.zero_le _
  | bool b => exact fun _ => Nat.zero_le _
  | number _ => exact fun _ => Nat.zero_le _
  | text s => exact fun _ => Nat.zero_le _
  | @list items _ ih =>
    intro depth
    have hitems : Value.nestingOfItems items ≤
        (rowBody sp depth ']' (itemChars sp (depth + 1) items)).length := by
      refine Value.nestingOfItems_le fun v hv => Nat.le_trans (ih v hv (depth + 1)) ?_
      refine length_le_of_mem_rowBody sp depth ']' ?_
      rw [itemChars_eq]
      exact List.mem_map_of_mem hv
    rw [Value.nesting, chars, row, List.length_cons]
    omega
  | @record fields _ _ ih =>
    intro depth
    have hfields : Value.nestingOfFields fields ≤
        (rowBody sp depth '\x7d' (fieldChars sp (depth + 1) fields)).length := by
      refine Value.nestingOfFields_le fun f hf => Nat.le_trans (ih f hf (depth + 1)) ?_
      have hmember := length_le_of_mem_rowBody sp depth '\x7d'
        (fieldChars_eq sp (depth + 1) fields ▸ List.mem_map_of_mem hf)
      refine Nat.le_trans ?_ hmember
      simp only [memberChars, List.length_append, List.length_cons]
      omega
    rw [Value.nesting, chars, row, List.length_cons]
    omega

theorem nul_notMem_escape (c : Char) : '\x00' ∉ escape c := by
  have hdigit : ∀ n < 16, '\x00' ≠ hexDigit n := by decide
  unfold escape
  iterate 7
    split
    · decide
  split
  · rename_i h
    simp [hdigit (c.toNat / 16) (by omega), hdigit (c.toNat % 16) (by omega)]
  · rename_i h
    rw [List.mem_singleton]
    rintro rfl
    exact h (by decide)

theorem nul_notMem_quoted (s : String) : '\x00' ∉ quoted s := by
  simp [quoted, nul_notMem_escape]

theorem nul_notMem_blanks (sp : Spacing) (depth : Nat) : '\x00' ∉ sp.blanks depth := by
  cases sp with
  | compact => simp [Spacing.blanks_compact]
  | indented => simp [Spacing.blanks_indented, List.mem_replicate]

theorem nul_notMem_row (sp : Spacing) (depth : Nat) {opening closing : Char} (ho : '\x00' ≠ opening)
    (hc : '\x00' ≠ closing) {texts : List (List Char)} (h : ∀ text ∈ texts, '\x00' ∉ text) :
    '\x00' ∉ row sp depth opening closing texts := by
  have htail : ∀ {texts : List (List Char)}, (∀ text ∈ texts, '\x00' ∉ text) →
      '\x00' ∉ rowTail sp depth closing texts := by
    intro texts
    induction texts with
    | nil => intro _; simp [rowTail, nul_notMem_blanks, hc]
    | cons text texts ih =>
      intro h
      have hrest := ih fun text ht => h text (List.mem_cons_of_mem _ ht)
      simp [rowTail, nul_notMem_blanks, h text (by simp), hrest]
  cases texts with
  | nil => simp [row, rowBody, ho, hc]
  | cons text texts =>
    have hrest := htail fun text ht => h text (List.mem_cons_of_mem _ ht)
    simp [row, rowBody, nul_notMem_blanks, ho, h text (by simp), hrest]

theorem nul_notMem_integer (n : Int) : '\x00' ∉ (Number.integer n).text.toList := by
  have hdigits : ∀ m : Nat, '\x00' ∉ Digits.ofNat m := fun m h =>
    absurd (Digits.isDigit_of_mem h) (by decide)
  rcases Int.lt_or_le n 0 with hneg | hpos
  · obtain ⟨m, rfl⟩ : ∃ m : Nat, n = -(m : Int) := ⟨n.natAbs, by omega⟩
    rw [Digits.toList_text_neg (by omega), List.mem_cons, not_or]
    exact ⟨by decide, hdigits m⟩
  · obtain ⟨m, rfl⟩ : ∃ m : Nat, n = m := ⟨n.toNat, by omega⟩
    rw [Digits.toList_text_natCast]
    exact hdigits m

/-- No text holds the null character: it is escaped. -/
theorem nul_notMem_chars (sp : Spacing) {fits : Int → Prop} {v : Value} (h : v.Plain fits) :
    ∀ depth, '\x00' ∉ chars sp depth v := by
  induction h with
  | null => intro _; rw [chars]; decide
  | bool b => intro _; cases b <;> rw [chars] <;> decide
  | @number n _ => exact fun _ => nul_notMem_integer n
  | text s => exact fun _ => nul_notMem_quoted s
  | @list items _ ih =>
    intro depth
    refine nul_notMem_row sp depth (by decide) (by decide) ?_
    rw [itemChars_eq]
    exact List.forall_mem_map.mpr fun v hv => ih v hv (depth + 1)
  | @record fields _ _ ih =>
    intro depth
    refine nul_notMem_row sp depth (by decide) (by decide) ?_
    rw [fieldChars_eq]
    refine List.forall_mem_map.mpr fun f hf => ?_
    have hgap : '\x00' ∉ sp.gap := by cases sp <;> decide
    simp [memberChars, nul_notMem_quoted, hgap, ih f hf (depth + 1)]

end StoryManifest.Json
