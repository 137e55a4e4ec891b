import StoryManifest.Proofs.Literal.Spelling

/-!
Spellings of keys. A member of an object literal is named by a word, by a string in quotes or, where its
name is the decimal text of a whole number up to 2^53, by a numeral in some base. However a name is
spelled, the grammar reads a node that stands for the name.
-/

namespace StoryManifest.Source

open Source.Parser Source.Grammar
open Literal (IsInteger Spelled decodeString parseNumber? pieceUnits propertyKey)

variable {g : Grammar} {s : State} {m n : Node} {name : String} {text cs : List Char}

/-! ### Reading keys -/

/-- A text is a spelling of a name as a key. -/
inductive IsSpelling (name : String) : List Char → Prop
  | word : IsWord name.toList → IsSpelling name name.toList
  | quoted {quote : Char} {text : List Char} : quote ∈ quoteChars → Spelled quote text name.toList →
      IsSpelling name (quote :: (text ++ [quote]))
  | numeral {k base : Nat} {text : List Char} : k ≤ Number.safeBound → IsInteger k base text →
      name = toString k → IsSpelling name text

/-- A node is a part of the grammar that stands for a name as a key. -/
structure IsKey (name : String) (n : Node) : Prop where
  key : propertyKey n = .named name
  part : n.isPart = true

/-- However a name is spelled, the grammar reads a node that stands for it. -/
theorem Ensures.propertyName_spelled (h : IsSpelling name text) (hs : s.cursor.rest = text ++ ':' :: cs) :
    Ensures (propertyName g) s fun n t => IsKey name n ∧ Moves s t (':' :: cs) s.made := by
  cases h with
  | word hname =>
    refine Ensures.propertyName_word hname hs fun stop t ht => ⟨⟨?_, rfl⟩, ht⟩
    rw [String.ofList_toList]
    rfl
  | @quoted quote text hquote htext =>
    have hs' : s.cursor.rest = quote :: (text ++ quote :: ':' :: cs) := by simpa using hs
    have hbody := Literal.body_of_spelled hquote htext
    refine Ensures.propertyName_quote hquote hs' (Ensures.quoted hquote hbody hs' fun n t hn _ ht =>
      ⟨?_, ht⟩)
    rw [Text.Utf16.ofUnits_units, String.ofList_toList] at hn
    refine ⟨(isName_of_isString hn).key, ?_⟩
    obtain ⟨place, children, rfl⟩ := hn.node
    rfl
  | @numeral k base text hk htext hname =>
    have hbound : k < 2 ^ 64 := hk.trans_lt (by decide)
    have hvalue : parseNumber? (String.ofList text) = some (.integer k) := by
      rw [htext.parseNumber?_eq hbound, if_neg (by omega), Number.nearest?_of_le hk]
    refine Ensures.propertyName_numeral htext.isNumeral hs fun stop t ht => ⟨⟨?_, rfl⟩, ht⟩
    rw [hname, ← Digits.text_natCast]
    simp [propertyKey, Node.leaf, hvalue]

/-! ### Keys wherever they stand -/

/-- What a node and its children are and their texts, without places and roles. -/
def Node.lexemes (n : Node) : List (Label × String) := (n :: n.children).map fun c => (c.label, c.text)

theorem Node.lexemes_eq_iff : m.lexemes = n.lexemes ↔ m.label = n.label ∧ m.text = n.text ∧
    m.children.map (fun c => (c.label, c.text)) = n.children.map fun c => (c.label, c.text) := by
  rw [lexemes, lexemes, List.map_cons, List.map_cons, List.cons.injEq, Prod.mk.injEq, and_assoc]

/-- What a key stands for depends on its lexemes only. -/
theorem propertyKey_of_lexemes (h : m.lexemes = n.lexemes) : propertyKey m = propertyKey n := by
  obtain ⟨hlabel, htext, hchildren⟩ := Node.lexemes_eq_iff.mp h
  have hpieces : m.children.flatMap pieceUnits = n.children.flatMap pieceUnits := by
    refine forall₂_flatMap_eq (forall₂_of_map_eq hchildren) fun c d hcd => ?_
    obtain ⟨hlabel, htext⟩ := Prod.mk.inj hcd
    have hkind : ∀ kind, c.is kind = d.is kind := fun kind => by rw [Node.is, Node.is, hlabel]
    rw [pieceUnits, pieceUnits, hkind, hkind, htext]
  have hstring : decodeString m = decodeString n := by rw [decodeString, decodeString, hpieces]
  rw [propertyKey, propertyKey, hlabel, htext, hstring]

theorem IsKey.of_lexemes (h : IsKey name m) (hmn : m.lexemes = n.lexemes) : IsKey name n where
  key := by rw [← propertyKey_of_lexemes hmn, h.key]
  part := by
    have hpart := h.part
    rwa [Node.isPart, Node.isNamed, Node.is, (Node.lexemes_eq_iff.mp hmn).1] at hpart

/-- A node has the lexemes that the grammar reads in a text where a key is due. -/
def IsRead (text : List Char) (n : Node) : Prop :=
  ∃ (g : Grammar) (s t : State) (cs : List Char) (m : Node), s.cursor.rest = text ++ ':' :: cs ∧
    propertyName g s = .done m t ∧ m.lexemes = n.lexemes

/-- A node is a name, spelled as a key. -/
def SpellsName (name : String) (n : Node) : Prop := ∃ text, IsSpelling name text ∧ IsRead text n

/-- A node that is a name, however it is spelled, stands for the name. -/
theorem SpellsName.isKey (h : SpellsName name n) : IsKey name n := by
  obtain ⟨text, hspelling, g, s, t, cs, m, hs, hread, hlexemes⟩ := h
  obtain ⟨hkey, -⟩ := (ensures_of_eq hread).mp (Ensures.propertyName_spelled hspelling hs)
  exact hkey.of_lexemes hlexemes

end StoryManifest.Source
