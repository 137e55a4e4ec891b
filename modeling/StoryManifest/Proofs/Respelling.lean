import StoryManifest.Proofs.Literal.Keys
import StoryManifest.Proofs.Wrapping

/-!
How keys are spelled does not count. Two programs are compared of which the second is the first with other
spellings of the names in it that stand before a colon: words, strings in quotes with or without escapes, and
numerals. The rules find the same declarations in both, with equal values, and these come to the same
properties, also where a name is repeated in other spellings.
-/

namespace StoryManifest.Source

open Literal

/-! ### Trees with keys spelled in other ways -/

mutual

/-- The second tree is the first one with keys of members spelled in other ways, at any depth. -/
inductive RespellsKeys : Node → Node → Prop
  | mk {m n : Node} : m.label = n.label → m.text = n.text → RespellsKeysIn m m.children n.children →
      RespellsKeys m n

/-- The second list are the first children of a node with keys of members spelled in other ways, among
and below them. -/
inductive RespellsKeysIn : Node → List Node → List Node → Prop
  | nil {parent : Node} : RespellsKeysIn parent [] []
  | same {parent c d : Node} {cs ds : List Node} : c.role = d.role → RespellsKeys c d →
      RespellsKeysIn parent cs ds → RespellsKeysIn parent (c :: cs) (d :: ds)
  | key {parent c d : Node} {cs ds : List Node} {name : String} : parent.namesMember c.role = true →
      c.role = d.role → SpellsName name c → SpellsName name d → RespellsKeysIn parent cs ds →
      RespellsKeysIn parent (c :: cs) (d :: ds)

end

theorem forall₂_placed_of_respelled {parent : Node} : ∀ {cs ds : List Node}, RespellsKeysIn parent cs ds →
    List.Forall₂ (Placed RespellsKeys parent) cs ds
  | _, _, .nil => .nil
  | _, _, .same hrole h hrest => .cons (.same hrole h) (forall₂_placed_of_respelled hrest)
  | _, _, .key hmember hrole hc hd hrest => by
    have hkey := hc.isKey.key.trans hd.isKey.key.symm
    exact .cons (.key hmember hrole hc.isKey.part hd.isKey.part hkey) (forall₂_placed_of_respelled hrest)

/-- With keys spelled in other ways, a tree is like it was. -/
theorem likeness_respellsKeys : Likeness RespellsKeys := by
  refine likeness_of_children ?_ ?_ ?_
  · rintro m n ⟨hlabel, -, -⟩
    exact hlabel
  · rintro m n ⟨-, htext, -⟩
    exact htext
  · rintro m n ⟨-, -, hchildren⟩
    exact forall₂_placed_of_respelled hchildren

/-! ### Checking trees -/

/-- Whether a node has the lexemes that the grammar reads in a text before a colon. -/
def readsKey (text : List Char) (n : Node) : Bool :=
  match Grammar.propertyName (fun _ => Parser.fail) ⟨⟨text ++ [':'], .origin⟩, [], .origin⟩ with
  | .done m _ => m.lexemes = n.lexemes
  | .failed _ => false

theorem isRead_of_readsKey {text : List Char} {n : Node} (h : readsKey text n = true) : IsRead text n := by
  unfold readsKey at h
  split at h
  · exact ⟨_, _, _, _, _, rfl, ‹_›, of_decide_eq_true h⟩
  · cases h

mutual

/-- Whether the second tree is the first one with keys replaced by others of one row of texts, at
any depth. -/
def respellsKeys (rows : List (List (List Char))) : Node → Node → Bool
  | ⟨label, role, start, stop, text, children⟩, n =>
    label = n.label && text = n.text &&
      respellsKeysIn rows ⟨label, role, start, stop, text, children⟩ children n.children

def respellsKeysIn (rows : List (List (List Char))) (parent : Node) : List Node → List Node → Bool
  | [], [] => true
  | c :: cs, d :: ds =>
    c.role = d.role && (respellsKeys rows c d || parent.namesMember c.role &&
      rows.any fun row => row.any (readsKey · c) && row.any (readsKey · d)) &&
        respellsKeysIn rows parent cs ds
  | _, _ => false

end

/-- The texts of a row are spellings of one name. -/
def AreSpellings (rows : List (List (List Char))) : Prop :=
  ∀ row ∈ rows, ∃ name, ∀ text ∈ row, IsSpelling name text

theorem AreSpellings.spellsName {rows : List (List (List Char))} (hrows : AreSpellings rows) {c d : Node}
    (h : rows.any (fun row => row.any (readsKey · c) && row.any (readsKey · d)) = true) :
    ∃ name, SpellsName name c ∧ SpellsName name d := by
  obtain ⟨row, hrow, h⟩ := List.any_eq_true.mp h
  obtain ⟨hc, hd⟩ := Bool.and_eq_true_iff.mp h
  obtain ⟨name, hname⟩ := hrows row hrow
  obtain ⟨text, htext, hc⟩ := List.any_eq_true.mp hc
  obtain ⟨text', htext', hd⟩ := List.any_eq_true.mp hd
  exact ⟨name, ⟨text, hname text htext, isRead_of_readsKey hc⟩, text', hname text' htext',
    isRead_of_readsKey hd⟩

mutual

/-- Rows of spellings replace keys by keys with the same name. -/
theorem AreSpellings.respells {rows : List (List (List Char))} (hrows : AreSpellings rows) :
    ∀ {m n : Node}, respellsKeys rows m n = true → RespellsKeys m n
  | ⟨label, role, start, stop, text, children⟩, n, h => by
    simp only [respellsKeys, Bool.and_eq_true, decide_eq_true_eq] at h
    exact .mk h.1.1 h.1.2 (hrows.respellsIn h.2)

theorem AreSpellings.respellsIn {rows : List (List (List Char))} (hrows : AreSpellings rows) :
    ∀ {parent : Node} {cs ds : List Node}, respellsKeysIn rows parent cs ds = true →
      RespellsKeysIn parent cs ds
  | _, [], [], _ => .nil
  | _, c :: cs, d :: ds, h => by
    simp only [respellsKeysIn, Bool.and_eq_true, Bool.or_eq_true, decide_eq_true_eq] at h
    obtain ⟨⟨hrole, hc | ⟨hmember, hc⟩⟩, hrest⟩ := h
    · exact .same hrole (hrows.respells hc) (hrows.respellsIn hrest)
    · obtain ⟨name, hc, hd⟩ := hrows.spellsName (by simpa using hc)
      exact .key hmember hrole hc hd (hrows.respellsIn hrest)
  | _, [], _ :: _, h | _, _ :: _, [], h => by cases h

end

end StoryManifest.Source

namespace StoryManifest.Story

open Source (Program RespellsKeys IsSpelling likeness_respellsKeys parsed ofText_eq_parsed)
open Literal (evaluate)

/-! ### Programs with keys spelled in other ways -/

/-- How keys are spelled does not count: with other spellings of as many keys as there may be, the same
declarations are located, with equal values and the same contents, and they come to the same properties. -/
theorem extract_respelled {v w : Source.Variant} {text text' : String} {p q : Program}
    (hp : Program.ofText v text = .ok p) (hq : Program.ofText w text' = .ok q)
    (h : RespellsKeys p.root q.root) :
    (locate q).declarations.map (fun d => (d.heading, evaluate d.node)) =
      (locate p).declarations.map (fun d => (d.heading, evaluate d.node)) ∧
    (locate q).candidates.map Candidate.content = (locate p).candidates.map Candidate.content ∧
    (extract q).properties = (extract p).properties := by
  have hR := likeness_respellsKeys
  obtain ⟨hdeclarations, hcontents, hproperties⟩ := accepted_same hR hp hq h
  refine ⟨(forall₂_map_eq hdeclarations fun d e hde => ?_).symm, hcontents.symm, hproperties.symm⟩
  rw [hde.heading_eq, hR.evaluate_eq hde.node]

/-- Metadata with words and strings for keys, one of them twice. -/
def plainKeys : String := "export default\x7bargs:\x7bsize:1,\"2\":[],size:3\x7d\x7d;"

/-- The same with a letter by its number, a numeral and a character in braces. -/
def respelledKeys : String :=
  "export default\x7b\"\\x61rgs\":\x7bsize:1,0b1_0:[],'siz\\u\x7b65\x7d':3\x7d\x7d;"

/-- The spellings of the three names in them. -/
def keyRows : List (List (List Char)) :=
  [["args".toList, "\"\\x61rgs\"".toList], ["size".toList, "'siz\\u\x7b65\x7d'".toList],
    ["\"2\"".toList, "0b1_0".toList]]

theorem areSpellings_keyRows : Source.AreSpellings keyRows := by
  have hargs : Literal.Spelled '"' (('\\' :: 'x' :: ['6', '1']) ++ (['r', 'g', 's'] ++ [])) "args".toList :=
    .char (.byte ⟨0, by decide⟩ rfl) (by decide) (.itself .nil (by decide))
  have hsize :
      Literal.Spelled '\'' (['s', 'i', 'z'] ++ (('\\' :: 'u' :: '\x7b' :: (['6', '5'] ++ ['\x7d'])) ++ []))
      "size".toList := .itself (.char (.braced ⟨0, by decide⟩) (by decide) .nil) (by decide)
  have htwo : Literal.Spelled '"' (['2'] ++ []) "2".toList := .itself .nil (by decide)
  have hbinary : Literal.IsInteger 2 2 "0b1_0".toList := .marked (by decide) (by decide) ⟨0, by decide⟩
  simp only [Source.AreSpellings, keyRows, List.forall_mem_cons, List.not_mem_nil, false_implies,
    implies_true,
    and_true]
  refine ⟨⟨"args", .word (by decide), .quoted (by decide) hargs⟩, ⟨"size", .word (by decide), ?_⟩, "2",
    ?_, ?_⟩
  · exact .quoted (by decide) hsize
  · exact .quoted (by decide) htwo
  · exact .numeral (by decide) hbinary rfl

theorem extract_respelled_keys : ∃ p q : Program,
    Program.ofText .tsx plainKeys = .ok p ∧ Program.ofText .tsx respelledKeys = .ok q ∧
    RespellsKeys p.root q.root ∧
    (locate q).declarations.map (fun d => (d.heading, evaluate d.node)) =
      (locate p).declarations.map (fun d => (d.heading, evaluate d.node)) ∧
    (locate q).candidates.map Candidate.content = (locate p).candidates.map Candidate.content ∧
    (extract q).properties = (extract p).properties := by
  have ⟨hplain, hrespelled, h⟩ : (Source.syntaxFault? (parsed .tsx plainKeys).root).isNone = true ∧
      (Source.syntaxFault? (parsed .tsx respelledKeys).root).isNone = true ∧
      Source.respellsKeys keyRows (parsed .tsx plainKeys).root (parsed .tsx respelledKeys).root = true := by
    decide +kernel
  have hp := ofText_eq_parsed .tsx plainKeys hplain
  have hq := ofText_eq_parsed .tsx respelledKeys hrespelled
  have h := areSpellings_keyRows.respells h
  exact ⟨_, _, hp, hq, h, extract_respelled hp hq h⟩

end StoryManifest.Story
