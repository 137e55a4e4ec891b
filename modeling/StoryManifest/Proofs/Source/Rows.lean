import Mathlib.Data.List.Forall2
import StoryManifest.Proofs.Json.Text
import StoryManifest.Proofs.Source.Running

/-!
Rows of items between brackets, with commas between them. `Spaced` says how the characters of a row are
put together, blanks wherever they may stand; `Row` says which nodes a row has. A row is read item by
item, and each item gives one node.
-/

namespace StoryManifest.Source

open Source.Parser Source.Grammar

/-! ### The characters of a row -/

/-- The characters after an opening bracket: items with commas between them and the closing bracket. -/
inductive Spaced (closing : Char) : List (List Char) → List Char → Prop
  | close {bs : List Char} : Blanks bs → Spaced closing [] (bs ++ [closing])
  | last {bs cs text : List Char} : Blanks bs → Blanks cs →
      Spaced closing [text] (bs ++ (text ++ (cs ++ [closing])))
  | item {bs text next chars : List Char} {texts : List (List Char)} : Blanks bs →
      Spaced closing (next :: texts) chars →
      Spaced closing (text :: next :: texts) (bs ++ (text ++ ',' :: chars))

theorem blanks_lead (sp : Json.Spacing) (depth : Nat) : Blanks (sp.blanks depth) := by
  cases sp with
  | compact => exact Blanks.nil
  | indented =>
    intro b hb
    rw [Json.Spacing.blanks_indented] at hb
    rcases List.mem_cons.mp hb with rfl | hb
    · decide
    · rw [List.eq_of_mem_replicate hb]; decide

theorem blanks_gap (sp : Json.Spacing) : Blanks sp.gap := by
  cases sp with
  | compact => exact Blanks.nil
  | indented => intro b hb; rw [List.mem_singleton.mp hb]; decide

theorem spaced_cons (sp : Json.Spacing) (depth : Nat) (closing : Char) (text : List Char)
    (texts : List (List Char)) : Spaced closing (text :: texts)
      (sp.blanks (depth + 1) ++ (text ++ Json.rowTail sp depth closing texts)) := by
  induction texts generalizing text with
  | nil => exact .last (blanks_lead sp _) (blanks_lead sp depth)
  | cons next texts ih => exact .item (blanks_lead sp _) (ih next)

/-- A written row is such a row. -/
theorem spaced_rowBody (sp : Json.Spacing) (depth : Nat) (closing : Char) (texts : List (List Char)) :
    Spaced closing texts (Json.rowBody sp depth closing texts) := by
  cases texts with
  | nil => exact .close Blanks.nil
  | cons text texts => exact spaced_cons sp depth closing text texts

/-! ### The nodes of a row -/

/-- The nodes after an opening bracket: items with commas between them and the closing bracket. -/
inductive Row (closer : String) : List Node → List Node → Prop
  | close {m : Node} : IsMark closer m → Row closer [] [m]
  | last {n m : Node} : IsMark closer m → Row closer [n] [n, m]
  | item {n next comma : Node} {ns ms : List Node} : IsMark "," comma → Row closer (next :: ns) ms →
      Row closer (n :: next :: ns) (n :: comma :: ms)

theorem IsMark.isNamed {text : String} {m : Node} (h : IsMark text m) : m.isNamed = false := by
  obtain ⟨start, stop, rfl⟩ := h
  rfl

theorem IsMark.hasFault {text : String} {m : Node} (h : IsMark text m) : m.hasFault = false := by
  obtain ⟨start, stop, rfl⟩ := h
  rfl

theorem Row.anyFault {closer : String} {ns ms : List Node} (h : Row closer ns ms)
    (hns : ∀ n ∈ ns, n.hasFault = false) : Node.anyFault ms = false := by
  induction h with
  | close hm => simp [Node.anyFault, hm.hasFault]
  | @last n m hm => simp [Node.anyFault, hm.hasFault, hns n (by simp)]
  | @item n next comma ns ms hm _ ih =>
    have hrest := ih fun n hn => hns n (List.mem_cons_of_mem _ hn)
    simp [Node.anyFault, hm.hasFault, hns n (by simp), hrest]

/-! ### Reading a row -/

/-- A text that an item may start with: a token, and neither a comma, a bracket that closes nor a dot. -/
structure Starts (text : List Char) : Prop where
  fresh : ∀ rest, Fresh (text ++ rest)
  head : ∃ c cs, text = c :: cs ∧ c ∉ [',', ']', '\x7d', '.']

/-- An item parser reads a text wherever a list may go on after it, and makes one node of it. -/
structure ReadsItem (item : Parser Unit) (text : List Char) (P : Node → Prop) : Prop where
  starts : Starts text
  apply : ∀ {s : State} {rest : List Char}, s.cursor.rest = text ++ rest → Stops rest →
    Ensures item s fun _ t => ∃ n, P n ∧ Moves s t rest (n :: s.made)

section

variable {s : State} {item : Parser Unit} {closer : String} {closing : Char}

/-- Whether a further item follows, past the comma if it does. -/
def furtherItem : Parser Bool := do
  if ← sees "," then
    mark ","
    pure true
  else pure false

theorem Ensures.furtherItem_comma {Q : Bool → State → Prop} {cs : List Char}
    (hs : s.cursor.rest = ',' :: cs)
    (hQ : ∀ m t, IsMark "," m → Moves s t cs (m :: s.made) → Q true t) :
    Ensures furtherItem s Q := by
  have hfresh : Fresh (',' :: cs) := .stop (by simp) cs
  have hs' : s.cursor.rest = [] ++ (",".toList ++ cs) := hs
  rw [furtherItem, ensures_bind]
  refine Ensures.sees_char (show ",".toList = [','] from rfl) hs' Blanks.nil hfresh ?_
  rw [if_pos (by decide), ensures_bind]
  refine Ensures.mark hs' Blanks.nil hfresh fun stop t ht => ?_
  exact (ensures_pure true).mpr (hQ _ t ⟨_, _, rfl⟩ ht)

theorem Ensures.furtherItem_none {Q : Bool → State → Prop} {bs cs : List Char} {c : Char}
    (hs : s.cursor.rest = bs ++ c :: cs) (hb : Blanks bs) (hc : c ≠ ',') (hfresh : Fresh (c :: cs))
    (hQ : Q false s) : Ensures furtherItem s Q := by
  have hne : ¬(',' == c) = true := fun h => hc (eq_of_beq h).symm
  rw [furtherItem, ensures_bind]
  refine Ensures.sees_char (show ",".toList = [','] from rfl) hs hb hfresh ?_
  rw [if_neg hne, ensures_pure]
  exact hQ

/-- Where neither a closing bracket nor a comma comes next, a step of a list appends an item, and goes on
with the comma after it or with what follows. -/
theorem Ensures.listStep_item {Q : Bool → State → Prop} {bs cs : List Char} {c : Char}
    (hs : s.cursor.rest = bs ++ c :: cs) (hb : Blanks bs) (hfresh : Fresh (c :: cs))
    (hcloser : closer.toList = [closing]) (hclose : c ≠ closing) (hcomma : c ≠ ',')
    (hitem : ∀ t, Moves s t (c :: cs) s.made → Ensures item t fun _ u => Ensures furtherItem u Q) :
    Ensures (listStep closer true item) s Q := by
  rw [Grammar.listStep, ensures_bind]
  refine Ensures.wideGap hs hb hfresh fun t hmoves => ?_
  have ht : t.cursor.rest = [] ++ c :: cs := hmoves.rest_eq
  rw [ensures_bind]
  refine Ensures.sees_char hcloser ht Blanks.nil hfresh ?_
  rw [if_neg fun h => hclose (eq_of_beq h).symm, ensures_bind]
  refine Ensures.sees_char (show ",".toList = [','] from rfl) ht Blanks.nil hfresh ?_
  rw [if_neg (by simpa using hcomma.symm), ensures_bind]
  exact hitem t hmoves

/-- A step of a list appends an item that may start there. -/
theorem Ensures.listStep {Q : Bool → State → Prop} {bs text rest : List Char}
    (hs : s.cursor.rest = bs ++ (text ++ rest)) (hb : Blanks bs) (ht : Starts text)
    (hcloser : closer.toList = [closing]) (hclosing : closing ∈ [']', '\x7d'])
    (hitem : ∀ t, Moves s t (text ++ rest) s.made → Ensures item t fun _ u => Ensures furtherItem u Q) :
    Ensures (listStep closer true item) s Q := by
  obtain ⟨c, cs, rfl, hc⟩ := ht.head
  have hsub : [']', '\x7d'] ⊆ [',', ']', '\x7d', '.'] := by decide
  refine Ensures.listStep_item hs hb (ht.fresh rest) hcloser ?_ ?_ hitem
  · rintro rfl
    exact hc (hsub hclosing)
  · rintro rfl
    exact absurd hc (by decide)

theorem Ensures.listStep_end {Q : Bool → State → Prop} {bs cs : List Char}
    (hs : s.cursor.rest = bs ++ closing :: cs) (hb : Blanks bs) (hcloser : closer.toList = [closing])
    (hclosing : closing ∈ [']', '\x7d']) (hQ : ∀ t, Moves s t (closing :: cs) s.made → Q false t) :
    Ensures (Grammar.listStep closer true item) s Q := by
  have hsub : [']', '\x7d'] ⊆ [',', ']', '\x7d', ';'] := by decide
  have hfresh : Fresh (closing :: cs) := .stop (hsub hclosing) cs
  rw [Grammar.listStep, ensures_bind]
  refine Ensures.wideGap hs hb hfresh fun t hmoves => ?_
  have ht' : t.cursor.rest = [] ++ closing :: cs := hmoves.rest_eq
  rw [ensures_bind]
  refine Ensures.sees_char hcloser ht' Blanks.nil hfresh ?_
  rw [if_pos (by simp), ensures_pure]
  exact hQ t hmoves

/-- The steps of a list lead to its closing bracket and make the nodes of a row. -/
def StepsThrough {α : Type} (closer : String) (closing : Char) (item : Parser Unit)
    (R : α → Node → Prop) (as : List α) (s : State) (rest : List Char) : Prop :=
  ∃ t, Repeats (Grammar.listStep closer true item) s t ∧ ∃ bs ms ns, Blanks bs ∧
    Moves s t (bs ++ closing :: rest) (ms.reverse ++ s.made) ∧ List.Forall₂ R as ns ∧
      ∀ m, IsMark closer m → Row closer ns (ms ++ [m])

theorem stepsThrough_spaced {α : Type} {R : α → Node → Prop} (hcloser : closer.toList = [closing])
    (hclosing : closing ∈ [']', '\x7d']) {texts : List (List Char)} {chars : List Char}
    (h : Spaced closing texts chars) (rest : List Char) : ∀ {as : List α} {s : State},
    List.Forall₂ (fun text a => ReadsItem item text (R a)) texts as → s.cursor.rest = chars ++ rest →
    StepsThrough closer closing item R as s rest := by
  induction h with
  | @close bs hb =>
    intro as s has hs
    cases has
    rw [List.append_assoc] at hs
    refine Ensures.repeats_stop (Ensures.listStep_end hs hb hcloser hclosing fun t ht => ⟨rfl, ?_⟩)
    exact ⟨[], [], [], Blanks.nil, ht, .nil, fun m hm => .close hm⟩
  | @last bs cs text hb hc =>
    intro as s has hs
    cases has with
    | @cons _ a _ _ ha hnil =>
      cases hnil
      have hsub : [']', '\x7d'] ⊆ [',', ']', '\x7d', ';'] := by decide
      have hcomma : closing ≠ ',' := by
        rintro rfl
        exact absurd hclosing (by decide)
      simp only [List.append_assoc] at hs
      refine Ensures.repeats_stop (Ensures.listStep hs hb ha.starts hcloser hclosing fun t ht => ?_)
      have hends : Stops (cs ++ ([closing] ++ rest)) :=
        ⟨cs, closing, rest, hc, hsub hclosing, rfl⟩
      refine (ha.apply ht.rest_eq hends).mono ?_
      rintro _ u ⟨n, hn, hu⟩
      refine Ensures.furtherItem_none hu.rest_eq hc hcomma (.stop (hsub hclosing) rest)
        ⟨rfl, cs, [n], [n], hc, ?_, ?_, ?_⟩
      · rw [ht.made_eq] at hu
        exact ht.trans hu
      · exact .cons hn .nil
      · exact fun m hm => .last hm
  | @item bs text next chars texts hb hnext ih =>
    intro as s has hs
    cases has with
    | @cons _ a _ as' ha has' =>
      simp only [List.append_assoc, List.cons_append] at hs
      refine Ensures.repeats_more (Ensures.listStep hs hb ha.starts hcloser hclosing fun t ht => ?_)
      have hends : Stops (',' :: (chars ++ rest)) := ⟨[], ',', _, Blanks.nil, by simp, rfl⟩
      refine (ha.apply ht.rest_eq hends).mono ?_
      rintro _ u ⟨n, hn, hu⟩
      refine Ensures.furtherItem_comma hu.rest_eq fun m v hm hv => ⟨rfl, ?_, ?_⟩
      · rw [hv.rest_eq, hs]
        simp only [List.length_append, List.length_cons]
        omega
      obtain ⟨w, hw, cs, ms, ns, hcs, hmoves, hns, hrow⟩ := ih has' hv.rest_eq
      refine ⟨w, hw, cs, n :: m :: ms, n :: ns, hcs, ?_, .cons hn hns, fun m' hm' => ?_⟩
      · have hmade : ms.reverse ++ v.made = (n :: m :: ms).reverse ++ s.made := by
          simp [hv.made_eq, hu.made_eq, ht.made_eq]
        exact hmade ▸ ht.trans (hu.trans (hv.trans hmoves))
      · cases has'
        cases hns
        exact .item hm (hrow m' hm')

/-- A row between brackets is read item by item. -/
theorem Ensures.bracketed {α : Type} {R : α → Node → Prop} {opener : String} {opening : Char}
    {texts : List (List Char)} {chars rest : List Char} {as : List α} {Q : Unit → State → Prop}
    (hopener : opener.toList = [opening]) (hopening : opening ∈ ['[', '\x7b'])
    (hcloser : closer.toList = [closing]) (hclosing : closing ∈ [']', '\x7d'])
    (hs : s.cursor.rest = opening :: (chars ++ rest)) (hchars : Spaced closing texts chars)
    (hitems : List.Forall₂ (fun text a => ReadsItem item text (R a)) texts as)
    (hQ : ∀ stop ms ns t, Row closer ns ms → List.Forall₂ R as ns →
      Moves s t rest (ms.reverse ++ .leaf (.token opener) s.cursor.place stop opener :: s.made) →
        Q () t) :
    Ensures (bracketed opener closer true item) s Q := by
  have hopen : Fresh (opening :: (chars ++ rest)) := by
    simp only [List.mem_cons, List.not_mem_nil, or_false] at hopening
    rcases hopening with rfl | rfl <;> exact .cons (by decide)
  have hsub : [']', '\x7d'] ⊆ [',', ']', '\x7d', ';'] := by decide
  have hs' : s.cursor.rest = [] ++ (opener.toList ++ (chars ++ rest)) := by rw [hopener]; exact hs
  rw [Grammar.bracketed, ensures_bind]
  refine Ensures.mark hs' Blanks.nil (by rwa [hopener]) fun stop t ht => ?_
  obtain ⟨u, hu, bs, ms, ns, hb, hmoves, hns, hrow⟩ :=
    stepsThrough_spaced hcloser hclosing hchars rest hitems ht.rest_eq
  rw [ensures_bind]
  refine hu.ensures_loop ?_
  have hu' : u.cursor.rest = bs ++ (closer.toList ++ rest) := by rw [hcloser]; exact hmoves.rest_eq
  refine Ensures.mark hu' hb (by rw [hcloser]; exact .stop (hsub hclosing) rest) fun stop' v hv => ?_
  refine hQ stop _ ns v (hrow (.leaf _ (u.cursor.advance bs.length).place stop' _) ⟨_, _, rfl⟩) hns ?_
  rw [hmoves.made_eq, ht.made_eq] at hv
  simpa using ht.trans (hmoves.trans hv)

end

end StoryManifest.Source
