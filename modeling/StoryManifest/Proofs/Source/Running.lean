import Mathlib.Data.List.Basic
import StoryManifest.Source.Grammar.Rule

/-!
Running a parser. `Ensures` says that a parser succeeds from a state and what then holds; each way to
put parsers together has one rule for it, so a parser is followed step by step through the text that it
is known to stand before. `Moves` says how far a state has come and which nodes it has made.
-/

namespace StoryManifest.Source

/-! ### Cursors -/

namespace Cursor

@[simp] theorem advance_zero (c : Cursor) : c.advance 0 = c := rfl

@[simp] theorem rest_advance : ∀ (n : Nat) (c : Cursor), (c.advance n).rest = c.rest.drop n
  | 0, _ => rfl
  | _ + 1, ⟨[], _⟩ => rfl
  | n + 1, ⟨x :: xs, p⟩ => by simp [advance, rest_advance n]

theorem byte_le_advance : ∀ (n : Nat) (c : Cursor), c.place.byte ≤ (c.advance n).place.byte
  | 0, _ => Nat.le_refl _
  | _ + 1, ⟨[], _⟩ => Nat.le_refl _
  | n + 1, ⟨x :: xs, p⟩ => by
    have hx : p.byte ≤ (p.after x).byte := by
      unfold Place.after
      split <;> simp
    exact Nat.le_trans hx (byte_le_advance n ⟨xs, p.after x⟩)

end Cursor

/-- One state comes from another one by reading on: the text that is left, the nodes made so far, and
no place before the old one. -/
structure Moves (s t : State) (rest : List Char) (made : List Node) : Prop where
  rest_eq : t.cursor.rest = rest
  made_eq : t.made = made
  byte_le : s.cursor.place.byte ≤ t.cursor.place.byte

theorem Moves.trans {s t u : State} {mid rest : List Char} {ns made : List Node} (h : Moves s t mid ns)
    (h' : Moves t u rest made) : Moves s u rest made :=
  ⟨h'.rest_eq, h'.made_eq, Nat.le_trans h.byte_le h'.byte_le⟩

theorem Moves.push {s t : State} {rest : List Char} {made : List Node} (h : Moves s t rest made)
    (n : Node) : Moves s { t with made := n :: t.made } rest (n :: made) :=
  ⟨h.rest_eq, congrArg (n :: ·) h.made_eq, h.byte_le⟩

/-- A token of a fixed text. -/
def IsMark (text : String) (n : Node) : Prop := ∃ start stop, n = .leaf (.token text) start stop text

/-! ### Faults -/

theorem hasFault_token (token : String) (start stop : Place) (text : String) :
    (Node.leaf (.token token) start stop text).hasFault = false := rfl

theorem hasFault_inRole (role : Role) (n : Node) : (n.inRole role).hasFault = n.hasFault := by
  cases n
  simp [Node.inRole, Node.hasFault, Node.isError, Node.isMissing]

theorem hasFault_build (kind : Kind) (place : Place) (children : List Node) :
    (Parser.build kind place children).hasFault = Node.anyFault children := by
  simp [Parser.build, Node.hasFault, Node.isError, Node.isMissing]

theorem anyFault_append : ∀ ms ns : List Node,
    Node.anyFault (ms ++ ns) = (Node.anyFault ms || Node.anyFault ns)
  | [], ns => by simp [Node.anyFault]
  | m :: ms, ns => by simp [Node.anyFault, anyFault_append ms ns, Bool.or_assoc]

namespace Parser

variable {α β : Type} {p : Parser α} {s : State} {Q : α → State → Prop}

/-- The parser succeeds, and what it returns and where it stops satisfy a condition. -/
def Ensures (p : Parser α) (s : State) (Q : α → State → Prop) : Prop :=
  ∃ a t, p s = .done a t ∧ Q a t

theorem Ensures.mono {R : α → State → Prop} (h : Ensures p s Q) (hQ : ∀ a t, Q a t → R a t) :
    Ensures p s R := by
  obtain ⟨a, t, hp, ha⟩ := h
  exact ⟨a, t, hp, hQ a t ha⟩

/-- A parser that does the same from a state. -/
theorem Ensures.of_eq {q : Parser α} (hpq : p s = q s) (h : Ensures q s Q) : Ensures p s Q := by
  rwa [Ensures, hpq]

/-! ### One rule for each way to put parsers together -/

/-- The text that is left is looked at where the parser is. -/
theorem rest_bind (f : List Char → Parser β) (s : State) : (rest >>= f) s = f s.cursor.rest s := rfl

theorem ensures_of_eq {a : α} {t : State} (h : p s = .done a t) : Ensures p s Q ↔ Q a t := by
  constructor
  · rintro ⟨b, u, hp, hQ⟩
    rw [h] at hp
    cases hp
    exact hQ
  · exact fun hQ => ⟨a, t, h, hQ⟩

@[simp] theorem ensures_pure (a : α) : Ensures (pure a) s Q ↔ Q a s := ensures_of_eq rfl

@[simp] theorem ensures_bind {f : α → Parser β} {R : β → State → Prop} :
    Ensures (p >>= f) s R ↔ Ensures p s fun a t => Ensures (f a) t R := by
  constructor
  · rintro ⟨b, u, h, hR⟩
    cases hp : p s with
    | done a t =>
      have hf : f a t = .done b u := by rw [← h]; show _ = andThen p f s; rw [andThen, hp]
      exact ⟨a, t, hp, b, u, hf, hR⟩
    | failed reach =>
      have : andThen p f s = .done b u := h
      rw [andThen, hp] at this
      cases this
  · rintro ⟨a, t, hp, b, u, hf, hR⟩
    refine ⟨b, u, ?_, hR⟩
    show andThen p f s = _
    rw [andThen, hp]
    exact hf

@[simp] theorem ensures_push (n : Node) {Q : Unit → State → Prop} :
    Ensures (push n) s Q ↔ Q () { s with made := n :: s.made } := ensures_of_eq rfl

@[simp] theorem ensures_rest {Q : List Char → State → Prop} :
    Ensures rest s Q ↔ Q s.cursor.rest s := ensures_of_eq rfl

@[simp] theorem ensures_here {Q : State → State → Prop} : Ensures here s Q ↔ Q s s :=
  ensures_of_eq rfl

@[simp] theorem ensures_skip (n : Nat) {Q : Unit → State → Prop} :
    Ensures (skip n) s Q ↔ Q () { s with cursor := s.cursor.advance n } := ensures_of_eq rfl

@[simp] theorem ensures_require (b : Bool) {Q : Unit → State → Prop} :
    Ensures (require b) s Q ↔ b = true ∧ Q () s := by
  cases b with
  | true => simp [require]
  | false =>
    refine ⟨?_, fun h => absurd h.1 (by decide)⟩
    rintro ⟨a, t, h, -⟩
    cases h

theorem Ensures.orElse (h : Ensures p s Q) (q : Parser α) : Ensures (orElse p q) s Q := by
  obtain ⟨a, t, hp, hQ⟩ := h
  exact ⟨a, t, by rw [Parser.orElse, hp], hQ⟩

theorem Ensures.attempt {Q : Option α → State → Prop} (h : Ensures p s fun a t => Q (some a) t) :
    Ensures (attempt p) s Q := by
  refine Ensures.orElse ?_ _
  simpa using h

/-- A leaf covers the characters that it was asked to take. -/
theorem Ensures.take {Q : Node → State → Prop} {label : Label} {n : Nat} {text cs : List Char}
    (hs : s.cursor.rest = text ++ cs) (hn : n = text.length)
    (hQ : ∀ stop t, Moves s t cs s.made →
      Q (.leaf label s.cursor.place stop (String.ofList text)) t) :
    Ensures (take label n) s Q := by
  subst hn
  refine (ensures_of_eq rfl).mpr ?_
  rw [hs, List.take_left]
  exact hQ _ _ ⟨by simp [hs], rfl, Cursor.byte_le_advance ..⟩

/-- A node has the children that its parser appends, the first of which gives its place. -/
theorem Ensures.node {Q : Node → State → Prop} {kind : Kind} {body : Parser Unit}
    (h : Ensures body { s with made := [] } fun _ t =>
      Q (build kind s.cursor.place t.made.reverse) { t with made := s.made }) :
    Ensures (node kind body) s Q := by
  obtain ⟨u, t, hbody, hQ⟩ := h
  refine ⟨_, _, ?_, hQ⟩
  have hkind : (do body; pure kind : Parser Kind) { s with made := [] } = .done kind t := by
    show andThen body (fun _ => pure kind) _ = _
    rw [andThen, hbody]
    rfl
  rw [Parser.node, nodeOf, hkind]

/-! ### Repetition -/

/-- A parser that is repeated from one state ends in another one, and every round but the last one
reads something. -/
inductive Repeats (p : Parser Bool) : State → State → Prop
  | stop {s t : State} : p s = .done false t → Repeats p s t
  | more {s t u : State} : p s = .done true t → t.cursor.rest.length < s.cursor.rest.length →
      Repeats p t u → Repeats p s u

theorem repeatOver_of_repeats {p : Parser Bool} {s u : State} (h : Repeats p s u) :
    ∀ text : List Char, s.cursor.rest.length ≤ text.length → repeatOver text p s = .done () u := by
  induction h with
  | stop hp =>
    intro text _
    cases text <;> simp only [repeatOver, hp]
  | more hp hlt _ ih =>
    intro text hle
    cases text with
    | nil => exact absurd hlt (by rw [List.length_nil] at hle; omega)
    | cons c text =>
      rw [List.length_cons] at hle
      simp only [repeatOver, hp]
      exact ih text (by omega)

theorem Repeats.ensures_loop {p : Parser Bool} {s t : State} {Q : Unit → State → Prop}
    (h : Repeats p s t) (hQ : Q () t) : Ensures (loop p) s Q :=
  ⟨(), t, repeatOver_of_repeats h _ (Nat.le_refl _), hQ⟩

theorem Ensures.repeats_stop {p : Parser Bool} {s : State} {R : State → Prop}
    (h : Ensures p s fun b t => b = false ∧ R t) : ∃ t, Repeats p s t ∧ R t := by
  obtain ⟨b, t, hp, rfl, hR⟩ := h
  exact ⟨t, .stop hp, hR⟩

theorem Ensures.repeats_more {p : Parser Bool} {s : State} {R : State → Prop}
    (h : Ensures p s fun b t => b = true ∧ t.cursor.rest.length < s.cursor.rest.length ∧
      ∃ u, Repeats p t u ∧ R u) : ∃ u, Repeats p s u ∧ R u := by
  obtain ⟨b, t, hp, rfl, hlt, u, hu, hR⟩ := h
  exact ⟨u, .more hp hlt hu, hR⟩

/-- A value that no step rewrites stays as it is. -/
theorem Ensures.iterate {step : α → Parser (Option α)} {a : α}
    (h : Ensures (step a) s fun b t => b = none ∧ Q a t) : Ensures (iterate step a) s Q := by
  obtain ⟨b, t, hstep, rfl, hQ⟩ := h
  refine ⟨a, t, ?_, hQ⟩
  rw [Parser.iterate]
  cases s.cursor.rest <;> simp [iterateOver, hstep]

/-! ### Between tokens -/

/-- Nothing but blanks of the basic set. -/
def Blanks (bs : List Char) : Prop := ∀ b ∈ bs, isPlainBlank b = true

theorem Blanks.nil : Blanks [] := fun _ hb => absurd hb List.not_mem_nil

/-- A token starts here, or the text ends: no blank comes first and no comment. -/
structure Fresh (cs : List Char) : Prop where
  head : ∀ c ∈ cs.head?, isBlank c = false
  comment : commentLength? cs = none
  html : htmlCommentLength? cs = none

theorem Fresh.nil : Fresh [] := ⟨by simp, rfl, rfl⟩

/-- Punctuation other than a slash, a minus or an angle bracket opens no comment, nor does a letter or a
digit. -/
theorem Fresh.cons {c : Char} {cs : List Char} (h : isBlank c = false ∧ c ∉ ['/', '-', '<']) :
    Fresh (c :: cs) where
  head := by simpa using h.1
  comment := by
    unfold commentLength?
    split <;> simp_all
  html := by
    unfold htmlCommentLength?
    split <;> simp_all

theorem isBlank_of_isPlainBlank {c : Char} (h : isPlainBlank c = true) : isBlank c = true := by
  simp [isBlank, h]

theorem isHtmlBlank_of_isPlainBlank {c : Char} (h : isPlainBlank c = true) : isHtmlBlank c = true := by
  simp [isHtmlBlank, h]

theorem isBlank_of_isHtmlBlank {c : Char} (h : isHtmlBlank c = true) : isBlank c = true := by
  simp only [isHtmlBlank, Bool.or_eq_true, decide_eq_true_eq] at h
  rcases h with (h | rfl) | rfl
  · exact isBlank_of_isPlainBlank h
  · decide
  · decide

section

variable {bs cs : List Char}

/-- Blanks are taken up to the next token by any test that all of them pass and no token does. -/
theorem takeWhile_blanks (test : Char → Bool) (hplain : ∀ c, isPlainBlank c = true → test c = true)
    (hblank : ∀ c, test c = true → isBlank c = true) (hb : Blanks bs) (hc : Fresh cs) :
    (bs ++ cs).takeWhile test = bs := by
  rw [List.takeWhile_append_of_pos fun b h => hplain b (hb b h)]
  cases cs with
  | nil => simp
  | cons c cs =>
    have hhead := hc.head c rfl
    have : test c = false := by
      by_contra h
      rw [hblank c (by simpa using h)] at hhead
      cases hhead
    rw [List.takeWhile_cons_of_neg (by simp [this]), List.append_nil]

theorem dropWhile_blanks (hb : Blanks bs) (hc : Fresh cs) : (bs ++ cs).dropWhile isBlank = cs := by
  rw [List.dropWhile_append_of_pos fun b h => isBlank_of_isPlainBlank (hb b h)]
  cases cs with
  | nil => rfl
  | cons c cs => rw [List.dropWhile_cons_of_neg (by simp [hc.head c rfl])]

theorem afterTrivia_append (hb : Blanks bs) (hc : Fresh cs) : afterTrivia (bs ++ cs) = cs := by
  have hover : ∀ bound, afterTriviaOver bound (bs ++ cs) = cs := by
    intro bound
    cases bound with
    | nil => rw [afterTriviaOver, dropWhile_blanks hb hc]
    | cons d ds =>
      rw [afterTriviaOver, dropWhile_blanks hb hc]
      simp only [hc.comment]
  exact hover _

theorem Ensures.gapStep {html : Bool} {Q : Bool → State → Prop} (hs : s.cursor.rest = bs ++ cs)
    (hb : Blanks bs) (hc : Fresh cs) (hQ : Q false { s with cursor := s.cursor.advance bs.length }) :
    Ensures (gapStep html) s Q := by
  have hearly := takeWhile_blanks isHtmlBlank (fun c => isHtmlBlank_of_isPlainBlank)
    (fun c => isBlank_of_isHtmlBlank) hb hc
  have hlate : blankLength (bs ++ cs) = bs.length := by
    rw [blankLength, takeWhile_blanks isBlank (fun c => isBlank_of_isPlainBlank) (fun c h => h) hb hc]
  have hhtml : (if html = true then htmlCommentLength? cs else none) = none := by
    cases html <;> simp [hc.html]
  simp [Parser.gapStep, hs, hearly, hlate, hhtml, hc.comment, hQ]

theorem ensures_loop_gapStep {html : Bool} {Q : Unit → State → Prop} (hs : s.cursor.rest = bs ++ cs)
    (hb : Blanks bs) (hc : Fresh cs) (hQ : Q () { s with cursor := s.cursor.advance bs.length }) :
    Ensures (loop (Parser.gapStep html)) s Q := by
  obtain ⟨t, ht, rfl⟩ : ∃ t, Repeats (Parser.gapStep html) s t ∧
      t = { s with cursor := s.cursor.advance bs.length } :=
    (Ensures.gapStep hs hb hc ⟨rfl, rfl⟩).repeats_stop
  exact ht.ensures_loop hQ

theorem moves_blanks (hs : s.cursor.rest = bs ++ cs) :
    Moves s { s with cursor := s.cursor.advance bs.length } cs s.made :=
  ⟨by simp [hs], rfl, Cursor.byte_le_advance ..⟩

theorem Ensures.wideGap {Q : Unit → State → Prop} (hs : s.cursor.rest = bs ++ cs) (hb : Blanks bs)
    (hc : Fresh cs) (hQ : ∀ t, Moves s t cs s.made → Q () t) : Ensures wideGap s Q :=
  ensures_loop_gapStep hs hb hc (hQ _ (moves_blanks hs))

theorem Ensures.wideGap_none {Q : Unit → State → Prop} (hs : s.cursor.rest = cs) (hc : Fresh cs)
    (hQ : ∀ t, Moves s t cs s.made → Q () t) : Ensures Parser.wideGap s Q :=
  Ensures.wideGap (show s.cursor.rest = [] ++ cs from hs) Blanks.nil hc hQ

/-- What a parser reads past the blanks is appended. -/
theorem Ensures.gap_push {p : Parser Node} {Q : Unit → State → Prop} (hs : s.cursor.rest = bs ++ cs)
    (hb : Blanks bs) (hc : Fresh cs)
    (hp : Ensures p { s with cursor := s.cursor.advance bs.length } fun n t =>
      Q () { t with made := n :: t.made }) :
    Ensures (do gap; push (← p)) s Q := by
  rw [ensures_bind]
  refine ensures_loop_gapStep hs hb hc ?_
  simpa using hp

theorem Ensures.exactly {text : String} {Q : Node → State → Prop}
    (hs : s.cursor.rest = text.toList ++ cs)
    (hQ : ∀ stop t, Moves s t cs s.made → Q (.leaf (.token text) s.cursor.place stop text) t) :
    Ensures (exactly text) s Q := by
  rw [Parser.exactly, ensures_bind, ensures_rest, ensures_bind, ensures_require]
  refine ⟨by simp [hs], Ensures.take hs String.length_toList.symm fun stop t ht => ?_⟩
  rw [String.ofList_toList]
  exact hQ stop t ht

/-- A punctuation token is appended, whatever blanks come before it. -/
theorem Ensures.mark {text : String} {Q : Unit → State → Prop}
    (hs : s.cursor.rest = bs ++ (text.toList ++ cs)) (hb : Blanks bs) (hc : Fresh (text.toList ++ cs))
    (hQ : ∀ stop t, Moves s t cs
      (.leaf (.token text) (s.cursor.advance bs.length).place stop text :: s.made) → Q () t) :
    Ensures (mark text) s Q := by
  have hmoves := moves_blanks hs
  refine Ensures.gap_push hs hb hc (Ensures.exactly hmoves.rest_eq fun stop t ht => ?_)
  exact hQ stop _ ((hmoves.trans ht).push _)

theorem Ensures.sees {text : String} {Q : Bool → State → Prop} (hs : s.cursor.rest = bs ++ cs)
    (hb : Blanks bs) (hc : Fresh cs) (hQ : Q (text.toList.isPrefixOf cs) s) :
    Ensures (sees text) s Q := by
  simpa [Parser.sees, ahead, hs, afterTrivia_append hb hc] using hQ

/-- Whether a token of one character comes next is whether its character does. -/
theorem Ensures.sees_char {text : String} {c d : Char} {Q : Bool → State → Prop}
    (htext : text.toList = [d]) (hs : s.cursor.rest = bs ++ c :: cs) (hb : Blanks bs)
    (hc : Fresh (c :: cs)) (hQ : Q (d == c) s) : Ensures (Parser.sees text) s Q := by
  refine Ensures.sees hs hb hc ?_
  rw [htext]
  simpa [List.isPrefixOf] using hQ

/-! ### Where a value may end -/

/-- A comma, a closing bracket or a semicolon comes next, perhaps after blanks. -/
def Stops (cs : List Char) : Prop :=
  ∃ bs c rest, Blanks bs ∧ c ∈ [',', ']', '\x7d', ';'] ∧ cs = bs ++ c :: rest

/-- The characters that a word or a number may be followed by where a value or a key may end. -/
def stopChars : List Char := [' ', '\t', '\n', '\x0b', '\x0c', '\x0d', ',', ']', '\x7d', ';', ':']

theorem mem_stopChars_of_isPlainBlank {c : Char} (h : isPlainBlank c = true) : c ∈ stopChars := by
  simp only [isPlainBlank, Bool.or_eq_true, Bool.and_eq_true, decide_eq_true_eq] at h
  rcases h with rfl | ⟨hlow, hhigh⟩
  · decide
  · have hmin : 9 ≤ c.toNat := hlow
    have hmax : c.toNat ≤ 13 := hhigh
    have hcases : ∀ n < 14, 9 ≤ n → Char.ofNat n ∈ stopChars := by decide
    rw [← Char.ofNat_toNat c]
    exact hcases c.toNat (by omega) hmin

theorem Stops.exists_cons (h : Stops cs) : ∃ c rest, cs = c :: rest ∧ c ∈ stopChars := by
  obtain ⟨bs, c, rest, hb, hc, rfl⟩ := h
  cases bs with
  | nil =>
    have hsub : [',', ']', '\x7d', ';'] ⊆ stopChars := by decide
    exact ⟨c, rest, rfl, hsub hc⟩
  | cons b bs => exact ⟨b, _, rfl, mem_stopChars_of_isPlainBlank (hb b (by simp))⟩

theorem Fresh.stop {c : Char} (h : c ∈ [',', ']', '\x7d', ';']) (cs : List Char) : Fresh (c :: cs) := by
  simp only [List.mem_cons, List.not_mem_nil, or_false] at h
  rcases h with rfl | rfl | rfl | rfl <;>
    exact .cons (by decide)

end

end Parser

end StoryManifest.Source
