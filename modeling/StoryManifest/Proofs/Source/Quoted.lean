import StoryManifest.Literal.Text
import StoryManifest.Proofs.Source.Running

/-!
String literals between quotes of either kind. What stands between the quotes is a row of characters that
stand for themselves and of escapes; the grammar makes one piece of each escape and of each stretch between
them, and the units of the pieces are those that the row stands for.
-/

namespace StoryManifest

namespace Text.Utf16

theorem units_append : ∀ as bs : List Char, units (as ++ bs) = units as ++ units bs
  | [], _ => rfl
  | a :: as, bs => by rw [List.cons_append, units, units_append as bs, units, List.append_assoc]

end Text.Utf16

namespace Source

open Literal (escapeUnits pieceUnits)
open Text.Utf16 (units unitsOf)

/-! ### Bodies -/

/-- The two kinds of quotes. -/
def quoteChars : List Char := ['"', '\'']

/-- A character that stands for itself between quotes of a kind. -/
def isPlain (quote c : Char) : Bool := c ≠ quote && c ≠ '\\' && c ≠ '\n' && c ≠ '\r'

/-- Characters and escapes between quotes of a kind, up to a character that follows them, with the units that
they stand for. -/
inductive Body (quote next : Char) : List Char → List Nat → Prop
  | nil : Body quote next [] []
  | plain {c : Char} {cs : List Char} {us : List Nat} : isPlain quote c = true → Body quote next cs us →
      Body quote next (c :: cs) (unitsOf c ++ us)
  | escape {e cs : List Char} {us : List Nat} :
      escapeLength? ('\\' :: (e ++ (cs ++ [next]))) = some (e.length + 1) → Body quote next cs us →
      Body quote next ('\\' :: (e ++ cs)) (escapeUnits e ++ us)

/-- A character that no escape goes on with. -/
structure EndsEscape (c : Char) : Prop where
  hex : isHexDigit c = false
  octal : isOctalDigit c = false
  brace : c ≠ '\x7b' ∧ c ≠ '\x7d'
  line : isLineEnd c = false

variable {quote next c : Char}

theorem endsEscape_quote (h : quote ∈ quoteChars) : EndsEscape quote := by
  simp only [quoteChars, List.mem_cons, List.not_mem_nil, or_false] at h
  rcases h with rfl | rfl <;> exact ⟨by decide, by decide, by decide, by decide⟩

theorem endsEscape_backslash : EndsEscape '\\' := ⟨by decide, by decide, by decide, by decide⟩

theorem hexLength_append (h : isHexDigit c = false) (cs : List Char) : ∀ ds : List Char,
    hexLength (ds ++ c :: cs) = hexLength ds
  | [] => by simp [hexLength, h]
  | d :: ds => by
    have ih := hexLength_append h cs ds
    simp only [hexLength, List.cons_append, List.takeWhile_cons] at ih ⊢
    split
    · rw [List.length_cons, List.length_cons, ih]
    · rfl

theorem hexLength_le (ds : List Char) : hexLength ds ≤ ds.length := (List.takeWhile_sublist _).length_le

theorem unicodeTailLength?_next (h : EndsEscape c) (ds cs : List Char) :
    unicodeTailLength? (ds ++ c :: cs) = unicodeTailLength? (ds ++ [c]) := by
  cases ds with
  | nil => simp [unicodeTailLength?, h.brace, hexLength, h.hex]
  | cons d ds =>
    have hlength : ∀ cs, hexLength (d :: ds ++ c :: cs) = hexLength (d :: ds) := fun cs =>
      hexLength_append h.hex cs (d :: ds)
    by_cases hd : d = '\x7b'
    · subst hd
      have hhead :
          ∀ cs, ((ds ++ c :: cs).drop (hexLength ds)).head? = ((ds.drop (hexLength ds)) ++ [c]).head? :=
        fun cs => by
          rw [List.drop_append_of_le_length (hexLength_le ds)]
          cases ds.drop (hexLength ds) <;> rfl
      simp only [List.cons_append, unicodeTailLength?, hexLength_append h.hex, hhead]
    · simp only [List.cons_append] at hlength
      simp [unicodeTailLength?, hd, hlength]

/-- The first two digits do not depend on what stands behind a character that is no digit. -/
theorem takeWhile_take_two {digit : Char → Bool} (h : digit c = false) (ds cs : List Char) :
    ((ds ++ c :: cs).take 2).takeWhile digit = ((ds ++ [c]).take 2).takeWhile digit := by
  rcases ds with _ | ⟨a, _ | ⟨b, ds⟩⟩
  · simp [h]
  · rfl
  · rfl

/-- How long an escape is does not depend on what stands behind a character that ends it. -/
theorem escapeLength?_next (h : EndsEscape c) {e : List Char} (he : e ≠ []) (cs : List Char) :
    escapeLength? ('\\' :: (e ++ c :: cs)) = escapeLength? ('\\' :: (e ++ [c])) := by
  obtain ⟨d, ds, rfl⟩ := List.exists_cons_of_ne_nil he
  have hhex : hexLength ((ds ++ c :: cs).take 2) = hexLength ((ds ++ [c]).take 2) :=
    congrArg List.length (takeWhile_take_two h.hex ds cs)
  have hline : (ds ++ c :: cs).head?.map isLineEnd = (ds ++ [c]).head?.map isLineEnd := by cases ds <;> rfl
  simp only [List.cons_append]
  by_cases hx : d = 'x'
  · subst hx
    rw [escapeLength?, escapeLength?, hhex]
  by_cases hu : d = 'u'
  · subst hu
    rw [escapeLength?, escapeLength?, unicodeTailLength?_next h]
  · have hother : ∀ ds, escapeLength? ('\\' :: d :: ds) =
        if isOctalDigit d then some (2 + ((ds.take 2).takeWhile isOctalDigit).length)
        else if (d = '\r' || d = '?') && (ds.head?.map isLineEnd).getD false then some 3 else some 2 :=
          fun ds =>
      escapeLength?.eq_3 d ds (by simpa using hx) (by simpa using hu)
    rw [hother, hother, takeWhile_take_two h.octal, hline]

/-- An escape is more than its backslash. -/
theorem two_le_escapeLength {cs : List Char} {k : Nat} (h : escapeLength? cs = some k) : 2 ≤ k := by
  unfold escapeLength? at h
  split at h
  · split at h <;> cases h
    omega
  · obtain ⟨n, -, rfl⟩ := Option.map_eq_some_iff.mp h
    omega
  · split at h
    · cases h
      omega
    · split at h <;> cases h <;> omega
  · cases h

/-- An escape is read as long before whatever stands behind the character that follows. -/
theorem escapeLength?_of_next (hnext : EndsEscape next) {e cs : List Char}
    (h : escapeLength? ('\\' :: (e ++ (cs ++ [next]))) = some (e.length + 1)) (rest : List Char) :
    escapeLength? ('\\' :: (e ++ (cs ++ next :: rest))) = some (e.length + 1) := by
  have hne : e ++ cs ≠ [] := fun hnil => by
    have := two_le_escapeLength h
    rw [(List.append_eq_nil_iff.mp hnil).1, List.length_nil] at this
    omega
  rw [← List.append_assoc] at h ⊢
  rw [escapeLength?_next hnext hne, h]

/-- A row and another one that starts with the character after it are one row. -/
theorem Body.append {end' : Char} {cs tail : List Char} {us vs : List Nat} (hnext : EndsEscape next)
    (h : Body quote next cs us) (htail : Body quote end' (next :: tail) vs) :
    Body quote end' (cs ++ next :: tail) (us ++ vs) := by
  induction h with
  | nil => exact htail
  | plain hc _ ih =>
    rw [List.append_assoc]
    exact .plain hc ih
  | escape hlength _ ih =>
    rw [List.append_assoc, List.cons_append, List.append_assoc]
    refine .escape ?_ ih
    rw [List.append_assoc, List.cons_append]
    exact escapeLength?_of_next hnext hlength _

/-- A row is characters that stand for themselves up to its first escape. -/
theorem Body.exists_stretch {cs : List Char} {us : List Nat} (h : Body quote next cs us) :
    ∃ as bs vs, cs = as ++ bs ∧ us = units as ++ vs ∧ (∀ a ∈ as, isPlain quote a = true) ∧
      Body quote next bs vs ∧ ∀ b ∈ bs.head?, b = '\\' := by
  induction h with
  | nil => exact ⟨[], [], [], rfl, rfl, by simp, .nil, by simp⟩
  | @plain c cs us hc _ ih =>
    obtain ⟨as, bs, vs, rfl, rfl, has, hbs, hhead⟩ := ih
    exact ⟨c :: as, bs, vs, rfl,
      by rw [units, List.append_assoc], List.forall_mem_cons.mpr ⟨hc, has⟩, hbs, hhead⟩
  | escape hlength hcs _ => exact ⟨[], _, _, rfl, rfl, by simp, .escape hlength hcs, by simp⟩

/-! ### Pieces -/

/-- The pieces of a string that stand for some units, without a fault. -/
structure Pieces (ns : List Node) (us : List Nat) : Prop where
  units : ns.flatMap pieceUnits = us
  sound : Node.anyFault ns = false

theorem pieceUnits_token (token : String) (start stop : Place) (text : String) :
    pieceUnits (.leaf (.token token) start stop text) = [] := rfl

theorem Pieces.nil : Pieces [] [] := ⟨rfl, rfl⟩

theorem Pieces.cons {n : Node} {ns : List Node} {us vs : List Nat} (h : Pieces ns vs)
    (hn : pieceUnits n = us) (hsound : n.hasFault = false) : Pieces (n :: ns) (us ++ vs) :=
  ⟨by rw [List.flatMap_cons, hn, h.units], by simp [Node.anyFault, hsound, h.sound]⟩

/-! ### Reading strings -/

namespace Parser

variable {s : State} {Q : Bool → State → Prop}

theorem Ensures.stringStep_quote {cs : List Char} (hs : s.cursor.rest = quote :: cs) (hQ : Q false s) :
    Ensures (stringStep quote) s Q := by
  simpa [stringStep, hs] using hQ

theorem Ensures.stringStep_escape {e cs : List Char} (hquote : '\\' ≠ quote)
    (hlength : escapeLength? ('\\' :: (e ++ cs)) = some (e.length + 1))
    (hs : s.cursor.rest = '\\' :: (e ++ cs))
    (hQ : ∀ n t, pieceUnits n = escapeUnits e → n.hasFault = false → Moves s t cs (n :: s.made) → Q true t) :
    Ensures (stringStep quote) s Q := by
  have htake : Ensures (Parser.take (.named .escapeSequence) ('\\' :: e).length) s fun n t =>
      Q true { t with made := n :: t.made } := by
    have hs' : s.cursor.rest = ('\\' :: e) ++ cs := hs
    refine Ensures.take hs' rfl fun stop t ht => hQ _ _ ?_ rfl (ht.push _)
    simp [pieceUnits, Node.is, Node.leaf]
  simpa [stringStep, hs, hlength, hquote] using htake

/-- Characters that stand for themselves are taken up to the next one that does not. -/
theorem Ensures.stringStep_stretch {c : Char} {cs ds : List Char}
    (hcs : ∀ d ∈ c :: cs, isPlain quote d = true)
    (hds : ∀ d ∈ ds.head?, isPlain quote d = false) (hs : s.cursor.rest = (c :: cs) ++ ds)
    (hQ : ∀ n t, pieceUnits n = units (c :: cs) → n.hasFault = false → Moves s t ds (n :: s.made) →
      Q true t) :
    Ensures (stringStep quote) s Q := by
  have htake : Ensures (Parser.take (.named .stringFragment) (c :: cs).length) s fun n t =>
      Q true { t with made := n :: t.made } := by
    refine Ensures.take hs rfl fun stop t ht => hQ _ _ ?_ rfl (ht.push _)
    simp [pieceUnits, Node.is, Node.leaf]
  have hwhile : (c :: (cs ++ ds)).takeWhile (isPlain quote) = c :: cs := by
    have hstop : ds.takeWhile (isPlain quote) = [] := by
      cases ds with
      | nil => rfl
      | cons d ds => simp [hds d rfl]
    rw [← List.cons_append, List.takeWhile_append_of_pos hcs, hstop, List.append_nil]
  have hc := hcs c List.mem_cons_self
  rw [List.cons_append] at hs
  simp only [isPlain, Bool.and_eq_true, decide_eq_true_eq] at hc
  rw [stringStep, ensures_bind, ensures_rest, hs]
  simp only [if_neg hc.1.1.1, if_neg hc.1.1.2, hc.1.2, hc.2, decide_false, Bool.or_self, Bool.false_eq_true,
    if_false]
  show Ensures (do
    push (← Parser.take (.named .stringFragment) ((c :: (cs ++ ds)).takeWhile (isPlain quote)).length)
    pure true) s Q
  rw [hwhile]
  simpa using htake

/-- The rest of a string is read up to its closing quote, in pieces that stand for some units. -/
def ReadsBody (quote : Char) (s : State) (rest : List Char) (us : List Nat) : Prop :=
  ∃ t, Repeats (stringStep quote) s t ∧
    ∃ ns, Moves s t (quote :: rest) (ns.reverse ++ s.made) ∧ Pieces ns us

theorem ReadsBody.cons {mid rest : List Char} {us vs : List Nat}
    (hlt : mid.length < s.cursor.rest.length)
    (hstep : Ensures (stringStep quote) s fun b t => b = true ∧
      ∃ n, pieceUnits n = us ∧ n.hasFault = false ∧ Moves s t mid (n :: s.made))
    (hrest : ∀ t, t.cursor.rest = mid → ReadsBody quote t rest vs) : ReadsBody quote s rest (us ++ vs) := by
  refine Ensures.repeats_more (hstep.mono ?_)
  rintro b t ⟨rfl, n, hunits, hsound, ht⟩
  obtain ⟨u, hu, ns, hmoves, hns⟩ := hrest t ht.rest_eq
  have hmade : ns.reverse ++ t.made = (n :: ns).reverse ++ s.made := by simp [ht.made_eq]
  refine ⟨rfl, by rwa [ht.rest_eq], u, hu, n :: ns, ?_, hns.cons hunits hsound⟩
  exact hmade ▸ ht.trans hmoves

/-- The body of a string is read in pieces that stand for its units. -/
theorem readsBody_of_body (hquote : quote ∈ quoteChars) (rest : List Char) (n : Nat) :
    ∀ {cs : List Char} {us : List Nat} {s : State}, cs.length = n → Body quote quote cs us →
      s.cursor.rest = cs ++ quote :: rest → ReadsBody quote s rest us := by
  have hends := endsEscape_quote hquote
  have hne : '\\' ≠ quote := by
    rintro rfl
    exact absurd hquote (by decide)
  induction n using Nat.strongRecOn with
  | ind n ih =>
    intro cs us s hlen h hs
    obtain ⟨as, bs, vs, rfl, rfl, has, hbs, hhead⟩ := h.exists_stretch
    cases as with
    | cons a as =>
      rw [List.append_assoc] at hs
      rw [List.length_append, List.length_cons] at hlen
      have hstop : ∀ d ∈ (bs ++ quote :: rest).head?, isPlain quote d = false := by
        cases bs with
        | nil => simp [isPlain]
        | cons b bs =>
          obtain rfl := hhead b rfl
          simp [isPlain]
      refine ReadsBody.cons ?_ (Ensures.stringStep_stretch has hstop hs ?_) fun t ht =>
        ih bs.length (by omega) rfl hbs ht
      · simp only [hs, List.length_append, List.length_cons]
        omega
      · exact fun m t hunits hsound ht => ⟨rfl, m, hunits, hsound, ht⟩
    | nil =>
      cases hbs with
      | nil =>
        refine Ensures.repeats_stop (Ensures.stringStep_quote hs ⟨rfl, [], ?_, .nil⟩)
        exact ⟨hs, rfl, Nat.le_refl _⟩
      | plain hc _ =>
        obtain rfl := hhead _ rfl
        simp [isPlain] at hc
      | @escape e cs us hlength hcs =>
        rw [List.nil_append, List.length_cons, List.length_append] at hlen
        rw [List.nil_append, List.cons_append, List.append_assoc] at hs
        have hlength := escapeLength?_of_next hends hlength rest
        rw [show units [] ++ (escapeUnits e ++ us) = escapeUnits e ++ us from rfl]
        refine ReadsBody.cons ?_ (Ensures.stringStep_escape hne hlength hs ?_) fun t ht =>
          ih cs.length (by omega) rfl hcs ht
        · simp only [hs, List.length_append, List.length_cons]
          omega
        · exact fun m t hunits hsound ht => ⟨rfl, m, hunits, hsound, ht⟩

/-- A node of a kind over some children stands for a string. -/
structure IsString (text : String) (n : Node) : Prop where
  node : ∃ place children, n = build .string place children
  text : Literal.decodeString n = text
  sound : n.hasFault = false

/-- A string literal is read as a node that stands for the text of its units. -/
theorem Ensures.quoted {cs rest : List Char} {us : List Nat} {Q : Node → State → Prop}
    (hquote : quote ∈ quoteChars)
    (h : Body quote quote cs us) (hs : s.cursor.rest = quote :: (cs ++ quote :: rest))
    (hQ : ∀ n t, IsString (String.ofList (Text.Utf16.ofUnits us)) n → n.start = s.cursor.place →
      Moves s t rest s.made → Q n t) :
    Ensures string s Q := by
  suffices hread : Ensures (Parser.quoted quote) s Q by
    simp only [quoteChars, List.mem_cons, List.not_mem_nil, or_false] at hquote
    rcases hquote with rfl | rfl <;> simpa [Parser.string, hs] using hread
  refine Ensures.node ?_
  have hs' : s.cursor.rest = (String.singleton quote).toList ++ (cs ++ quote :: rest) := by
    rw [hs, String.toList_singleton]
    rfl
  rw [ensures_bind]
  refine Ensures.exactly (s := { s with made := [] }) hs' fun stop t ht => ?_
  rw [ensures_bind, ensures_push, ensures_bind]
  obtain ⟨u, hu, ns, hmoves, hns⟩ := readsBody_of_body hquote rest _ rfl h
    (s := { t with
      made := .leaf (.token (String.singleton quote)) s.cursor.place stop (String.singleton quote) ::
        t.made }) ht.rest_eq
  refine hu.ensures_loop ?_
  have hu' : u.cursor.rest = (String.singleton quote).toList ++ rest := by
    rw [hmoves.rest_eq, String.toList_singleton]
    rfl
  rw [ensures_bind]
  refine Ensures.exactly hu' fun stop' w hw => ?_
  rw [ensures_push]
  have hmade : w.made = ns.reverse ++
      [.leaf (.token (String.singleton quote)) s.cursor.place stop (String.singleton quote)] := by
    rw [hw.made_eq, hmoves.made_eq, ht.made_eq]
  have hbyte : s.cursor.place.byte ≤ w.cursor.place.byte :=
    Nat.le_trans ht.byte_le (Nat.le_trans hmoves.byte_le hw.byte_le)
  refine hQ _ _ ⟨⟨_, _, rfl⟩, ?_, ?_⟩ ?_ ⟨hw.rest_eq, rfl, hbyte⟩
  · simp [Literal.decodeString, build, hmade, pieceUnits_token, hns.units]
  · simp [hasFault_build, hmade, Node.anyFault, anyFault_append, hasFault_token, hns.sound]
  · simp [build, hmade, Node.leaf]

end Parser

end Source

end StoryManifest
