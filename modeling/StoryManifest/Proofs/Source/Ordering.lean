import StoryManifest.Proofs.Source.Running
import StoryManifest.Proofs.Source.Tidy
import StoryManifest.Source.Grammar.Rule

/-!
Parsers that keep nodes in order, and tidy. Three properties of a parser, each with one rule for each way
to put parsers together: it appends nothing, it reads a node, it appends nodes. The last two are relative to
nodes that were read and not appended yet: what the parser makes of them starts where they start.
-/

namespace StoryManifest.Source

/-- The byte where a parser is. -/
abbrev State.byte (s : State) : Nat := s.cursor.place.byte

theorem Cursor.byte_lt_advance {c : Cursor} {n : Nat} (hc : c.rest ≠ []) (hn : n ≠ 0) :
    c.place.byte < (c.advance n).place.byte := by
  obtain ⟨x, xs, hx⟩ := List.exists_cons_of_ne_nil hc
  obtain ⟨n, rfl⟩ := Nat.exists_eq_succ_of_ne_zero hn
  obtain ⟨rest, p⟩ := c
  subst hx
  have hstep : p.byte < (p.after x).byte := by
    unfold Place.after
    split <;> simp [Char.utf8Size_pos]
  exact Nat.lt_of_lt_of_le hstep (byte_le_advance n ⟨xs, p.after x⟩)

namespace Parser

variable {α β : Type}

/-! ### What a parser that succeeded did -/

theorem bind_eq_done {p : Parser α} {f : α → Parser β} {s u : State} {b : β} :
    (p >>= f) s = .done b u ↔ ∃ a t, p s = .done a t ∧ f a t = .done b u := by
  show andThen p f s = _ ↔ _
  cases h : p s <;> simp [andThen, h]

theorem pure_eq_done {a b : α} {s t : State} : (pure a : Parser α) s = .done b t ↔ b = a ∧ t = s := by
  show Outcome.done a s = .done b t ↔ _
  simp [eq_comm]

theorem require_eq_done {c : Bool} {u : Unit} {s t : State} :
    require c s = .done u t ↔ c = true ∧ t = s := by
  cases c <;> simp [require, pure_eq_done, fail]

theorem rest_eq_done {cs : List Char} {s t : State} : rest s = .done cs t ↔ cs = s.cursor.rest ∧ t = s := by
  simp [rest, eq_comm]

theorem push_eq_done {n : Node} {u : Unit} {s t : State} :
    push n s = .done u t ↔ t = { s with made := n :: s.made } := by
  simp [push, eq_comm]

theorem skip_eq_done {n : Nat} {u : Unit} {s t : State} :
    skip n s = .done u t ↔ t = { s with cursor := s.cursor.advance n } := by
  simp [skip, eq_comm]

theorem back_eq_done {start s t : State} {u : Unit} :
    back start s = .done u t ↔ t = { start with reach := s.reach } := by
  simp [back, eq_comm]

theorem nodeOf_eq_done {body : Parser Kind} {s t : State} {n : Node} (h : nodeOf body s = .done n t) :
    ∃ kind u, body { s with made := [] } = .done kind u ∧
      n = build kind s.cursor.place u.made.reverse ∧ t = { u with made := s.made } := by
  rw [nodeOf] at h
  cases hrun : body { s with made := [] } with
  | failed reach => rw [hrun] at h; cases h
  | done kind u =>
    rw [hrun] at h
    cases h
    exact ⟨kind, u, rfl, rfl, rfl⟩

theorem orElse_eq_done {p q : Parser α} {s t : State} {a : α} (h : orElse p q s = .done a t) :
    p s = .done a t ∨ ∃ reach, q { s with reach } = .done a t := by
  rw [orElse] at h
  cases hp : p s with
  | done b u => rw [hp] at h; exact .inl h
  | failed reach => rw [hp] at h; exact .inr ⟨_, h⟩

theorem attempt_eq_done {p : Parser α} {s t : State} {o : Option α} (h : attempt p s = .done o t) :
    (∃ a, o = some a ∧ p s = .done a t) ∨ o = none ∧ ∃ reach, t = { s with reach } := by
  rcases orElse_eq_done h with h | ⟨reach, h⟩
  · obtain ⟨a, u, hp, h⟩ := bind_eq_done.mp h
    obtain ⟨rfl, rfl⟩ := pure_eq_done.mp h
    exact .inl ⟨a, rfl, hp⟩
  · obtain ⟨rfl, rfl⟩ := pure_eq_done.mp h
    exact .inr ⟨rfl, reach, rfl⟩

/-- What each round of a loop brings about, the loop brings about, if it adds up. -/
theorem rel_loop {R : State → State → Prop} {p : Parser Bool} (htrans : ∀ s t u, R s t → R t u → R s u)
    (hp : ∀ s b t, p s = .done b t → R s t) {s t : State} {a : Unit} (h : loop p s = .done a t) : R s t := by
  -- The text bounds the rounds, so the induction is on it.
  have hrun : ∀ (text : List Char) {s t : State}, repeatOver text p s = .done a t → R s t := by
    intro text
    induction text with
    | nil =>
      intro s t h
      cases hb : p s with
      | failed reach => simp [repeatOver, hb] at h
      | done b u =>
        simp only [repeatOver, hb] at h
        cases h
        exact hp s b _ hb
    | cons c text ih =>
      intro s t h
      cases hb : p s with
      | failed reach => simp [repeatOver, hb] at h
      | done b u =>
        cases b with
        | false =>
          simp only [repeatOver, hb] at h
          cases h
          exact hp s _ _ hb
        | true =>
          simp only [repeatOver, hb] at h
          exact htrans s u t (hp s _ _ hb) (ih h)
  exact hrun _ h

/-! ### The properties -/

/-- The parser appends nothing. -/
def Keeps (p : Parser α) : Prop :=
  ∀ ⦃s a t⦄, p s = .done a t → t.made = s.made ∧ s.byte ≤ t.byte

/-- From a state, the parser reads a node that starts no earlier than nodes read before. -/
def ReadsAt (before : List Node) (p : Parser Node) (s : State) : Prop :=
  ∀ ⦃m n t⦄, Pending m before s.byte → p s = .done n t → t.made = s.made ∧ Pending m [n] t.byte

/-- From a state, the parser appends nodes, the first of which starts no earlier than nodes read
before. There is at least one when `some` says so. -/
def AppendsAt (before : List Node) (some : Bool) (p : Parser α) (s : State) : Prop :=
  ∀ ⦃m a t⦄, Pending m before s.byte → p s = .done a t →
    ∃ ns, t.made = ns.reverse ++ s.made ∧ Laid m ns t.byte ∧ (some = true → ns ≠ [])

/-- The parser may read a node that starts no earlier than nodes read before, or else leaves these. -/
def Offers (before : List Node) (p : Parser (Option Node)) : Prop :=
  ∀ ⦃s m o t⦄, Pending m before s.byte → p s = .done o t →
    t.made = s.made ∧ Pending m ((o.map fun n => [n]).getD before) t.byte

/-- The parser appends tokens and comments only. -/
def Trails (p : Parser α) : Prop := ∀ ⦃s a t⦄, p s = .done a t →
  ∃ ns : List Node, t.made = ns.reverse ++ s.made ∧ ∀ n ∈ ns, n.isPart = false

/-- What the parser returns passes a test. -/
def Returns (test : α → Bool) (p : Parser α) : Prop := ∀ ⦃s a t⦄, p s = .done a t → test a = true

/-- The parser reads a node, wherever it starts. -/
def Reads (before : List Node) (p : Parser Node) : Prop := ∀ s, ReadsAt before p s

/-- The parser appends nodes, wherever it starts. -/
def Appends (before : List Node) (some : Bool) (p : Parser α) : Prop := ∀ s, AppendsAt before some p s

section

variable {before : List Node} {g h : Bool} {p : Parser α} {f : α → Parser β}

/-! ### Appending nothing -/

theorem Keeps.pure (a : α) : Keeps (pure a : Parser α) := fun s b t hp => by
  obtain ⟨-, rfl⟩ := pure_eq_done.mp hp
  exact ⟨rfl, Nat.le_refl _⟩

theorem Keeps.rest : Keeps rest := fun s cs t hp => by
  obtain ⟨-, rfl⟩ := rest_eq_done.mp hp
  exact ⟨rfl, Nat.le_refl _⟩

theorem Keeps.require (c : Bool) : Keeps (require c) := fun s u t hp => by
  obtain ⟨-, rfl⟩ := require_eq_done.mp hp
  exact ⟨rfl, Nat.le_refl _⟩

theorem Keeps.skip (n : Nat) : Keeps (skip n) := fun s u t hp => by
  obtain rfl := skip_eq_done.mp hp
  exact ⟨rfl, Cursor.byte_le_advance n s.cursor⟩

theorem Keeps.take (label : Label) (n : Nat) : Keeps (take label n) := fun s m t hp => by
  cases hp
  exact ⟨rfl, Cursor.byte_le_advance n s.cursor⟩

theorem Keeps.bind (hp : Keeps p) (hf : ∀ a, Keeps (f a)) : Keeps (p >>= f) := fun s b u h => by
  obtain ⟨a, t, ha, hb⟩ := bind_eq_done.mp h
  obtain ⟨hmade, hbyte⟩ := hp ha
  obtain ⟨hmade', hbyte'⟩ := hf a hb
  exact ⟨hmade'.trans hmade, Nat.le_trans hbyte hbyte'⟩

/-- The rest of the text is looked at only. -/
theorem Keeps.ahead : Keeps ahead := .bind .rest fun _ => .pure _

theorem Keeps.sees {text : String} : Keeps (sees text) := .bind .ahead fun _ => .pure _

/-! ### What is returned -/

theorem Returns.pure {test : α → Bool} {a : α} (h : test a = true) : Returns test (pure a) :=
  fun s b t hp => by
    obtain ⟨rfl, -⟩ := pure_eq_done.mp hp
    exact h

theorem Returns.bind {test : β → Bool} (hf : ∀ a, Returns test (f a)) : Returns test (p >>= f) :=
  fun s b t h => by
    obtain ⟨a, u, -, hb⟩ := bind_eq_done.mp h
    exact hf a hb

theorem Returns.ite {test : α → Bool} {c : Prop} [Decidable c] {p q : Parser α} (hp : Returns test p)
    (hq : Returns test q) : Returns test (if c then p else q) := by
  split
  · exact hp
  · exact hq

theorem Returns.take {test : Node → Bool} {label : Label} {n : Nat}
    (h : ∀ start stop text, test (.leaf label start stop text) = true) : Returns test (take label n) :=
  fun s m t hp => by
    cases hp
    exact h ..

/-! ### Reading a node -/

theorem ReadsAt.bind_rest {f : List Char → Parser Node} {s : State}
    (h : ReadsAt before (f s.cursor.rest) s) : ReadsAt before (Parser.rest >>= f) s :=
  fun m n u hs hrun => by
    obtain ⟨cs, t, hcs, hn⟩ := bind_eq_done.mp hrun
    obtain ⟨rfl, rfl⟩ := rest_eq_done.mp hcs
    exact h hs hn

theorem ReadsAt.bind_here {f : State → Parser Node} {s : State} (h : ReadsAt before (f s) s) :
    ReadsAt before (here >>= f) s := fun m n u hs hrun => by
  obtain ⟨start, t, hstart, hn⟩ := bind_eq_done.mp hrun
  cases hstart
  exact h hs hn

theorem ReadsAt.require {c : Bool} {q : Parser Node} {s : State} (h : c = true → ReadsAt before q s) :
    ReadsAt before (Parser.require c >>= fun _ => q) s := fun m n u hs hrun => by
  obtain ⟨_, t, hrequire, hn⟩ := bind_eq_done.mp hrun
  obtain ⟨hc, rfl⟩ := require_eq_done.mp hrequire
  exact h hc hs hn

theorem Reads.pure {n : Node} : Reads [n] (pure n) := fun s a l t hs hp => by
  obtain ⟨rfl, rfl⟩ := pure_eq_done.mp hp
  exact ⟨rfl, hs⟩

/-- A node that was read may be given another ordinary label. -/
theorem Reads.pureAs {n : Node} {label : Label} (hlabel : label.isOrdinary = true) :
    Reads [n] (Pure.pure { n with label }) :=
  fun s a l t hs hp => by
    obtain ⟨rfl, rfl⟩ := pure_eq_done.mp hp
    exact ⟨rfl, hs.relabel hlabel⟩

theorem Reads.fail : Reads before fail := fun _ _ _ _ _ hp => by cases hp

theorem Reads.look {f : α → Parser Node} (hp : Keeps p) (hf : ∀ a, Reads before (f a)) :
    Reads before (p >>= f) := fun s m n u hs h => by
  obtain ⟨a, t, ha, hn⟩ := bind_eq_done.mp h
  obtain ⟨hmade, hbyte⟩ := hp ha
  obtain ⟨hmade', hn⟩ := hf a t (hs.mono (Nat.le_refl _) hbyte) hn
  exact ⟨hmade'.trans hmade, hn⟩

theorem Reads.bind {p : Parser Node} {f : Node → Parser Node} (hp : Reads before p)
    (hf : ∀ n, Reads [n] (f n)) : Reads before (p >>= f) := fun s m n u hs h => by
  obtain ⟨a, t, ha, hn⟩ := bind_eq_done.mp h
  obtain ⟨hmade, ha⟩ := hp s hs ha
  obtain ⟨hmade', hn⟩ := hf a t ha hn
  exact ⟨hmade'.trans hmade, hn⟩

theorem Reads.ite {c : Prop} [Decidable c] {p q : Parser Node} (hp : c → Reads before p)
    (hq : ¬c → Reads before q) : Reads before (if c then p else q) := by
  split
  · exact hp ‹_›
  · exact hq ‹_›

theorem Reads.orElse {p q : Parser Node} (hp : Reads before p) (hq : Reads before q) :
    Reads before (orElse p q) := fun s m n t hs h => by
  rcases orElse_eq_done h with h | ⟨reach, h⟩
  · exact hp s hs h
  · exact hq { s with reach } hs h

/-- A leaf over at least one character covers at least one byte. -/
theorem ReadsAt.take {label : Label} {count : Nat} {s : State} (hrest : s.cursor.rest ≠ [])
    (hcount : count ≠ 0) (hlabel : label.isOrdinary = true) :
    ReadsAt before (take label count) s := fun m n t hs h => by
  cases h
  have hlt := Cursor.byte_lt_advance hrest hcount
  refine ⟨rfl, .leaf hs.le hlt (Nat.le_refl _) label, ?_⟩
  simpa using is_eq_false_of_isOrdinary (n := .leaf label _ _ _) hlabel rfl

/-- A node over what its body appends, of an ordinary kind. -/
theorem Reads.nodeOf {body : Parser Kind} (hbody : Appends before true body)
    (hkind : Returns (Label.isOrdinary <| .named ·) body) : Reads before (nodeOf body) :=
  fun s m n t hs h => by
    obtain ⟨kind, u, hrun, rfl, rfl⟩ := nodeOf_eq_done h
    obtain ⟨ns, hmade, hns, hne⟩ := hbody { s with made := [] } hs hrun
    have hordinary := hkind hrun
    rw [List.append_nil] at hmade
    refine ⟨rfl, ?_⟩
    rw [hmade, List.reverse_reverse]
    refine .build hns (hne rfl) s.cursor.place ?_ ?_
    · rintro rfl
      cases hordinary
    · rintro rfl
      cases hordinary

/-! ### Perhaps reading a node -/

theorem Offers.nothing : Offers before (pure none) := fun s m o t hs h => by
  obtain ⟨rfl, rfl⟩ := pure_eq_done.mp h
  exact ⟨rfl, hs⟩

theorem Offers.read {p : Parser Node} (hp : Reads before p) :
    Offers before (p >>= fun n => pure (some n)) := fun s m o t hs h => by
  obtain ⟨n, u, hn, ho⟩ := bind_eq_done.mp h
  obtain ⟨rfl, rfl⟩ := pure_eq_done.mp ho
  exact hp s hs hn

theorem Offers.look {f : α → Parser (Option Node)} (hp : Keeps p) (hf : ∀ a, Offers before (f a)) :
    Offers before (p >>= f) := fun s m o u hs h => by
  obtain ⟨a, t, ha, ho⟩ := bind_eq_done.mp h
  obtain ⟨hmade, hbyte⟩ := hp ha
  obtain ⟨hmade', ho⟩ := hf a (hs.mono (Nat.le_refl _) hbyte) ho
  exact ⟨hmade'.trans hmade, ho⟩

theorem Offers.ite {c : Prop} [Decidable c] {p q : Parser (Option Node)} (hp : c → Offers before p)
    (hq : ¬c → Offers before q) : Offers before (if c then p else q) := by
  split
  · exact hp ‹_›
  · exact hq ‹_›

/-- What a parser reads if it fits, and else what comes of reading the same text again. -/
theorem Offers.attempt {p : Parser Node} {f : Option Node → Parser (Option Node)} (hp : Reads before p)
    (hsome : ∀ n, f (some n) = pure (some n)) (hnone : Offers before (f none)) :
    Offers before (attempt p >>= f) := fun s m o u hs h => by
  obtain ⟨a, t, ha, ho⟩ := bind_eq_done.mp h
  rcases attempt_eq_done ha with ⟨n, rfl, hn⟩ | ⟨rfl, reach, rfl⟩
  · rw [hsome] at ho
    obtain ⟨rfl, rfl⟩ := pure_eq_done.mp ho
    exact hp s hs hn
  · exact hnone (s := { s with reach }) hs ho

/-- A node that is rewritten for as long as a step offers another one. -/
theorem Reads.iterate {step : Node → Parser (Option Node)} (hstep : ∀ n, Offers [n] (step n)) (n : Node) :
    Reads [n] (iterate step n) := by
  -- The text bounds the rounds, so the induction is on it; a round goes on from the node of the last one.
  have hrun : ∀ (text : List Char) {n k : Node} {m : Nat} {s t : State}, Pending m [n] s.byte →
      iterateOver step text n s = .done k t → t.made = s.made ∧ Pending m [k] t.byte := by
    intro text
    induction text with
    | nil =>
      intro n k m s t hn h
      cases hb : step n s with
      | failed reach => simp [iterateOver, hb] at h
      | done o u =>
        simp only [iterateOver, hb] at h
        cases h
        obtain ⟨hmade, ho⟩ := hstep n hn hb
        cases o <;> exact ⟨hmade, ho⟩
    | cons c text ih =>
      intro n k m s t hn h
      cases hb : step n s with
      | failed reach => simp [iterateOver, hb] at h
      | done o u =>
        obtain ⟨hmade, ho⟩ := hstep n hn hb
        cases o with
        | none =>
          simp only [iterateOver, hb] at h
          cases h
          exact ⟨hmade, ho⟩
        | some l =>
          simp only [iterateOver, hb] at h
          obtain ⟨hmade', hk⟩ := ih ho h
          exact ⟨hmade'.trans hmade, hk⟩
  exact fun s m k t hs h => hrun _ hs h

/-! ### Appending nodes -/

theorem AppendsAt.of {s : State} (hp : AppendsAt before g p s) (hgh : h ≤ g) :
    AppendsAt before h p s := fun m a t hs ha => by
  obtain ⟨ns, hmade, hns, hne⟩ := hp hs ha
  refine ⟨ns, hmade, hns, fun hh => hne ?_⟩
  subst hh
  exact hgh rfl

theorem Appends.of (hp : Appends before g p) (hgh : g = h) : Appends before h p := hgh ▸ hp

theorem Appends.of_le (hp : Appends before g p) (hgh : h ≤ g) : Appends before h p := fun s =>
  (hp s).of hgh

theorem Appends.relax (hp : Appends before g p) : Appends before false p := hp.of_le (Bool.false_le g)

theorem Keeps.appends (hp : Keeps p) : Appends before false p := fun s m a t hs ha => by
  obtain ⟨hmade, hbyte⟩ := hp ha
  exact ⟨[], hmade, .nil (Nat.le_trans hs.le hbyte), by simp⟩

theorem Appends.pure (a : α) : Appends before false (pure a : Parser α) := (Keeps.pure a).appends

theorem Appends.fail : Appends before true (fail : Parser α) := fun _ _ _ _ _ hp => by cases hp

theorem Appends.push {n : Node} : Appends [n] true (push n) := fun s a u t hs hp => by
  obtain rfl := push_eq_done.mp hp
  exact ⟨[n], rfl, hs.toLaid, by simp⟩

/-- In whatever role a node is appended, it covers the same. -/
theorem Appends.pushAs {n : Node} {role : Role} : Appends [n] true (Parser.push (n.inRole role)) :=
  fun s a u t hs hp => by
    obtain rfl := push_eq_done.mp hp
    exact ⟨[n.inRole role], rfl, hs.inRole role, by simp⟩

theorem AppendsAt.bind_rest {f : List Char → Parser α} {s : State}
    (h : AppendsAt before g (f s.cursor.rest) s) : AppendsAt before g (Parser.rest >>= f) s :=
  fun m n u hs hrun => by
    obtain ⟨cs, t, hcs, hn⟩ := bind_eq_done.mp hrun
    obtain ⟨rfl, rfl⟩ := rest_eq_done.mp hcs
    exact h hs hn

theorem AppendsAt.require {c : Bool} {q : Parser α} {s : State} (h : c = true → AppendsAt before g q s) :
    AppendsAt before g (Parser.require c >>= fun _ => q) s := fun m n u hs hrun => by
  obtain ⟨_, t, hrequire, hn⟩ := bind_eq_done.mp hrun
  obtain ⟨hc, rfl⟩ := require_eq_done.mp hrequire
  exact h hc hs hn

theorem AppendsAt.skip {k : Nat} {q : Parser α} {s : State}
    (h : AppendsAt before g q { s with cursor := s.cursor.advance k }) :
    AppendsAt before g (Parser.skip k >>= fun _ => q) s := fun m n u hs hrun => by
  obtain ⟨_, t, hk, hn⟩ := bind_eq_done.mp hrun
  obtain rfl := skip_eq_done.mp hk
  exact h (hs.mono (Nat.le_refl _) (Cursor.byte_le_advance k s.cursor)) hn

theorem AppendsAt.read {p : Parser Node} {f : Node → Parser β} {s : State} (hp : ReadsAt before p s)
    (hf : ∀ n, Appends [n] g (f n)) : AppendsAt before g (p >>= f) s := fun m b u hs h => by
  obtain ⟨n, t, hn, hb⟩ := bind_eq_done.mp h
  obtain ⟨hmade, hn⟩ := hp hs hn
  obtain ⟨ns, hmade', hns⟩ := hf n t hn hb
  exact ⟨ns, by rw [hmade', hmade], hns⟩

theorem Appends.read {p : Parser Node} {f : Node → Parser β} (hp : Reads before p)
    (hf : ∀ n, Appends [n] g (f n)) : Appends before g (p >>= f) := fun s => AppendsAt.read (hp s) hf

theorem Appends.look (hp : Keeps p) (hf : ∀ a, Appends before g (f a)) : Appends before g (p >>= f) :=
  fun s m b u hs h => by
    obtain ⟨a, t, ha, hb⟩ := bind_eq_done.mp h
    obtain ⟨hmade, hbyte⟩ := hp ha
    obtain ⟨ns, hmade', hns⟩ := hf a t (hs.mono (Nat.le_refl _) hbyte) hb
    exact ⟨ns, by rw [hmade', hmade], hns⟩

theorem Appends.bind (hp : Appends before g p) (hf : ∀ a, Appends [] h (f a)) :
    Appends before (g || h) (p >>= f) := fun s m b u hs hrun => by
  obtain ⟨a, t, ha, hb⟩ := bind_eq_done.mp hrun
  obtain ⟨ns, hmade, hns, hne⟩ := hp s hs ha
  obtain ⟨ns', hmade', hns', hne'⟩ := hf a t (.nil (Nat.le_refl _)) hb
  refine ⟨ns ++ ns', by rw [hmade', hmade]; simp, hns.append hns', ?_⟩
  cases g <;> cases h <;> simp_all

theorem Appends.ite {c : Prop} [Decidable c] {p q : Parser α} (hp : c → Appends before g p)
    (hq : ¬c → Appends before h q) : Appends before (g && h) (if c then p else q) := by
  split
  · exact (hp ‹_›).of_le (by cases g <;> cases h <;> decide)
  · exact (hq ‹_›).of_le (by cases g <;> cases h <;> decide)

/-- What comes after a choice is common to both of its ways. -/
theorem Appends.join {q : Parser β} (hp : Appends [] h q → Appends [] g p) (hq : Appends [] h q) :
    Appends [] g p := hp hq

/-- What comes after a conditional part is common to both ways. -/
theorem Appends.joinIf {c : Prop} [Decidable c] {p q : Parser α} (hp : Appends [] h q → Appends [] g p)
    (hq : Appends [] h q) : Appends [] (g && h) (if c then p else q) :=
  .ite (fun _ => hp hq) fun _ => hq

theorem Appends.orElse {p q : Parser α} (hp : Appends before g p) (hq : Appends before h q) :
    Appends before (g && h) (orElse p q) := fun s m a t hs hrun => by
  rcases orElse_eq_done hrun with hrun | ⟨reach, hrun⟩
  · exact (hp s).of (by cases g <;> cases h <;> decide) hs hrun
  · exact (hq { s with reach }).of (by cases g <;> cases h <;> decide) hs hrun

theorem Appends.optional {p : Parser Unit} (hp : Appends before g p) : Appends before false (optional p) :=
  (hp.orElse (.pure ())).of (by cases g <;> decide)

theorem Appends.loop {p : Parser Bool} (hp : Appends [] g p) : Appends before false (loop p) := by
  intro s m a t hs h
  -- What each round appends stands behind what the rounds before it did.
  obtain ⟨ns, hmade, hns⟩ := rel_loop
    (R := fun s t => ∃ ns, t.made = ns.reverse ++ s.made ∧ Laid s.byte ns t.byte)
    (fun s t u => by
      rintro ⟨ns, hmade, hns⟩ ⟨ns', hmade', hns'⟩
      exact ⟨ns ++ ns', by rw [hmade', hmade]; simp, hns.append hns'⟩)
    (fun s b t hrun => by
      obtain ⟨ns, hmade, hns, -⟩ := hp s (.nil (Nat.le_refl _)) hrun
      exact ⟨ns, hmade, hns⟩) h
  exact ⟨ns, hmade, hns.mono hs.le, by simp⟩

/-! ### Appending tokens and comments -/

theorem Keeps.trails (hp : Keeps p) : Trails p := fun s a t h => ⟨[], (hp h).1, by simp⟩

theorem Trails.read {f : α → Parser β} {test : α → Bool} (hp : Keeps p) (hreturns : Returns test p)
    (hf : ∀ a, test a = true → Trails (f a)) : Trails (p >>= f) := fun s b u h => by
  obtain ⟨a, t, ha, hb⟩ := bind_eq_done.mp h
  obtain ⟨ns, hmade, hns⟩ := hf a (hreturns ha) hb
  exact ⟨ns, by rw [hmade, (hp ha).1], hns⟩

theorem Trails.look (hp : Keeps p) (hf : ∀ a, Trails (f a)) : Trails (p >>= f) :=
  .read hp (fun _ _ _ _ => rfl : Returns (fun _ => true) p) fun a _ => hf a

theorem Trails.ite {c : Prop} [Decidable c] {p q : Parser α} (hp : Trails p) (hq : Trails q) :
    Trails (if c then p else q) := by
  split
  · exact hp
  · exact hq

theorem Trails.push {n : Node} {q : Parser α} (hn : (!n.isPart) = true) (hq : Keeps q) :
    Trails (Parser.push n >>= fun _ => q) := fun s a t h => by
  obtain ⟨_, u, hpush, h⟩ := bind_eq_done.mp h
  obtain rfl := push_eq_done.mp hpush
  exact ⟨[n], (hq h).1, by simpa using hn⟩

theorem Trails.loop {p : Parser Bool} (hp : Trails p) : Trails (Parser.loop p) := fun s a t h => by
  refine rel_loop (R := fun s t : State => ∃ ns : List Node, t.made = ns.reverse ++ s.made ∧
    ∀ n ∈ ns, n.isPart = false) (fun s t u => ?_) (fun s b t hrun => hp hrun) h
  rintro ⟨ns, hmade, hns⟩ ⟨ns', hmade', hns'⟩
  refine ⟨ns ++ ns', by rw [hmade', hmade]; simp, fun n hn => ?_⟩
  exact (List.mem_append.mp hn).elim (hns n) (hns' n)

/-! ### Nodes -/

/-- A node of an ordinary kind over what its body appends, which is something. -/
theorem Reads.node {kind : Kind} {body : Parser Unit} (hbody : Appends before g body)
    (h : (g && (Label.named kind).isOrdinary) = true) : Reads before (node kind body) := by
  obtain ⟨hg, hkind⟩ := Bool.and_eq_true_iff.mp h
  exact .nodeOf ((hbody.of hg).bind fun _ => .pure kind) (.bind fun _ => .pure hkind)

/-- An expression statement over what was read and what tokens and comments trail it. -/
theorem Reads.statement {p : Parser Node} {q : Parser Unit} (hp : Reads [] p) (hq : Appends [] g q)
    (htrails : Trails q) : Reads [] (Parser.node .expressionStatement do Parser.push (← p); q) :=
      fun s m n t hs h => by
  obtain ⟨kind, u, hrun, rfl, rfl⟩ := nodeOf_eq_done h
  obtain ⟨_, w, hbody, hkind⟩ := bind_eq_done.mp hrun
  obtain ⟨rfl, rfl⟩ := pure_eq_done.mp hkind
  obtain ⟨c, x, hread, hrest⟩ := bind_eq_done.mp hbody
  obtain ⟨_, y, hpush, hrest⟩ := bind_eq_done.mp hrest
  obtain rfl := push_eq_done.mp hpush
  obtain ⟨hmade, hc⟩ := hp { s with made := [] } hs hread
  obtain ⟨ns, hmade', hns, -⟩ := hq _ (.nil (Nat.le_refl _)) hrest
  obtain ⟨ns', hmade'', htrail⟩ := htrails hrest
  obtain rfl : ns' = ns := List.reverse_inj.mp (List.append_cancel_right (hmade''.symm.trans hmade'))
  have hchildren : u.made.reverse = c :: ns' := by rw [hmade', hmade]; simp
  refine ⟨rfl, ?_⟩
  rw [hchildren]
  refine .build (hc.toLaid.append hns) (by simp) s.cursor.place (by decide) fun _ => ?_
  rintro _ _ ⟨⟩
  exact ⟨hc.noComment _ (by simp), htrail⟩

/-- The children of a node are in order, even if there are none. -/
theorem Appends.children {kind : Kind} {body : Parser Unit} {s t : State} {n : Node}
    (hbody : Appends [] g body) (h : node kind body s = .done n t) : Laid s.byte n.children t.byte := by
  obtain ⟨kind', u, hrun, rfl, rfl⟩ := nodeOf_eq_done h
  have hkind : Appends [] (g || false) (body >>= fun _ => Pure.pure kind) := hbody.bind fun _ => .pure kind
  obtain ⟨ns, hmade, hns, -⟩ := hkind { s with made := [] } (.nil (Nat.le_refl _)) hrun
  rw [List.append_nil] at hmade
  rw [hmade, List.reverse_reverse]
  exact hns

end

/-! ### What stands between tokens -/

theorem of_commentLength? {cs : List Char} {n : Nat} (h : commentLength? cs = some n) : cs ≠ [] ∧ n ≠ 0 := by
  unfold commentLength? at h
  split at h
  · cases h; simp
  · obtain ⟨k, -, rfl⟩ := Option.map_eq_some_iff.mp h
    simp
  · cases h

theorem of_htmlCommentLength? {cs : List Char} {n : Nat} (h : htmlCommentLength? cs = some n) :
    cs ≠ [] ∧ n ≠ 0 := by
  unfold htmlCommentLength? at h
  split at h <;> cases h <;> simp

/-- A leaf is appended, be it a comment or a piece of a string. -/
theorem AppendsAt.piece {s : State} {kind : Kind} {n : Nat} (hrest : s.cursor.rest ≠ []) (hn : n ≠ 0) :
    AppendsAt [] false (do push (← take (.named kind) n); pure true : Parser Bool) s :=
  fun m a t hs h => by
    obtain ⟨leaf, u, htake, h⟩ := bind_eq_done.mp h
    obtain ⟨_, w, hpush, h⟩ := bind_eq_done.mp h
    obtain ⟨rfl, rfl⟩ := pure_eq_done.mp h
    obtain rfl := push_eq_done.mp hpush
    cases htake
    exact ⟨[_], rfl, .leaf hs.le (Cursor.byte_lt_advance hrest hn) (Nat.le_refl _) _, by simp⟩

theorem appends_gapStep (html : Bool) : Appends [] false (gapStep html) := fun s => by
  refine .bind_rest ?_
  dsimp only
  split
  · rename_i length hlength
    have hcomment : htmlCommentLength?
        (s.cursor.rest.drop (s.cursor.rest.takeWhile isHtmlBlank).length) = some length := by
      split at hlength
      · exact hlength
      · cases hlength
    obtain ⟨hrest, hpos⟩ := of_htmlCommentLength? hcomment
    exact .skip (.piece (by rw [Cursor.rest_advance]; exact hrest) hpos)
  · refine .skip (.bind_rest ?_)
    split
    · rename_i length hlength
      obtain ⟨hrest, hpos⟩ := of_commentLength? hlength
      exact .piece hrest hpos
    · exact Appends.pure false _

theorem appends_gap : Appends [] false gap := .loop (appends_gapStep false)

theorem appends_wideGap : Appends [] false wideGap := .loop (appends_gapStep true)

section

variable {before : List Node} {p : Parser Node} {text : String}

theorem appends_add (hp : Reads [] p) : Appends [] true (add p) :=
  (appends_wideGap.bind fun _ => .read hp fun _ => .push).of rfl

theorem appends_field (role : Role) (hp : Reads [] p) : Appends [] true (field role p) :=
  (appends_wideGap.bind fun _ => .read hp fun _ => .pushAs).of rfl

theorem reads_exactly (htext : text.isEmpty = false) : Reads [] (exactly text) := fun s =>
  .bind_rest <| .require fun hprefix => by
    have hne : text ≠ "" := String.isEmpty_eq_false_iff.mp htext
    refine .take (fun hrest => hne ?_) (by simpa using hne) rfl
    simpa [hrest] using hprefix

theorem appends_mark (htext : text.isEmpty = false) : Appends [] true (mark text) :=
  (appends_gap.bind fun _ => .read (reads_exactly htext) fun _ => .push).of rfl

/-! ### The end of a statement -/

theorem appends_semicolonStep (v : Variant) (afterOperand signature : Bool) :
    Appends [] false (semicolonStep v afterOperand signature) := fun s => by
  refine .bind_rest ?_
  split
  · exact Appends.pure false s
  · refine .bind_rest (.skip (.bind_rest ?_))
    split
    · rename_i length hlength
      obtain ⟨hrest, hpos⟩ := of_commentLength? hlength
      exact .piece hrest hpos
    · exact Appends.relax (.read (reads_exactly rfl) fun _ => .bind .push fun _ => .pure false) _

theorem trails_semicolonStep (v : Variant) (afterOperand signature : Bool) :
    Trails (semicolonStep v afterOperand signature) := by
  refine .look .rest fun cs => .ite (Keeps.pure false).trails (.look .rest fun cs => .look (.skip _) fun _ =>
    .look .rest fun cs => ?_)
  split
  · exact .read (.take _ _) (Returns.take fun _ _ _ => rfl) fun n hn => .push hn (Keeps.pure true)
  · refine .read ?_ ?_ fun n hn => .push hn (Keeps.pure false)
    · exact .bind .rest fun _ => .bind (.require _) fun _ => .take _ _
    · exact .bind fun _ => .bind fun _ => Returns.take fun _ _ _ => rfl

theorem trails_semicolon (v : Variant) (afterOperand : Bool) : Trails (semicolon v afterOperand) :=
  .loop (trails_semicolonStep v afterOperand false)

theorem appends_semicolon (v : Variant) (afterOperand : Bool) :
    Appends [] false (semicolon v afterOperand) :=
  .loop (appends_semicolonStep v afterOperand false)

theorem appends_softEnd (v : Variant) (afterOperand : Bool) : Appends [] false (softEnd v afterOperand) :=
  .look .rest fun _ => (Appends.ite
    (fun _ => .loop (.look .rest fun _ => .ite (fun _ => .pure false) fun _ => appends_gapStep false))
    fun _ => .pure ()).of rfl

/-! ### Words and numbers -/

theorem wordOf_nil : wordOf [] = "" := rfl

theorem rest_ne_nil_of_wordLength {cs : List Char} (h : wordLength cs ≠ 0) : cs ≠ [] := by
  rintro rfl
  exact h rfl

theorem reads_word {kind : Kind} (hkind : (Label.named kind).isOrdinary = true) :
    Reads [] (word kind) := fun s =>
  .bind_rest <| .require fun hlength => by
    have hne : wordLength s.cursor.rest ≠ 0 := by simpa using hlength
    exact .take (rest_ne_nil_of_wordLength hne) hne hkind

theorem reads_privateName : Reads [] privateName := fun s => by
  refine .bind_rest ?_
  split
  · rename_i cs heq
    exact .require fun _ => .take (by simp [heq]) (by omega) rfl
  · exact Reads.fail s

theorem isEmpty_of_mem {ws : List String} (hws : "" ∉ ws) (h : text ∈ ws) : text.isEmpty = false :=
  String.isEmpty_eq_false_iff.mpr fun hempty => hws (hempty ▸ h)

theorem reads_keywordToken (htext : text.isEmpty = false) : Reads [] (keywordToken text) := fun s =>
  .bind_rest <| .require fun hword => by
    have hne : text ≠ "" := String.isEmpty_eq_false_iff.mp htext
    refine .take (fun hrest => hne ?_) (by simpa using hne) rfl
    simpa [hrest, wordOf_nil] using hword.symm

theorem appends_keyword (htext : text.isEmpty = false) : Appends [] true (keyword text) :=
  (appends_gap.bind fun _ => .read (reads_keywordToken htext) fun _ => .push).of rfl

/-- The keyword may be a word that stands ahead. -/
theorem appends_keywordOf (hne : text ≠ "") : Appends [] true (keyword text) :=
  appends_keyword (String.isEmpty_eq_false_iff.mpr hne)

theorem keeps_seesWord : Keeps (seesWord text) := .bind .ahead fun _ => .pure _

theorem reads_number : Reads [] number := fun s =>
  .bind_rest <| .require fun hlength => by
    have hne : numberLength s.cursor.rest ≠ 0 := by simpa using hlength
    refine .take (fun hrest => hne ?_) hne rfl
    rw [hrest]
    rfl

end

theorem reads_regex : Reads [] regex := fun s => by
  refine .bind_rest ?_
  split
  · rename_i length hlength
    unfold regexLength? at hlength
    split at hlength
    · rename_i rest heq
      split at hlength <;> cases hlength
      exact .take (by simp [heq]) (by omega) rfl
    · cases hlength
  · exact Reads.fail s

/-! ### Strings and templates -/

theorem of_escapeLength? {cs : List Char} {n : Nat} (h : escapeLength? cs = some n) : cs ≠ [] ∧ n ≠ 0 := by
  unfold escapeLength? at h
  split at h
  · split at h <;> cases h
    simp
  · obtain ⟨k, -, rfl⟩ := Option.map_eq_some_iff.mp h
    simp
  · refine ⟨by simp, ?_⟩
    split at h
    · cases h; omega
    · split at h <;> cases h <;> decide
  · cases h

theorem length_takeWhile_ne_zero {c : Char} {cs : List Char} {test : Char → Bool} (h : test c = true) :
    ((c :: cs).takeWhile test).length ≠ 0 := by simp [h]

theorem appends_stringStep (quote : Char) : Appends [] false (stringStep quote) := fun s => by
  refine .bind_rest ?_
  split
  · exact Appends.fail.relax s
  · rename_i c cs heq
    split
    · exact Appends.pure false s
    · rename_i hquote
      split
      · split
        · rename_i length hlength
          obtain ⟨hrest, hpos⟩ := of_escapeLength? hlength
          exact .piece (heq ▸ hrest) hpos
        · exact Appends.fail.relax s
      · rename_i hslash
        split
        · exact appends_gapStep false s
        · rename_i hline
          simp only [Bool.or_eq_true, decide_eq_true_eq, not_or] at hline
          refine .piece (by simp [heq]) ?_
          rw [heq]
          exact length_takeWhile_ne_zero (by simp [hquote, hslash, hline])

theorem isEmpty_singleton (c : Char) : (String.singleton c).isEmpty = false :=
  String.isEmpty_eq_false_iff.mpr fun h => by simpa using congrArg String.toList h

theorem reads_string : Reads [] string := by
  have hquoted : ∀ quote, Reads [] (quoted quote) := fun quote =>
    .node (.read (reads_exactly (isEmpty_singleton quote)) fun _ => .bind .push fun _ =>
      .bind (.loop (appends_stringStep quote)) fun _ =>
        .read (reads_exactly (isEmpty_singleton quote)) fun _ => .push) rfl
  refine .look .rest fun cs => ?_
  split
  · exact hquoted '"'
  · exact hquoted '\''
  · exact .fail

theorem templateLength_ne_zero {cs : List Char} (hnil : cs ≠ []) (hquote : ∀ rest, cs ≠ '\x60' :: rest)
    (hslash : ∀ rest, cs ≠ '\\' :: rest) (hopen : ∀ rest, cs ≠ '$' :: '\x7b' :: rest) :
    templateLength cs ≠ 0 := by
  unfold templateLength
  split
  · exact absurd rfl (hopen _)
  · rename_i c rest _
    have hc : ¬(decide (c = '\x60') || decide (c = '\\')) = true := by
      simp only [Bool.or_eq_true, decide_eq_true_eq, not_or]
      exact ⟨fun h => hquote rest (by rw [h]), fun h => hslash rest (by rw [h])⟩
    rw [if_neg hc]
    omega
  · exact absurd rfl hnil

section

variable {insertion : Parser Node} (hinsertion : Reads [] insertion)

include hinsertion

theorem appends_templateStep : Appends [] false (templateStep insertion) := fun s => by
  refine .bind_rest ?_
  split
  · exact Appends.fail.relax s
  · exact Appends.pure false s
  · split
    · rename_i length hlength
      obtain ⟨hrest, hpos⟩ := of_escapeLength? hlength
      exact .piece hrest hpos
    · exact Appends.fail.relax s
  · have hnode : Reads [] (node .templateSubstitution do
        push (← exactly "$\x7b")
        wideGap
        push (← insertion)
        mark "\x7d") :=
      .node (.read (reads_exactly rfl) fun _ => .bind .push fun _ => .bind appends_wideGap fun _ =>
        .read hinsertion fun _ => .bind .push fun _ => appends_mark rfl) rfl
    exact Appends.relax (.read hnode fun _ => .bind .push fun _ => .pure true) s
  · rename_i hnil hquote hslash hopen
    exact .piece hnil (templateLength_ne_zero hnil hquote hslash hopen)

theorem reads_template : Reads [] (template insertion) :=
  .node (.read (reads_exactly rfl) fun _ => .bind .push fun _ =>
    .bind (.loop (appends_templateStep hinsertion)) fun _ => .read (reads_exactly rfl) fun _ =>
      .push) rfl

end

/-! ### Lists -/

section

variable {g : Bool} {item : Parser Unit} {opener closer : String}

theorem appends_listStep (holes : Bool) (hitem : Appends [] g item) :
    Appends [] false (Grammar.listStep closer holes item) :=
  .relax (.bind appends_wideGap fun _ => .look .sees fun _ => .ite (fun _ => .pure false) fun _ =>
    .look .sees fun _ => .ite (fun _ => .bind (appends_mark rfl) fun _ => .pure true) fun _ =>
      .bind hitem fun _ => .look .sees fun _ =>
        .ite (fun _ => .bind (appends_mark rfl) fun _ => .pure true) fun _ => .pure false)

theorem appends_bracketed {holes : Bool} (hopener : opener.isEmpty = false)
    (hcloser : closer.isEmpty = false)
    (hitem : Appends [] g item) : Appends [] true (Grammar.bracketed opener closer holes item) :=
  .of (.bind (appends_mark hopener) fun _ => .bind (.loop (appends_listStep holes hitem)) fun _ =>
    appends_mark hcloser) rfl

theorem appends_bracketedSome (hopener : opener.isEmpty = false) (hcloser : closer.isEmpty = false)
    (hitem : Appends [] g item) : Appends [] true (Grammar.bracketedSome opener closer item) :=
  .of (.bind (appends_mark hopener) fun _ => .look .sees fun _ => .look (.require _) fun _ =>
    .bind (.loop (appends_listStep false hitem)) fun _ => appends_mark hcloser) rfl

theorem appends_commaSeparated (hitem : Appends [] true item) :
    Appends [] true (Grammar.commaSeparated item) :=
  .of (.bind hitem fun _ => .loop (.look .sees fun _ =>
    .ite (fun _ => .bind (appends_mark rfl) fun _ => .bind hitem fun _ => .pure true) fun _ =>
      .pure false)) rfl

theorem appends_optionalMark (htext : opener.isEmpty = false) :
    Appends [] false (Grammar.optionalMark opener) :=
  .relax (.look .sees fun _ => .ite (fun _ => appends_mark htext) fun _ => .pure ())

theorem appends_optionalWord (htext : opener.isEmpty = false) :
    Appends [] false (Grammar.optionalWord opener) :=
  .relax (.look keeps_seesWord fun _ => .ite (fun _ => appends_keyword htext) fun _ => .pure ())

end

end Parser

end StoryManifest.Source
