import StoryManifest.Proofs.Json.Numbers

/-!
Which written values are read at all. A reader either reads a written piece or fails on it, whatever stands
around it; a row of pieces is read exactly when each of them is, since the first piece on which the reader
fails ends the work. So a value is read exactly when its brackets may be opened, whatever it holds.
-/

namespace StoryManifest

namespace Json

/-- A reader fails on a text. -/
structure Fails {α : Type} (read : Reader α) (text : List Char) : Prop where
  starts : Starts text
  apply : ∀ {bs rest : List Char}, Blanks bs → Ends rest → ∃ fault, read (bs ++ (text ++ rest)) =
    .error fault

theorem Fails.of_start {α : Type} {read : Reader α} {c : Char} {cs : List Char} (hb : isBlank c = false)
    (hc : c ≠ ']')
    (h : ∀ {s rest : List Char}, Ends rest → skipBlanks s = c :: (cs ++ rest) → ∃ fault, read s =
      .error fault) :
    Fails read (c :: cs) where
  starts := ⟨c, cs, rfl, hb, hc⟩
  apply hbs hr := h hr (by rw [skipBlanks_append hbs, List.cons_append, skipBlanks_cons hb])

/-- A text is read exactly when something holds. -/
structure ReadsIff {α : Type} (read : Reader α) (text : List Char) (good : Prop) : Prop where
  reads : good → ∃ a, Reads read text a
  fails : ¬good → Fails read text

theorem Reads.readsIff {α : Type} {read : Reader α} {text : List Char} {a : α} {good : Prop}
    (h : Reads read text a) (hgood : good) : ReadsIff read text good :=
  ⟨fun _ => ⟨a, h⟩, fun hbad => absurd hgood hbad⟩

theorem ReadsIff.congr {α : Type} {read : Reader α} {text : List Char} {good good' : Prop}
    (h : ReadsIff read text good) (hiff : good' ↔ good) : ReadsIff read text good' :=
  ⟨fun hgood => h.reads (hiff.mp hgood), fun hbad => h.fails fun hgood => hbad (hiff.mpr hgood)⟩

/-- What holds of a piece holds of a text around it that is read when the piece is. -/
theorem ReadsIff.around {α β : Type} {read : Reader α} {read' : Reader β} {text text' : List Char}
    {good : Prop}
    (h : ReadsIff read text good) (hreads : ∀ a, Reads read text a → ∃ b, Reads read' text' b)
    (hfails : Fails read text → Fails read' text') : ReadsIff read' text' good :=
  ⟨fun hgood => (h.reads hgood).elim hreads, fun hbad => hfails (h.fails hbad)⟩

/-! ### Rows of items -/

section

variable {α : Type} {item : Reader α} {sp : Spacing} {depth : Nat}

/-- In a row of texts the first one that is not read is one on which the reader fails. -/
inductive FailsItems (item : Reader α) : List (List Char) → Prop
  | here {text : List Char} {texts : List (List Char)} : Fails item text → FailsItems item (text :: texts)
  | later {text : List Char} {texts : List (List Char)} {a : α} : Reads item text a →
      FailsItems item texts → FailsItems item (text :: texts)

/-- A row is read, or its first item that is not read is one on which the reader fails. -/
theorem readsIff_items {β : Type} {chars : β → List Char} {good : β → Prop} : ∀ {vs : List β},
    (∀ v ∈ vs, ReadsIff item (chars v) (good v)) →
    ((∀ v ∈ vs, good v) → ∃ as, List.Forall₂ (Reads item) (vs.map chars) as) ∧
    (¬(∀ v ∈ vs, good v) → FailsItems item (vs.map chars))
  | [], _ => ⟨fun _ => ⟨[], .nil⟩, fun h => absurd (by simp) h⟩
  | v :: vs, h => by
    obtain ⟨hreads, hfails⟩ := readsIff_items fun w hw => h w (List.mem_cons_of_mem v hw)
    have hv := h v (by simp)
    rw [List.forall_mem_cons]
    constructor
    · rintro ⟨hgood, hrest⟩
      obtain ⟨a, ha⟩ := hv.reads hgood
      obtain ⟨as, has⟩ := hreads hrest
      exact ⟨a :: as, .cons ha has⟩
    · intro hbad
      by_cases hgood : good v
      · obtain ⟨a, ha⟩ := hv.reads hgood
        exact .later ha (hfails fun hrest => hbad ⟨hgood, hrest⟩)
      · exact .here (hv.fails hgood)

theorem fails_items {texts : List (List Char)} (h : FailsItems item texts) (sp : Spacing) (depth : Nat)
    (rest : List Char) : ∀ (first : Bool) (fuel : Nat) (acc : List α), ∃ fault,
      readItems item fuel first acc (rowFrom first sp depth ']' texts ++ rest) = .error fault := by
  induction h with
  | @here text texts h =>
    rintro first (_ | fuel) acc
    · exact ⟨_, rfl⟩
    obtain ⟨fault, hfault⟩ := h.apply Blanks.nil (ends_rowTail sp depth ']' (by simp) texts rest)
    rw [List.nil_append] at hfault
    exact ⟨fault, by rw [readItems_next item sp depth first h.starts, hfault]; rfl⟩
  | @later text texts a ha _ ih =>
    rintro first (_ | fuel) acc
    · exact ⟨_, rfl⟩
    have hread := ha.apply Blanks.nil (ends_rowTail sp depth ']' (by simp) texts rest)
    rw [List.nil_append] at hread
    obtain ⟨fault, hfault⟩ := ih false fuel (a :: acc)
    exact ⟨fault, by rw [readItems_next item sp depth first ha.starts, hread]; exact hfault⟩

/-- A list is read exactly when all its items are. -/
theorem readsIff_list {item : Nat → Reader α} {inner : Nat} {β : Type} {chars : β → List Char}
    {good : β → Prop} {vs : List β} (h : ∀ v ∈ vs, ReadsIff (item inner) (chars v) (good v)) :
    ReadsIff (readList item (inner + 1)) (row sp depth '[' ']' (vs.map chars)) (∀ v ∈ vs, good v) := by
  obtain ⟨hreads, hfails⟩ := readsIff_items h
  refine ⟨fun hgood => ?_, fun hbad => .of_start (by decide) (by decide) fun {_ rest} _ hs => ?_⟩
  · obtain ⟨as, has⟩ := hreads hgood
    exact ⟨as, reads_list has⟩
  · obtain ⟨fault, hfault⟩ := fails_items (hfails hbad) sp depth rest true
      ((rowBody sp depth ']' (vs.map chars) ++ rest).length + 1) []
    rw [rowFrom, if_pos rfl] at hfault
    exact ⟨fault, by simp only [readList, hs, hfault, bind, Except.bind]⟩

end

/-! ### Rows of members -/

section

variable {σ : Type} {member : String → σ → Reader σ} {sp : Spacing}

/-- Members take a state to a state, up to one on which the reader fails. -/
inductive FailsMembers (member : String → σ → Reader σ) (sp : Spacing) : σ → List (List Char) → Prop
  | here {k : String} {text : List Char} {texts : List (List Char)} {s : σ} :
      (∀ {rest : List Char}, Ends rest →
        ∃ fault, member k s (':' :: (sp.gap ++ (text ++ rest))) = .error fault) →
      FailsMembers member sp s (memberChars sp k text :: texts)
  | later {k : String} {text : List Char} {texts : List (List Char)} {s s₁ : σ} :
      (∀ {rest : List Char}, Ends rest →
        member k s (':' :: (sp.gap ++ (text ++ rest))) = .ok (s₁, rest)) →
      FailsMembers member sp s₁ texts →
      FailsMembers member sp s (memberChars sp k text :: texts)

theorem fails_members {texts : List (List Char)} {s : σ} (h : FailsMembers member sp s texts) (depth : Nat)
    (rest : List Char) : ∀ (first : Bool) (fuel : Nat), ∃ fault,
      readMembers member fuel first s (rowFrom first sp depth '\x7d' texts ++ rest) = .error fault := by
  induction h with
  | @here k text texts s hm =>
    rintro first (_ | fuel)
    · exact ⟨_, rfl⟩
    obtain ⟨fault, hfault⟩ := hm (ends_rowTail sp depth '\x7d' (by simp) texts rest)
    exact ⟨fault, by rw [readMembers_next, hfault]; rfl⟩
  | @later k text texts s s₁ hm _ ih =>
    rintro first (_ | fuel)
    · exact ⟨_, rfl⟩
    obtain ⟨fault, hfault⟩ := ih false fuel
    exact ⟨fault,
      by rw [readMembers_next, hm (ends_rowTail sp depth '\x7d' (by simp) texts rest)]; exact hfault⟩

end

/-- The fields of a record are read, or the first one that is not is one on which the reader fails. -/
theorem readsIff_fields {value : Reader Value} {sp : Spacing} {depth : Nat} (good : Value → Prop) :
    ∀ {fields : Fields Value}, (∀ e ∈ fields, ReadsIff value (chars sp depth e.2) (good e.2)) →
    ((∀ e ∈ fields, good e.2) → ∀ before, ∃ after,
      ReadsMembers (readField value) sp before (fieldChars sp depth fields) after) ∧
    (¬(∀ e ∈ fields, good e.2) → ∀ before, FailsMembers (readField value) sp before
      (fieldChars sp depth fields))
  | [], _ => ⟨fun _ before => ⟨before, .nil before⟩, fun h => absurd (by simp) h⟩
  | (k, v) :: fields, h => by
    obtain ⟨hreads, hfails⟩ := readsIff_fields good fun e he => h e (List.mem_cons_of_mem _ he)
    have hv : ReadsIff value (chars sp depth v) (good v) := h (k, v) (by simp)
    have hmember : ∀ {a : Value}, Reads value (chars sp depth v) a →
        ∀ (before : Fields Value) {rest : List Char},
        Ends rest → readField value k before (':' :: (sp.gap ++ (chars sp depth v ++ rest))) =
          .ok (before.insert k a, rest) := fun ha before rest hr => by
      simp [readField, readColon_cons, ha.apply (blanks_gap sp) hr, bind, Except.bind, pure, Except.pure]
    rw [List.forall_mem_cons]
    constructor
    · rintro ⟨hgood, hrest⟩ before
      obtain ⟨a, ha⟩ := hv.reads hgood
      obtain ⟨after, hafter⟩ := hreads hrest (before.insert k a)
      exact ⟨after, .cons (hmember ha before) hafter⟩
    · intro hbad before
      by_cases hgood : good v
      · obtain ⟨a, ha⟩ := hv.reads hgood
        exact .later (hmember ha before) (hfails (fun hrest => hbad ⟨hgood, hrest⟩) _)
      · refine .here fun {rest} hr => ?_
        obtain ⟨fault, hfault⟩ := (hv.fails hgood).apply (blanks_gap sp) hr
        exact ⟨fault, by simp [readField, readColon_cons, hfault, bind, Except.bind]⟩

/-! ### Values -/

end Json

namespace Value

/-- All numbers in a value fit what is read. -/
def NumbersFit (v : Value) : Prop := ∀ n, v.HasNumber n → Json.FitsReader n

/-- Nothing but its brackets can keep a value from being read. -/
structure Legible (v : Value) : Prop where
  unmarked : ¬v.Marked
  fits : v.NumbersFit

theorem Legible.item {items : List Value} {v : Value} (h : (Value.list items).Legible) (hv : v ∈ items) :
    v.Legible :=
  ⟨fun hm => h.unmarked (.item hv hm), fun n hn => h.fits n (.item hv hn)⟩

theorem Legible.field {fields : Fields Value} {e : String × Value} (h : (Value.record fields).Legible)
    (he : e ∈ fields) : e.2.Legible :=
  ⟨fun hm => h.unmarked (.field he hm), fun n hn => h.fits n (.field he hn)⟩

end Value

namespace Json

/-- With no bracket left to open, a list or a record is not read. -/
theorem fails_bracket {c : Char} (hc : c = '[' ∨ c = '\x7b') (cs : List Char) :
    Fails (readValue 0) (c :: cs) := by
  rcases hc with rfl | rfl <;>
  exact .of_start (by decide) (by decide) fun _ hs => ⟨.notJson, by simp only [readValue, hs]⟩

/-- A list is read with one bracket more than its items need. -/
theorem readsIff_listValue {sp : Spacing} {items : List Value} {depth budget : Nat}
    (h : ∀ v ∈ items, ReadsIff (readValue budget) (chars sp (depth + 1) v) (v.nesting ≤ budget)) :
    ReadsIff (readValue (budget + 1)) (chars sp depth (.list items))
      ((Value.list items).nesting ≤ budget + 1) := by
  obtain ⟨hreads, hfails⟩ := readsIff_items h
  rw [← itemChars_eq] at hreads hfails
  refine .congr ⟨fun hgood => ?_, fun hbad => ?_⟩ Value.nesting_list_le_iff
  · obtain ⟨as, has⟩ := hreads hgood
    exact ⟨.list as, .of_start (by decide) (by decide) fun _ hs => by
      simp only [readValue, hs, readItems_rowBody has, closeList_cons, bind, Except.bind, pure, Except.pure]⟩
  · refine .of_start (by decide) (by decide) fun {_ rest} _ hs => ?_
    obtain ⟨fault, hfault⟩ := fails_items (hfails hbad) sp depth rest true
      ((rowBody sp depth ']' (itemChars sp (depth + 1) items) ++ rest).length + 1) []
    rw [rowFrom, if_pos rfl] at hfault
    exact ⟨fault, by simp only [readValue, hs, hfault, bind, Except.bind]⟩

/-- A record is read with one bracket more than its fields need. -/
theorem readsIff_recordValue {sp : Spacing} {fields : Fields Value} {depth budget : Nat}
    (h : ∀ e ∈ fields, ReadsIff (readValue budget) (chars sp (depth + 1) e.2) (e.2.nesting ≤ budget)) :
    ReadsIff (readValue (budget + 1)) (chars sp depth (.record fields))
      ((Value.record fields).nesting ≤ budget + 1) := by
  obtain ⟨hreads, hfails⟩ := readsIff_fields (fun v => v.nesting ≤ budget) h
  refine .congr ⟨fun hgood => ?_, fun hbad => ?_⟩ Value.nesting_record_le_iff
  · obtain ⟨after, hafter⟩ := hreads hgood []
    exact ⟨.record after, .of_start (by decide) (by decide) fun _ hs => by
      simp only [readValue, hs, readMembers_rowBody hafter, closeRecord_cons, bind, Except.bind, pure,
        Except.pure]⟩
  · refine .of_start (by decide) (by decide) fun {_ rest} _ hs => ?_
    obtain ⟨fault, hfault⟩ := fails_members (hfails hbad []) depth rest true
      ((rowBody sp depth '\x7d' (fieldChars sp (depth + 1) fields) ++ rest).length + 1)
    rw [rowFrom, if_pos rfl] at hfault
    exact ⟨fault, by simp only [readValue, hs, hfault, bind, Except.bind]⟩

/-- A legible value is read exactly when its brackets may be opened. -/
theorem readsIff_value (sp : Spacing) : ∀ (v : Value) (depth budget : Nat), v.Legible →
    ReadsIff (readValue budget) (chars sp depth v) (v.nesting ≤ budget)
  | .null, _, budget, _ => (reads_null budget).readsIff (Nat.zero_le _)
  | .bool b, depth, budget, _ => (reads_bool budget sp depth b).readsIff (Nat.zero_le _)
  | .text s, _, budget, _ => (reads_text budget s).readsIff (Nat.zero_le _)
  | .number n, _, budget, hv => by
    obtain ⟨m, hm⟩ := exists_reads_number budget (hv.fits n .here)
    exact hm.readsIff (Nat.zero_le _)
  | .unsupported kind, _, _, hv => absurd (.here kind) hv.unmarked
  | .list items, depth, 0, _ =>
    ⟨fun h => absurd h (Nat.not_succ_le_zero _), fun _ => fails_bracket (.inl rfl) _⟩
  | .record fields, depth, 0, _ =>
    ⟨fun h => absurd h (Nat.not_succ_le_zero _), fun _ => fails_bracket (.inr rfl) _⟩
  | .list items, depth, budget + 1, hv =>
    readsIff_listValue fun v hmem => readsIff_value sp v (depth + 1) budget (hv.item hmem)
  | .record fields, depth, budget + 1, hv =>
    readsIff_recordValue fun e hmem => readsIff_value sp e.2 (depth + 1) budget (hv.field hmem)

end Json

end StoryManifest
