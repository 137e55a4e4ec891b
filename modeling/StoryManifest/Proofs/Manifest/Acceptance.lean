import StoryManifest.Proofs.Json.Acceptance
import StoryManifest.Proofs.Manifest.RoundTrip

/-!
Which written manifests are read at all. The first default value that nests too deep ends the reading of its
property, and so of the component and of the manifest; five of the brackets that may be open at once are
those around a default value. The main statement says that this is the only thing that can go wrong.
-/

namespace StoryManifest

/-! ### Records with a field that is not read -/

namespace Json

section

variable {σ α : Type} {fields : List (DraftField σ)} {inner : Nat} {sp : Spacing} {name : String}
    {required : Bool}
  {read : Nat → Reader α} {get : σ → Option α} {put : σ → α → σ} {draft : σ} {text : List Char}
  {texts : List (List Char)}

theorem FailsMembers.field (hfind : fields.find? (·.name == name) = some (.of name required read get put))
    (hget : get draft = none) (hread : Fails (read inner) text) :
    FailsMembers (readDraftMember fields inner) sp draft (memberChars sp name text :: texts) :=
  .here fun {rest} hr => by
    obtain ⟨fault, hfault⟩ := hread.apply (blanks_gap sp) hr
    exact ⟨fault, by
      simp [readDraftMember, hfind, DraftField.of, hget, readColon_cons, hfault, bind, Except.bind,
        Except.map]⟩

theorem FailsMembers.laterField {a : α}
    (hfind : fields.find? (·.name == name) = some (.of name required read get put))
    (hget : get draft = none) (hread : Reads (read inner) text a)
    (hrest : FailsMembers (readDraftMember fields inner) sp (put draft a) texts) :
    FailsMembers (readDraftMember fields inner) sp draft (memberChars sp name text :: texts) :=
  .later (readDraftMember_field hfind hget hread) hrest

theorem fails_record {empty : σ} {finish : σ → Option α}
    (h : FailsMembers (readDraftMember fields inner) sp empty texts) (depth : Nat) :
    Fails (readRecord fields empty finish (inner + 1)) (row sp depth '\x7b' '\x7d' texts) :=
  .of_start (by decide) (by decide) fun {_ rest} _ hs => by
    obtain ⟨fault, hfault⟩ :=
      fails_members h depth rest true ((rowBody sp depth '\x7d' texts ++ rest).length + 1)
    rw [rowFrom, if_pos rfl] at hfault
    exact ⟨fault, by simp only [readRecord, readDraft, hs, hfault, bind, Except.bind]⟩

end

end Json

open Json

/-! ### Properties -/

/-- Nothing but its brackets can keep the default value from being read. -/
def Property.Legible (p : Property) : Prop := ∀ v, p.default = some v → v.Legible

/-- The default value nests at most so deep. -/
def Property.NestsWithin (depth : Nat) (p : Property) : Prop := ∀ v, p.default = some v → v.nesting ≤ depth

instance (depth : Nat) (p : Property) : Decidable (p.NestsWithin depth) :=
  decidable_of_iff (∀ v ∈ p.default, v.nesting ≤ depth) Iff.rfl

/-- The fields of a property are read up to a default value on which the reader fails. -/
theorem PropertyDraft.fails_fields (sp : Spacing) (depth inner : Nat) : ∀ {p : Property} {v : Value},
    p.default = some v → Fails (readValue inner) (chars sp depth v) →
    ∃ fields, p.toValue = .record fields ∧
      FailsMembers (readDraftMember PropertyDraft.fields inner) sp { } (fieldChars sp depth fields)
  | ⟨name, type, description, _, isList⟩, v, rfl, hv => by
    refine ⟨_, rfl, ?_⟩
    have hname := reads_string name
    have htype := PropertyType.reads inner type
    cases description with
    | none => exact .laterField rfl rfl hname (.laterField rfl rfl htype (.field rfl rfl hv))
    | some d =>
      exact .laterField rfl rfl hname (.laterField rfl rfl htype
        (.laterField rfl rfl (reads_nullable d) (.field rfl rfl hv)))

theorem Property.readsIff (sp : Spacing) (depth inner : Nat) {p : Property} (h : p.Legible) :
    ReadsIff (Property.reader (inner + 1)) (chars sp depth p.toValue) (p.NestsWithin inner) := by
  cases hdefault : p.default with
  | none =>
    have hrel :
        Option.Rel (fun v a => Reads (readValue inner) (chars sp (depth + 1) v) a) p.default none := by
      rw [hdefault]
      exact .none
    exact (reads_default hrel).readsIff fun v hv => by rw [hdefault] at hv; cases hv
  | some v =>
    have hnests : p.NestsWithin inner ↔ v.nesting ≤ inner := by simp [NestsWithin, hdefault]
    have hvalue := readsIff_value sp v (depth + 1) inner (h v hdefault)
    refine (hvalue.around (fun a ha => ?_) fun hv => ?_).congr hnests
    · have hrel : Option.Rel (fun v a => Reads (readValue inner) (chars sp (depth + 1) v) a) p.default
          (some a) := by
        rw [hdefault]
        exact .some ha
      exact ⟨_, reads_default hrel⟩
    · obtain ⟨fields, hfields, hmembers⟩ := PropertyDraft.fails_fields sp (depth + 1) inner hdefault hv
      rw [hfields]
      exact fails_record hmembers depth

/-! ### Components -/

/-- All default values nest at most so deep. -/
def ComponentRecord.NestsWithin (depth : Nat) (r : ComponentRecord) : Prop :=
  ∀ p ∈ r.props, p.NestsWithin depth

instance (depth : Nat) (r : ComponentRecord) : Decidable (r.NestsWithin depth) :=
  inferInstanceAs (Decidable (∀ p ∈ r.props, p.NestsWithin depth))

theorem ComponentRecord.fails_props {sp : Spacing} {depth inner : Nat} {r : ComponentRecord}
    (h : Fails (readList Property.reader (inner + 2))
      (chars sp (depth + 1) (.list (r.props.map Property.toValue)))) :
    Fails (ComponentRecord.reader (inner + 3)) (chars sp depth r.toValue) := by
  obtain ⟨fields, hfields, hmembers⟩ : ∃ fields, r.toValue = .record fields ∧
      FailsMembers (readDraftMember ComponentDraft.fields (inner + 2)) sp { }
        (fieldChars sp (depth + 1) fields) :=
    ⟨_, rfl,
      .laterField rfl rfl (reads_string r.name) <|
      .laterField rfl rfl (reads_string r.version) <|
      .laterField rfl rfl (reads_string r.displayName) <|
      .laterField rfl rfl (reads_string r.baseDir) <|
      .laterField rfl rfl (reads_string r.module) <|
      .laterField rfl rfl (reads_texts sp (depth + 1) (inner + 1) r.files) <|
      .field rfl rfl h⟩
  rw [hfields]
  exact fails_record hmembers depth

theorem ComponentRecord.readsIff (sp : Spacing) (depth inner : Nat) {r : ComponentRecord}
    (h : ∀ p ∈ r.props, p.Legible) :
    ReadsIff (ComponentRecord.reader (inner + 3)) (chars sp depth r.toValue) (r.NestsWithin inner) := by
  have hprops : ReadsIff (readList Property.reader (inner + 2))
      (chars sp (depth + 1) (.list (r.props.map Property.toValue))) (r.NestsWithin inner) := by
    rw [chars_list]
    exact readsIff_list fun p hp => p.readsIff sp (depth + 2) inner (h p hp)
  exact hprops.around (fun props hread => ⟨_, reads_props hread⟩) fails_props

/-! ### Manifests -/

/-- All default values nest at most so deep. -/
def Manifest.NestsWithin (depth : Nat) (m : Manifest) : Prop := ∀ r ∈ m.components, r.NestsWithin depth

instance (depth : Nat) (m : Manifest) : Decidable (m.NestsWithin depth) :=
  inferInstanceAs (Decidable (∀ r ∈ m.components, r.NestsWithin depth))

/-- Nothing but their brackets can keep the default values from being read. -/
def Manifest.Legible (m : Manifest) : Prop := ∀ r ∈ m.components, ∀ p ∈ r.props, p.Legible

theorem Manifest.fails_components {sp : Spacing} {inner : Nat} {m : Manifest}
    (h : Fails (readList ComponentRecord.reader (inner + 4))
      (chars sp 1 (.list (m.components.map ComponentRecord.toValue)))) :
    Fails (Manifest.reader (inner + 5)) (chars sp 0 m.toValue) := by
  obtain ⟨fields, hfields, hmembers⟩ : ∃ fields, m.toValue = .record fields ∧
      FailsMembers (readDraftMember Manifest.fields (inner + 4)) sp none (fieldChars sp 1 fields) :=
    ⟨_, rfl, .field rfl rfl h⟩
  rw [hfields]
  exact fails_record hmembers 0

theorem Manifest.readsIff (sp : Spacing) (inner : Nat) {m : Manifest} (h : m.Legible) :
    ReadsIff (Manifest.reader (inner + 5)) (chars sp 0 m.toValue) (m.NestsWithin inner) := by
  have hcomponents : ReadsIff (readList ComponentRecord.reader (inner + 4))
      (chars sp 1 (.list (m.components.map ComponentRecord.toValue))) (m.NestsWithin inner) := by
    rw [chars_list]
    exact readsIff_list fun r hr => r.readsIff sp 2 inner (h r hr)
  exact hcomponents.around (fun components hread => ⟨_, reads_components hread⟩) fails_components

theorem Manifest.ofText_of_fails {cs : List Char} (h : Fails (reader depthLimit) cs) :
    ∃ fault, ofText (String.ofList cs ++ "\n") = .error fault := by
  obtain ⟨fault, hfault⟩ := h.apply Blanks.nil ends_lineEnd
  rw [List.nil_append] at hfault
  exact ⟨fault, by simp only [ofText, readWhole, toList_line, hfault, bind, Except.bind]⟩

/-- A legible manifest has a text, which is read as a manifest exactly when no default value nests deeper
than the limit of the reader and the five brackets around it allow. -/
theorem Manifest.accepted_iff {m : Manifest} (h : m.Legible) :
    ∃ text, m.text? = some text ∧ ((∃ n, ofText text = .ok n) ↔ m.NestsWithin (depthLimit - 5)) := by
  refine ⟨_, text?_eq fun r hr p hp v hv => (h r hr p hp v hv).unmarked, ?_⟩
  have hiff : ReadsIff (reader depthLimit) (chars .indented 0 m.toValue) (m.NestsWithin (depthLimit - 5)) :=
    readsIff .indented 122 h
  constructor
  · rintro ⟨n, hn⟩
    by_contra hdeep
    obtain ⟨fault, hfault⟩ := ofText_of_fails (hiff.fails hdeep)
    rw [hfault] at hn
    cases hn
  · intro hnests
    obtain ⟨n, hn⟩ := hiff.reads hnests
    exact ⟨n, ofText_of_reads hn⟩

end StoryManifest
