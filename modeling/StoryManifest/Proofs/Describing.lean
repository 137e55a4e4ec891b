import StoryManifest.Proofs.Merging

/-!
Records that describe properties. Of the three fields that are read, only a default value that cannot be
evaluated is reported. A description or a type that cannot be is dropped without a word: nothing tells the
record from one that does not have the field.
-/

namespace StoryManifest

/-! ### Records without a field -/

/-- The pairs of all keys but one. -/
def Fields.without {α : Type} (key : String) (m : Fields α) : Fields α := m.filter (·.1 ≠ key)

theorem Fields.find?_without {α : Type} (key k : String) : ∀ m : Fields α,
    (m.without key).find? k = if k = key then none else m.find? k
  | [] => by simp [without, find?]
  | (j, v) :: m => by
    have ih := find?_without key k m
    by_cases hj : j = key
    · subst hj
      have hdrop : without j ((j, v) :: m) = without j m := by simp [without]
      rw [hdrop, ih]
      by_cases hk : k = j
      · simp [hk]
      · have hk' : ¬j = k := fun h => hk h.symm
        simp [find?, hk, hk']
    · have hkeep : without key ((j, v) :: m) = (j, v) :: without key m := by simp [without, hj]
      rw [hkeep, find?, ih, find?]
      by_cases hk : j = k
      · simp [hk, hk ▸ hj]
      · simp [hk]

namespace Story

variable {part : Part} {declaration : String} {e e' : CandidateEntry} {fields : Fields Value}

/-! ### Entries that merge alike -/

/-- Entries of one name that add the same may be exchanged. -/
theorem merge_congr_entry (before after : List Candidate) (c : Candidate) (es es' : List CandidateEntry)
    (hname : e'.name = e.name)
    (hupdate : ∀ g, update c.part c.declaration e' g = update c.part c.declaration e g) :
    merge (before ++ { c with entries := es ++ e' :: es' } :: after) =
      merge (before ++ { c with entries := es ++ e :: es' } :: after) := by
  have hadd : ∀ m : Merged, m.addEntry c.part c.declaration e' = m.addEntry c.part c.declaration e :=
    fun m => by
    rw [Merged.addEntry, Merged.addEntry, hname, hupdate]
  simp only [merge, List.foldl_append, List.foldl_cons, Merged.add, hadd]

/-- What is reported of the candidates before an entry, of the entry, and of what comes after it. -/
theorem diagnostics_merge_split (before after : List Candidate) (c : Candidate)
    (es es' : List CandidateEntry)
    (e : CandidateEntry) : (merge (before ++ { c with entries := es ++ e :: es' } :: after)).diagnostics =
      (merge (before ++ [{ c with entries := es }])).diagnostics ++ reportedOf c.part c.declaration e ++
        (merge ({ c with entries := es' } :: after)).diagnostics := by
  simp only [diagnostics_merge_eq, List.flatMap_append, List.flatMap_cons, List.flatMap_nil, List.append_nil,
    List.append_assoc]

/-! ### Records -/

/-- Of a record, only the default value may be reported. -/
theorem reportedOf_record (hvalue : e.value = .record fields) : reportedOf .argTypes declaration e =
    (((fields.find? "defaultValue").bind Value.unsupportedKind).map
      (omittedDefault declaration e)).toList := by
  cases hfield : fields.find? "defaultValue" with
  | none => simp [reportedOf, update, hvalue, hfield]
  | some v => cases hkind : v.unsupportedKind <;>
    simp [reportedOf, update, hvalue, hfield, staticDefault, hkind]

/-- A field that gives neither a type nor a description nor a default value adds nothing. -/
theorem update_without {key : String} (hvalue : e.value = .record fields) (hkey : key ≠ "defaultValue")
    (htype : key = "type" → (fields.find? key).bind declaredType? = none)
    (htext : key = "description" → (fields.find? key).bind Value.asText? = none) (g : Gathered) :
    update .argTypes declaration { e with value := .record (fields.without key) } g =
      update .argTypes declaration e g := by
  have hdefault : (fields.without key).find? "defaultValue" = fields.find? "defaultValue" := by
    rw [Fields.find?_without, if_neg fun h => hkey h.symm]
  have htype : ((fields.without key).find? "type").bind declaredType? =
      (fields.find? "type").bind declaredType? := by
    rw [Fields.find?_without]
    split
    · rename_i h
      rw [h, htype h.symm, Option.bind_none]
    · rfl
  have htext : ((fields.without key).find? "description").bind Value.asText? =
      (fields.find? "description").bind Value.asText? := by
    rw [Fields.find?_without]
    split
    · rename_i h
      rw [h, htext h.symm, Option.bind_none]
    · rfl
  simp only [update, hvalue, hdefault, htype, htext]
  rfl

theorem asText?_of_marked {v : Value} (h : v.Marked) : v.asText? = none := by
  cases h <;> rfl

/-- What is reported of a record that describes a property. There is one diagnostic, on the line of the
entry, if a default value is there that holds a marker, and none otherwise, whatever the other fields
hold: where a marker keeps the description or the name of the type from being read, the candidates merge
to what they would merge to without the field. -/
theorem described_reported (before after : List Candidate) {c : Candidate} (es es' : List CandidateEntry)
    {e : CandidateEntry} {fields : Fields Value} (hpart : c.part = .argTypes)
    (hvalue : e.value = .record fields) :
    (∃ reported : List Diagnostic,
        (merge (before ++ { c with entries := es ++ e :: es' } :: after)).diagnostics =
        (merge (before ++ [{ c with entries := es }])).diagnostics ++ reported ++
          (merge ({ c with entries := es' } :: after)).diagnostics ∧
      ((∃ v, fields.find? "defaultValue" = some v ∧ v.Marked) →
        ∃ d, reported = [d] ∧ d.kind = .unsupportedNode ∧ d.line = some e.line) ∧
      ((∀ v, fields.find? "defaultValue" = some v → ¬v.Marked) → reported = [])) ∧
    ∀ key v, fields.find? key = some v → v.Marked → key = "description" ∨ key = "type" ∧ typeName? v = none →
      merge (before ++
        { c with entries := es ++ { e with value := .record (fields.without key) } :: es' } :: after) =
        merge (before ++ { c with entries := es ++ e :: es' } :: after) := by
  refine ⟨⟨_, diagnostics_merge_split before after c es es' e, ?_, ?_⟩, ?_⟩
  · rintro ⟨v, hv, hmarked⟩
    obtain ⟨kind, hkind⟩ := Value.marked_iff.mp hmarked
    exact ⟨omittedDefault c.declaration e kind,
      by simp [hpart, reportedOf_record hvalue, hv, hkind], rfl, rfl⟩
  · intro hstatic
    rw [hpart, reportedOf_record hvalue]
    cases hv : fields.find? "defaultValue" with
    | none => rfl
    | some v => simp [(Value.unsupportedKind_eq_none v).mpr (hstatic v hv)]
  · intro key v hv hmarked hkey
    refine merge_congr_entry before after c es es' (e := e) rfl fun g => ?_
    rw [hpart]
    refine update_without hvalue ?_ (fun htype => ?_) (fun htext => ?_) g
    · rcases hkey with rfl | ⟨rfl, -⟩ <;> decide
    · rcases hkey with rfl | ⟨-, hname⟩
      · exact absurd htype (by decide)
      · rw [hv, Option.bind_some, declaredType?_eq, hname, Option.bind_none]
    · rw [hv, Option.bind_some, asText?_of_marked hmarked]

/-- A description of a property by the call of a function, in each of its fields. -/
def calledFields : Fields Value :=
  [("type", .record [("name", .unsupported "call_expression")]),
    ("description", .unsupported "call_expression"),
    ("defaultValue", .list [.unsupported "call_expression"])]

/-- Descriptions of properties, to which entries may be added. -/
def descriptions : Candidate :=
  { part := .argTypes, provenance := .defaultExport, declaration := "default export.argTypes", position := 0
    line := 1, entries := [] }

theorem described_reported_calledFields :
    (∃ v, calledFields.find? "defaultValue" = some v ∧ v.Marked) ∧
    (∃ d, (merge [{ descriptions with entries := [⟨"wide", .record calledFields, 7⟩] }]).diagnostics = [d] ∧
      d.kind = .unsupportedNode ∧ d.line = some 7) ∧
    ∀ key ∈ ["type", "description"],
      merge [{ descriptions with entries := [⟨"wide", .record (calledFields.without key), 7⟩] }] =
        merge [{ descriptions with entries := [⟨"wide", .record calledFields, 7⟩] }] := by
  obtain ⟨⟨reported, hreported, hmarked, -⟩, hdropped⟩ :=
    described_reported [] [] (c := descriptions) [] [] (e := ⟨"wide", .record calledFields, 7⟩) rfl rfl
  have hdefault : ∃ v, calledFields.find? "defaultValue" = some v ∧ v.Marked :=
    ⟨_, rfl, .item (List.mem_singleton_self _) (.here _)⟩
  have htype : ∃ v, calledFields.find? "type" = some v ∧ v.Marked ∧ typeName? v = none :=
    ⟨_, rfl, .field (List.mem_singleton_self _) (.here _), rfl⟩
  obtain ⟨d, rfl, hkind, hline⟩ := hmarked hdefault
  refine ⟨hdefault, ⟨d, hreported, hkind, hline⟩, fun key hkey => ?_⟩
  obtain rfl | rfl : key = "type" ∨ key = "description" := by simpa using hkey
  · obtain ⟨v, hv, hmarked, hname⟩ := htype
    exact hdropped "type" v hv hmarked (.inr ⟨rfl, hname⟩)
  · exact hdropped "description" _ rfl (.here _) (.inl rfl)

/-- A description and a type that cannot be read are lost, and nothing is reported of them. -/
theorem described_unreported : ∃ (c : Candidate) (e : CandidateEntry) (fields : Fields Value),
    c.part = .argTypes ∧ e ∈ c.entries ∧ e.value = .record fields ∧
    (∃ v, fields.find? "type" = some v ∧ v.Marked) ∧ (∃ v, fields.find? "description" = some v ∧ v.Marked) ∧
    (merge [c]).properties.map (fun q => (q.name, q.type, q.description)) = [("wide", .unknown, none)] ∧
    (merge [c]).diagnostics = [] :=
  ⟨{ descriptions with entries := [⟨"wide", .record (calledFields.without "defaultValue"), 7⟩] }, _, _, rfl,
    List.mem_singleton_self _, rfl, ⟨_, rfl, .field (List.mem_singleton_self _) (.here _)⟩,
      ⟨_, rfl, .here _⟩,
    rfl, rfl⟩

end Story

end StoryManifest
