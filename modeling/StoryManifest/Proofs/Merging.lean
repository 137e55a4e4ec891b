import Mathlib.Data.List.Induction
import StoryManifest.Proofs.Values
import StoryManifest.Story.Merge

/-!
What merging makes of candidates. All entries are read one after the other; a property stands where its
name occurs first, and each of its fields is the last one that any entry of the name gives. The main
statement says so of the whole list of properties, whatever the candidates hold. What is reported comes
from each entry on its own, whatever is known of its name.
-/

namespace StoryManifest.Story

/-! ### What an entry gives -/

/-- An entry with the part of metadata that it is in. -/
abbrev Reading := Part × CandidateEntry

/-- The entries of candidates, candidate by candidate. -/
def readings (cs : List Candidate) : List Reading :=
  cs.flatMap fun c => c.entries.map fun e => (c.part, e)

/-- The value, unless a marker occurs in it at some depth. -/
def unmarked? (v : Value) : Option Value := if v.Marked then none else some v

/-- The default value that an entry gives as it stands. -/
def givenDefault? : Part → Value → Option Value
  | .args, v => unmarked? v
  | .argTypes, _ => none

/-- A field of an entry that describes a property by a record. -/
def described? (key : String) : Part → Value → Option Value
  | .argTypes, .record fields => Fields.find? key fields
  | _, _ => none

/-- The default value that an entry describes. -/
def describedDefault? (part : Part) (v : Value) : Option Value :=
  (described? "defaultValue" part v).bind unmarked?

/-- The description in an entry, if it is a text. -/
def describedText? (part : Part) (v : Value) : Option String :=
  (described? "description" part v).bind Value.asText?

/-- The name of a type: a text, or the text in a record's `name`. -/
def typeName? : Value → Option String
  | .text s => some s
  | v => (v.field? "name").bind Value.asText?

/-- The type that an entry declares, if it is one that may be declared. -/
def describedType? (part : Part) (v : Value) : Option PropertyType :=
  ((described? "type" part v).bind typeName?).bind PropertyType.ofDeclared?

/-! ### The last one counts -/

/-- The names of entries in the order in which they occur first. -/
def namesOf (rs : List Reading) : List String := (rs.map (·.2.name)).eraseDups

/-- The last that the entries of a name give. -/
def lastOf {α : Type} (give : Part → Value → Option α) (rs : List Reading) (name : String) : Option α :=
  ((rs.filter (·.2.name = name)).filterMap fun r => give r.1 r.2.value).getLast?

/-- The default value of a name. What is given goes before what is described. -/
def defaultOf (rs : List Reading) (name : String) : Option Value :=
  (lastOf givenDefault? rs name).or (lastOf describedDefault? rs name)

/-- The property of a name. -/
def propertyOf (rs : List Reading) (name : String) : Property :=
  { name
    type := ((lastOf describedType? rs name).or
      ((defaultOf rs name).bind PropertyType.ofValue?)).getD .unknown
    description := lastOf describedText? rs name
    default := defaultOf rs name
    isList := match defaultOf rs name with
      | some (.list _) => true
      | _ => false }

theorem lastOf_concat {α : Type} (give : Part → Value → Option α) (rs : List Reading) (r : Reading)
    (name : String) : lastOf give (rs ++ [r]) name =
      if r.2.name = name then (give r.1 r.2.value).or (lastOf give rs name)
      else lastOf give rs name := by
  by_cases h : r.2.name = name
  · cases hg : give r.1 r.2.value <;> simp [lastOf, List.filter_append, h, hg]
  · simp [lastOf, List.filter_append, h]

theorem lastOf_of_notMem {α : Type} (give : Part → Value → Option α) {rs : List Reading} {name : String}
    (h : name ∉ namesOf rs) : lastOf give rs name = none := by
  have hnone : rs.filter (·.2.name = name) = [] := by
    rw [List.filter_eq_nil_iff]
    intro r hr hn
    exact h (List.mem_eraseDups.mpr (List.mem_map.mpr ⟨r, hr, of_decide_eq_true hn⟩))
  simp [lastOf, hnone]

theorem namesOf_concat (rs : List Reading) (r : Reading) : namesOf (rs ++ [r]) =
    if r.2.name ∈ namesOf rs then namesOf rs else namesOf rs ++ [r.2.name] := by
  rw [namesOf, namesOf, List.map_append, List.map_singleton, Fields.eraseDups_concat]
  simp only [List.mem_eraseDups]

theorem nodup_namesOf (rs : List Reading) : (namesOf rs).Nodup := by
  induction rs using List.reverseRecOn with
  | nil => simp [namesOf]
  | append_singleton rs r ih =>
    rw [namesOf_concat]
    split
    · exact ih
    · rename_i h
      rw [List.nodup_append]
      refine ⟨ih, List.nodup_singleton _, ?_⟩
      rintro a ha b hb rfl
      exact h (List.mem_singleton.mp hb ▸ ha)

/-! ### One step and the whole run -/

/-- What is known of a name once the entries were read. -/
def gatheredOf (rs : List Reading) (name : String) : Gathered :=
  { declaredType := lastOf describedType? rs name
    description := lastOf describedText? rs name
    argsDefault := lastOf givenDefault? rs name
    argTypesDefault := lastOf describedDefault? rs name }

theorem gatheredOf_concat_of_ne (rs : List Reading) {r : Reading} {name : String}
    (h : name ≠ r.2.name) : gatheredOf (rs ++ [r]) name = gatheredOf rs name := by
  have : ¬r.2.name = name := fun h' => h h'.symm
  simp [gatheredOf, lastOf_concat, this]

theorem gatheredOf_of_notMem {rs : List Reading} {name : String} (h : name ∉ namesOf rs) :
    gatheredOf rs name = { } := by
  simp [gatheredOf, lastOf_of_notMem _ h]

theorem staticDefault_fst (declaration : String) (e : CandidateEntry) (v : Value) :
    (staticDefault declaration e v).1 = unmarked? v := by
  cases h : v.unsupportedKind with
  | none => simp [staticDefault, unmarked?, h, (Value.unsupportedKind_eq_none v).mp h]
  | some kind => simp [staticDefault, unmarked?, h, Value.marked_iff.mpr ⟨kind, h⟩]

theorem declaredType?_eq (v : Value) :
    declaredType? v = (typeName? v).bind PropertyType.ofDeclared? := by
  cases v <;> simp [declaredType?, typeName?, Value.field?]

/-- An entry overwrites of its name what it gives and keeps the rest. -/
theorem update_fst (rs : List Reading) (part : Part) (declaration : String) (e : CandidateEntry) :
    (update part declaration e (gatheredOf rs e.name)).1 = gatheredOf (rs ++ [(part, e)]) e.name := by
  cases part with
  | args =>
    simp [update, gatheredOf, lastOf_concat, orKeep, staticDefault_fst, givenDefault?, describedType?,
      describedText?, describedDefault?, described?]
  | argTypes =>
    cases hv : e.value with
    | record fields =>
      cases hd : Fields.find? "defaultValue" fields <;> cases ht : Fields.find? "type" fields <;>
        simp [update, gatheredOf, lastOf_concat, orKeep, staticDefault_fst, givenDefault?,
          describedType?, describedText?, describedDefault?, described?, hv, hd, ht, declaredType?_eq]
    | _ =>
      simp [update, gatheredOf, lastOf_concat, givenDefault?, describedType?, describedText?,
        describedDefault?, described?, hv]

/-- What was gathered is what the entries read so far give. -/
def Merged.Reads (m : Merged) (rs : List Reading) : Prop :=
  m.gathered = Fields.tabulate (namesOf rs) (gatheredOf rs)

theorem Merged.Reads.addEntry {m : Merged} {rs : List Reading} (h : m.Reads rs) (part : Part)
    (declaration : String) (e : CandidateEntry) :
    (m.addEntry part declaration e).Reads (rs ++ [(part, e)]) := by
  have hother : ∀ name, name ≠ e.name → gatheredOf (rs ++ [(part, e)]) name = gatheredOf rs name :=
    fun name hn => gatheredOf_concat_of_ne rs hn
  have hbefore : (m.gathered.find? e.name).getD { } = gatheredOf rs e.name := by
    rw [h, Fields.find?_tabulate]
    split
    · rfl
    · rename_i hn; rw [gatheredOf_of_notMem hn]; rfl
  show m.gathered.insert e.name (update part declaration e ((m.gathered.find? e.name).getD { })).1 = _
  rw [hbefore, update_fst, h, namesOf_concat]
  split
  · rename_i hm
    exact Fields.insert_tabulate_of_mem hother (nodup_namesOf rs) hm
  · rename_i hm
    exact Fields.insert_tabulate_of_notMem hother hm

theorem Merged.Reads.add {m : Merged} {rs : List Reading} (h : m.Reads rs) (c : Candidate) :
    (m.add c).Reads (rs ++ readings [c]) := by
  have hfold : ∀ (es : List CandidateEntry) (m : Merged) (rs : List Reading), m.Reads rs →
      (es.foldl (Merged.addEntry c.part c.declaration) m).Reads (rs ++ es.map fun e => (c.part, e)) := by
    intro es
    induction es with
    | nil => intro m rs h; simpa using h
    | cons e es ih =>
      intro m rs h
      simpa using ih _ _ (h.addEntry c.part c.declaration e)
  simpa [Merged.add, readings] using hfold c.entries m rs h

theorem merge_reads (cs : List Candidate) : (merge cs).Reads (readings cs) := by
  have hfold : ∀ (cs : List Candidate) (m : Merged) (rs : List Reading), m.Reads rs →
      (cs.foldl Merged.add m).Reads (rs ++ readings cs) := by
    intro cs
    induction cs with
    | nil => intro m rs h; simpa [readings] using h
    | cons c cs ih =>
      intro m rs h
      simpa [readings] using ih _ _ (h.add c)
  simpa [merge] using hfold cs { } [] rfl

theorem gatheredOf_toProperty (rs : List Reading) (name : String) :
    (gatheredOf rs name).toProperty name = propertyOf rs name := by
  have hdefault : (gatheredOf rs name).default = defaultOf rs name := rfl
  have hlist : ((defaultOf rs name).map Value.isList).getD false =
      match defaultOf rs name with
      | some (.list _) => true
      | _ => false := by
    cases defaultOf rs name with
    | none => rfl
    | some v => cases v <;> rfl
  simp only [Gathered.toProperty, hdefault, hlist]
  rfl

theorem Merged.Reads.properties {m : Merged} {rs : List Reading} (h : m.Reads rs) :
    m.properties = (namesOf rs).map (propertyOf rs) := by
  rw [Merged.properties, h, Fields.tabulate, List.map_map]
  exact List.map_congr_left fun name _ => gatheredOf_toProperty rs name

/-! ### What is reported -/

/-- What merging reports of an entry. -/
def reportedOf (part : Part) (declaration : String) (e : CandidateEntry) : List Diagnostic :=
  (update part declaration e { }).2

/-- What is known of the name does not matter. -/
theorem update_snd_eq (part : Part) (declaration : String) (e : CandidateEntry) (g : Gathered) :
    (update part declaration e g).2 = reportedOf part declaration e := by
  rw [reportedOf]
  cases part with
  | args => rfl
  | argTypes => cases hvalue : e.value <;> simp [update, hvalue]

theorem diagnostics_addEntries (part : Part) (declaration : String) (es : List CandidateEntry) (m : Merged) :
    (es.foldl (Merged.addEntry part declaration) m).diagnostics =
      m.diagnostics ++ es.flatMap (reportedOf part declaration) := by
  induction es generalizing m with
  | nil => simp
  | cons e es ih =>
    rw [List.foldl_cons, ih, List.flatMap_cons, ← List.append_assoc]
    simp only [Merged.addEntry, update_snd_eq]

theorem diagnostics_addAll (cs : List Candidate) (m : Merged) : (cs.foldl Merged.add m).diagnostics =
    m.diagnostics ++ cs.flatMap fun c => c.entries.flatMap (reportedOf c.part c.declaration) := by
  induction cs generalizing m with
  | nil => simp
  | cons c cs ih =>
    rw [List.foldl_cons, ih, Merged.add, diagnostics_addEntries, List.flatMap_cons, List.append_assoc]

/-- Merging reports of all entries, one after the other. -/
theorem diagnostics_merge_eq (cs : List Candidate) : (merge cs).diagnostics =
    cs.flatMap fun c => c.entries.flatMap (reportedOf c.part c.declaration) := diagnostics_addAll cs { }

/-! ### The properties -/

/-- Merging gives one property for each name, where the name occurs first, with the last of each field
that the entries of the name give. -/
theorem properties_merge (cs : List Candidate) :
    (merge cs).properties = (namesOf (readings cs)).map (propertyOf (readings cs)) :=
  (merge_reads cs).properties

end StoryManifest.Story
