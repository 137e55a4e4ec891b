import StoryManifest.Command.Check
import StoryManifest.Command.Generate
import StoryManifest.Command.Inspect
import StoryManifest.Proofs.Accounting
import StoryManifest.Proofs.Manifest.RoundTrip
import StoryManifest.Proofs.Merging

/-!
Markers never reach a text that is written. A value with a marker has no text, and merging keeps markers out
of default values on both of the ways on which these come. So what a command writes or prints always has a
text, whatever the stories hold.
-/

namespace StoryManifest

variable {t : FileTree} {s : BuildSettings} {b : Build} {story : Path}

/-! ### Values without a text -/

theorem Json.write_eq_none_iff (sp : Json.Spacing) (depth : Nat) (v : Value) :
    Json.write sp depth v = none ↔ ∃ kind, v.unsupportedKind = some kind := by
  rw [Json.write_eq]
  cases v.unsupportedKind <;> simp

theorem Value.exists_unsupportedKind_iff (v : Value) : (∃ kind, v.unsupportedKind = some kind) ↔
    v.Marked := by
  rw [← Option.isSome_iff_exists, Option.isSome_iff_ne_none, ne_eq, Value.unsupportedKind_eq_none, not_not]

/-! ### Default values -/

/-- No default value of some properties holds a marker. -/
def Property.AllStatic (ps : List Property) : Prop := ∀ p ∈ ps, ∀ v, p.default = some v → ¬v.Marked

namespace Story

theorem unmarked?_eq_some_iff {v w : Value} : unmarked? v = some w ↔ v = w ∧ ¬v.Marked := by
  by_cases hv : v.Marked <;> simp [unmarked?, hv]

/-- What entries give last is what one of them gives. -/
theorem exists_of_lastOf {α : Type} {give : Part → Value → Option α} {rs : List Reading} {name : String}
    {a : α} (h : lastOf give rs name = some a) : ∃ r ∈ rs, give r.1 r.2.value = some a := by
  obtain ⟨r, hr, hgives⟩ := List.mem_filterMap.mp (List.mem_of_getLast? h)
  exact ⟨r, List.mem_of_mem_filter hr, hgives⟩

/-- A default value that entries give has no marker, and it is the value of one of them or in its record. -/
theorem defaultOf_spec {rs : List Reading} {name : String} {v : Value} (h : defaultOf rs name = some v) :
    ¬v.Marked ∧ ∃ r ∈ rs, r.2.value = v ∨
      ∃ fields, r.2.value = .record fields ∧ ("defaultValue", v) ∈ fields := by
  rcases Option.or_eq_some_iff.mp h with hgiven | ⟨-, hdescribed⟩
  · obtain ⟨⟨part, e⟩, hr, hgives⟩ := exists_of_lastOf hgiven
    cases part with
    | args =>
      obtain ⟨hvalue, hunmarked⟩ := unmarked?_eq_some_iff.mp hgives
      exact ⟨hvalue ▸ hunmarked, _, hr, .inl hvalue⟩
    | argTypes => cases hgives
  · obtain ⟨⟨part, e⟩, hr, hgives⟩ := exists_of_lastOf hdescribed
    obtain ⟨w, hfield, hw⟩ := Option.bind_eq_some_iff.mp hgives
    obtain ⟨rfl, hunmarked⟩ := unmarked?_eq_some_iff.mp hw
    unfold described? at hfield
    split at hfield
    · rename_i fields hpart hvalue
      exact ⟨hunmarked, _, hr, .inr ⟨fields, hvalue, Fields.mem_of_find? hfield⟩⟩
    · cases hfield

/-- A default value that is extracted is one that the entries give. -/
theorem exists_defaultOf_extract {p : Source.Program} {q : Property} (hq : q ∈ (extract p).properties)
    {v : Value} (hv : q.default = some v) :
    ∃ name, defaultOf (readings (locate p).candidates) name = some v := by
  rw [extract, (merge_reads _).properties] at hq
  obtain ⟨name, -, rfl⟩ := List.mem_map.mp hq
  exact ⟨name, hv⟩

theorem allStatic_extract (p : Source.Program) : Property.AllStatic (extract p).properties := by
  intro q hq v hv
  obtain ⟨name, hname⟩ := exists_defaultOf_extract hq hv
  exact (defaultOf_spec hname).1

end Story

/-! ### Manifests -/

theorem Component.exists_of_record? {r : ComponentRecord} (h : record? t s story = some r) :
    ∃ ds, assemble t s story = .ok (r, ds) := by
  cases hassemble : assemble t s story with
  | ok made =>
    obtain ⟨r', ds⟩ := made
    rw [record?_of_ok hassemble, Option.some.injEq] at h
    exact ⟨ds, by rw [h]⟩
  | error reason =>
    rw [record?_of_error hassemble] at h
    cases h

/-- The properties of every component that is built are those of some program. -/
theorem Build.exists_extract (h : Build.of? t s = some b) {r : ComponentRecord}
    (hr : r ∈ b.manifest.components) :
    ∃ p, r.props = (Story.extract p).properties := by
  obtain ⟨stories, -, rfl⟩ := Option.map_eq_some_iff.mp h
  rw [(Build.holds_ofStories t s stories).components] at hr
  obtain ⟨story, -, hrecord⟩ := List.mem_filterMap.mp hr
  obtain ⟨ds, hassemble⟩ := Component.exists_of_record? hrecord
  obtain ⟨file, v, text, p, -, -, -, -, rfl, -⟩ := Component.assemble_ok hassemble
  exact ⟨p, rfl⟩

theorem Build.allStatic (h : Build.of? t s = some b) :
    ∀ r ∈ b.manifest.components, Property.AllStatic r.props := by
  intro r hr
  obtain ⟨p, hprops⟩ := Build.exists_extract h hr
  rw [hprops]
  exact Story.allStatic_extract p

/-- Every manifest that is built has a text. -/
theorem Build.exists_text (h : Build.of? t s = some b) : ∃ text, b.manifest.text? = some text :=
  ⟨_, Manifest.text?_eq (Build.allStatic h)⟩

/-- The properties of a file that is extracted have a text. -/
theorem Story.exists_text_of_extractFile {e : Story.Extraction} (h : extractFile t story = .ok e) :
    ∃ text, Json.pretty (.list (e.properties.map Property.toValue)) = some text := by
  rw [extractFile] at h
  cases hprogram : readProgram t story with
  | error fault => rw [hprogram] at h; cases h
  | ok p =>
    rw [hprogram] at h
    obtain rfl := Except.ok.inj h
    have hstatic : ¬(Value.list ((extract p).properties.map Property.toValue)).Marked := by
      rw [Value.marked_list]
      rintro ⟨v, hv, hmarked⟩
      obtain ⟨q, hq, rfl⟩ := List.mem_map.mp hv
      exact Property.not_marked_toValue (allStatic_extract p q hq) hmarked
    exact ⟨_, Json.write_of_not_marked .indented 0 hstatic⟩

/-! ### Commands -/

namespace Command

theorem builtText_ne (t : FileTree) (s : BuildSettings) : builtText t s ≠ .error .notStatic := by
  unfold builtText
  cases hb : Build.of? t s with
  | none => simp
  | some b =>
    obtain ⟨text, htext⟩ := Build.exists_text hb
    simp [htext]

theorem strictFault_ne (strict : Bool) (b : Build) : strictFault strict b ≠ some .notStatic := by
  unfold strictFault
  split <;> simp

theorem writeFile_ne (t : FileTree) (file : Path) (text : String) :
    (writeFile t file text).2 ≠ some .notStatic := by
  unfold writeFile
  dsimp only
  split
  · simp
  · split <;> simp

theorem printManifest_ne (t : FileTree) (s : BuildSettings) (strict : Bool) :
    (printManifest t s strict).fault ≠ some .notStatic := by
  unfold printManifest
  split
  · rename_i fault hb
    rintro ⟨⟩
    exact builtText_ne t s hb
  · exact strictFault_ne strict _

theorem writeManifest_ne (t : FileTree) (s : BuildSettings) (output : Path) (strict : Bool) :
    (writeManifest t s output strict).fault ≠ some .notStatic := by
  unfold writeManifest
  split
  · rename_i fault hb
    rintro ⟨⟩
    exact builtText_ne t s hb
  · rename_i text hb
    have hwrite := writeFile_ne t output text
    split
    · rename_i fault hfault
      rw [hfault] at hwrite
      exact hwrite
    · exact strictFault_ne strict _

theorem generate_ne (t : FileTree) (root : Path) (dryRun strict : Bool) (o : CommandLine.CommonOptions) :
    (generate t root dryRun strict o).fault ≠ some .notStatic := by
  cases dryRun with
  | false => exact writeManifest_ne t _ _ strict
  | true => exact printManifest_ne t _ strict

theorem checkFile_ne (t : FileTree) (output : Path) (strict : Bool) (b : Build) (expected : String) :
    (checkFile t output strict b expected).fault ≠ some .notStatic := by
  unfold checkFile
  split
  · simp
  · split
    · simp
    · dsimp only
      split
      · exact strictFault_ne strict b
      · simp

theorem check_ne (t : FileTree) (root : Path) (strict : Bool) (o : CommandLine.CommonOptions) :
    (check t root strict o).fault ≠ some .notStatic := by
  unfold check
  dsimp only
  split
  · rename_i fault hb
    rintro ⟨⟩
    exact builtText_ne t _ hb
  · exact checkFile_ne _ _ _ _ _

theorem inspect_ne (t : FileTree) (root story : Path) : (inspect t root story).fault ≠ some .notStatic := by
  unfold inspect
  dsimp only
  split
  · simp
  · rename_i e he
    obtain ⟨text, htext⟩ := Story.exists_text_of_extractFile he
    simp [htext]

/-- A value has no text exactly when a marker occurs in it; no default value of a property that is extracted
from a program has one. So every manifest that is built has a text, and no command fails for want of one. -/
theorem markers_never_written :
    (∀ sp depth v, Json.write sp depth v = none ↔ ∃ kind, v.unsupportedKind = some kind) ∧
    (∀ v : Value, (∃ kind, v.unsupportedKind = some kind) ↔ v.Marked) ∧
    (∀ variant text p, Source.Program.ofText variant text = .ok p →
      ∀ q ∈ (Story.extract p).properties, ∀ v, q.default = some v → ¬v.Marked) ∧
    (∀ t s b, Build.of? t s = some b → ∃ text, b.manifest.text? = some text) ∧
    (∀ t root dryRun strict o, (generate t root dryRun strict o).fault ≠ some .notStatic) ∧
    (∀ t root strict o, (check t root strict o).fault ≠ some .notStatic) ∧
    ∀ t root story, (inspect t root story).fault ≠ some .notStatic :=
  ⟨Json.write_eq_none_iff, Value.exists_unsupportedKind_iff, fun _ _ p _ => Story.allStatic_extract p,
    fun _ _ _ => Build.exists_text, generate_ne, check_ne, inspect_ne⟩

theorem exists_of_isOk {ε α : Type} {x : Except ε α} (h : x.isOk = true) : ∃ a, x = .ok a := by
  cases x with
  | error e => cases h
  | ok a => exact ⟨a, rfl⟩

/-- The project of which one story has a value that cannot be evaluated has a manifest with a text. -/
theorem markers_never_written_shelfProject :
    (∃ p, Source.Program.ofText .typeScript "export default \x7bargs:\x7ba:b\x7d\x7d;" = .ok p ∧
      ∀ q ∈ (Story.extract p).properties, ∀ v, q.default = some v → ¬v.Marked) ∧
    ∃ b text, Build.of? shelfProject { directory := "lib" } = some b ∧ b.manifest.text? = some text := by
  have hprogram :
      (Source.Program.ofText .typeScript "export default \x7bargs:\x7ba:b\x7d\x7d;").isOk = true := by
    decide +kernel
  have hbuild : (Build.of? shelfProject { directory := "lib" }).isSome = true := by decide +kernel
  obtain ⟨-, -, hdefaults, htexts, -⟩ := markers_never_written
  obtain ⟨p, hp⟩ := exists_of_isOk hprogram
  obtain ⟨b, hb⟩ := Option.isSome_iff_exists.mp hbuild
  obtain ⟨text, htext⟩ := htexts _ _ b hb
  exact ⟨⟨p, hp, hdefaults _ _ p hp⟩, b, text, hb, htext⟩

end Command

end StoryManifest
