import StoryManifest.Proofs.Command.Agreement
import StoryManifest.Proofs.Command.Serialization
import StoryManifest.Proofs.Extraction
import StoryManifest.Proofs.Literal.Numbers
import StoryManifest.Proofs.Manifest.Acceptance

/-!
Whether a manifest that was written is read again. The default values are values of expressions or of their
members, so nothing but their brackets can keep them from being read; neither evaluation nor writing bounds
how deep these nest, and reading does. So a manifest is accepted exactly when no default value nests too
deep, and where one does, checking finds no valid manifest once the text is out of date.
-/

namespace StoryManifest

open Json (depthLimit)

/-! ### Stories -/

namespace Story

variable {p : Source.Program} {d : Declaration} {c : Candidate} {e : CandidateEntry}

theorem exists_evaluate_of_candidateOf {label : String} {part : Part} {n : Source.Node}
    (hc : c ∈ (candidateOf p d label part n).1) (he : e ∈ c.entries) :
      ∃ m, e.value = Literal.evaluate m := by
  unfold candidateOf at hc
  split at hc
  · obtain rfl := List.mem_singleton.mp hc
    obtain ⟨entry, -, hentry⟩ := List.mem_filterMap.mp he
    obtain ⟨name, -, rfl⟩ := Option.map_eq_some_iff.mp hentry
    exact ⟨_, rfl⟩
  · cases hc

theorem exists_evaluate_of_candidatesOf (hc : c ∈ (candidatesOf p d).1) (he : e ∈ c.entries) :
    ∃ m, e.value = Literal.evaluate m := by
  unfold candidatesOf at hc
  split at hc
  · exact exists_evaluate_of_candidateOf hc he
  · split at hc
    · obtain ⟨found, hfound, hc⟩ := List.mem_flatMap.mp hc
      obtain ⟨part, -, rfl⟩ := List.mem_map.mp hfound
      exact exists_evaluate_of_candidateOf hc he
    · cases hc

/-- The entries that are located hold values of expressions. -/
theorem exists_evaluate {r : Reading} (hr : r ∈ readings (locate p).candidates) :
    ∃ m, r.2.value = Literal.evaluate m := by
  obtain ⟨c, hc, hr⟩ := List.mem_flatMap.mp hr
  obtain ⟨e, he, rfl⟩ := List.mem_map.mp hr
  obtain ⟨found, hfound, hc⟩ := List.mem_flatMap.mp (List.mem_mergeSort.mp hc)
  obtain ⟨d, -, rfl⟩ := List.mem_map.mp hfound
  exact exists_evaluate_of_candidatesOf hc he

/-- Nothing but its brackets can keep a default value that is extracted from being read. -/
theorem legible_extract (p : Source.Program) : ∀ q ∈ (extract p).properties, q.Legible := by
  intro q hq v hv
  obtain ⟨name, hname⟩ := exists_defaultOf_extract hq hv
  obtain ⟨hunmarked, r, hr, hvalue⟩ := defaultOf_spec hname
  refine ⟨hunmarked, fun n hn => ?_⟩
  obtain ⟨m, hm⟩ := exists_evaluate hr
  have hfits := Literal.numbersFit_evaluate m
  rw [← hm] at hfits
  rcases hvalue with rfl | ⟨fields, hfields, hmem⟩
  · exact hfits n hn
  · rw [hfields] at hfits
    exact hfits n (.field hmem hn)

end Story

/-! ### Manifests -/

variable {t t' : FileTree} {s : BuildSettings} {b b' : Build} {root : Path} {text expected : String}

theorem Build.legible (h : Build.of? t s = some b) : b.manifest.Legible := by
  intro r hr
  obtain ⟨p, hprops⟩ := Build.exists_extract h hr
  rw [hprops]
  exact Story.legible_extract p

/-- The text of a manifest that was built is accepted exactly when no default value nests too deep. -/
theorem Build.accepted_iff (h : Build.of? t s = some b) (htext : b.manifest.text? = some text) :
    (∃ m, Manifest.ofText text = .ok m) ↔ b.manifest.NestsWithin (depthLimit - 5) := by
  obtain ⟨text', htext', hiff⟩ := Manifest.accepted_iff (Build.legible h)
  obtain rfl := Option.some.inj (htext.symm.trans htext')
  exact hiff

/-! ### Checking -/

namespace Command

open CommandLine (CommonOptions)
open FileTree (Gains)

/-- What checking leaves behind where the manifest file is out of date. -/
def staleOutcome (t : FileTree) (output : Path) (b : Build) (difference : String) : Outcome :=
  { tree := t
    printed := difference ++ line b.summary
    warnings := b.warnings
    fault := some (.stale output) }

/-- What is said of a file that holds no manifest. -/
def invalidText (output : Path) : String := line ("changed: " ++ output ++ " is not a valid manifest")

theorem check_of_stale (strict : Bool) {o : CommonOptions}
    (hbuilt : builtText t (settingsOf t root o) = .ok (b, expected))
    (hread : t.readText (outputOf t root o) = .ok text) (hstale : text ≠ expected) :
    check t root strict o =
      staleOutcome t (outputOf t root o) b
        (differenceText (outputOf t root o) text expected b.manifest) := by
  rw [check_of_ok hbuilt]
  simp [checkFile, FileTree.holds_of_readText hread, hread, hstale, staleOutcome]

theorem differenceText_of_ok {output : Path} {m current : Manifest} (h : Manifest.ofText text = .ok current)
    (hstale : text ≠ expected) :
    differenceText output text expected m = comparisonText (Comparison.of current m) := by
  simp [differenceText, hstale, h]

theorem differenceText_of_error {output : Path} {m : Manifest}
    (h : ¬∃ current, Manifest.ofText text = .ok current)
    (hstale : text ≠ expected) : differenceText output text expected m = invalidText output := by
  cases hof : Manifest.ofText text with
  | ok current => exact absurd ⟨current, hof⟩ h
  | error fault => simp [differenceText, hstale, hof, invalidText]

/-! ### Lists inside one another -/

/-- A project with one component. -/
def rowsProject (story : String) : FileTree :=
  { nodes := [(["components"], .directory), (["components", "Rows"], .directory),
      (["components", "Rows", "Rows.ts"], .file (.text "")),
      (["components", "Rows", "Rows.stories.ts"], .file (.text story))]
    current := [] }

/-- A story with a default value of lists inside one another. -/
def nestedStory (depth : Nat) : String :=
  "export default \x7bargs:\x7brows:" ++
    String.ofList (List.replicate depth '[' ++ List.replicate depth ']') ++
    "\x7d\x7d;"

/-- A list with no items, so many lists deep. -/
def listWithin : Nat → Value
  | 0 => .list []
  | depth + 1 => .list [listWithin depth]

theorem nesting_listWithin (depth : Nat) : (listWithin depth).nesting = depth + 1 := by
  induction depth with
  | zero => rfl
  | succ depth ih => simp [listWithin, Value.nesting, Value.nestingOfItems, ih]

theorem plain_listWithin (fits : Int → Prop) (depth : Nat) : (listWithin depth).Plain fits := by
  induction depth with
  | zero => exact .list (by simp)
  | succ depth ih => exact .list (by simpa using ih)

theorem chars_listWithin (depth : Nat) : ∀ outer, Json.chars .compact outer (listWithin depth) =
    List.replicate (depth + 1) '[' ++ List.replicate (depth + 1) ']' := by
  induction depth with
  | zero => exact fun _ => rfl
  | succ depth ih =>
    intro outer
    have hrow : Json.chars .compact outer (listWithin (depth + 1)) =
        '[' :: (Json.chars .compact (outer + 1) (listWithin depth) ++ [']']) := rfl
    rw [hrow, ih, List.append_assoc, ← List.replicate_succ']
    rfl

/-- The characters of the story, by the parts that reading goes through. -/
def nestedStoryChars (depth : Nat) : List Char :=
  Source.defaultExportChars (Source.oneMemberChars Source.argsWord
    (Source.oneMemberChars ['r', 'o', 'w', 's'] (Json.chars .compact 0 (listWithin depth))))

theorem nestedStory_eq (depth : Nat) : nestedStory (depth + 1) = String.ofList (nestedStoryChars depth) := by
  have h : nestedStory (depth + 1) = String.ofList (Source.exportWord ++ ' ' :: (Source.defaultWord ++ ' ' ::
        '\x7b' :: (Source.argsWord ++ ':' :: '\x7b' :: ['r', 'o', 'w', 's', ':']))) ++
      String.ofList (List.replicate (depth + 1) '[' ++ List.replicate (depth + 1) ']') ++
      String.ofList ['\x7d', '\x7d', ';'] := rfl
  rw [h, ← String.ofList_append, ← String.ofList_append, ← chars_listWithin depth 0]
  congr 1
  simp only [nestedStoryChars, Source.defaultExportChars, Source.oneMemberChars, List.append_assoc,
    List.cons_append, List.nil_append]

/-- In every variant the story is a program with the lists as the default value of its only property. -/
theorem exists_program_nestedStory (v : Source.Variant) (depth : Nat) : ∃ p,
    Source.Program.ofText v (nestedStory (depth + 1)) = .ok p ∧
      (Story.extract p).properties = [Story.describedProperty "rows" (some (listWithin depth)) none] := by
  have hplain := plain_listWithin Source.FitsReal depth
  have hmodifier : "rows" ∉ Source.Grammar.methodModifiers v := by cases v <;> decide
  obtain ⟨place, n, hexport, hprogram⟩ := Source.ofText_argument (by decide) hmodifier hplain rfl
  obtain ⟨args, ds, hlocate, hargs⟩ := Story.locate_exportArgs v (nestedStoryChars depth) place hexport
  rw [nestedStory_eq]
  refine ⟨_, hprogram, ?_⟩
  rw [Story.extract]
  have hfound := Story.properties_merge_argument hargs hplain.not_marked
  rw [← hfound]
  exact congrArg (fun found => (Story.merge found.candidates).properties) hlocate

/-- The story is built into the one component. -/
theorem exists_build_rowsProject {s : BuildSettings} {story : String} {p : Source.Program}
    (hprogram : Source.Program.ofText .typeScript story = .ok p)
    (hstories : discover? (rowsProject story) s.exclusion s.directory =
      some ["/components/Rows/Rows.stories.ts"]) :
    ∃ b, Build.of? (rowsProject story) s = some b ∧ b.manifest.components =
      [Component.recordOf s "Rows" "/components/Rows/Rows.ts" (Story.extract p).properties] := by
  have hname : Component.nameOf "/components/Rows/Rows.stories.ts" = "Rows" := rfl
  have hsource : Component.source? (rowsProject story) "/components/Rows/Rows.stories.ts" =
      some "/components/Rows/Rows.ts" := rfl
  have hread : (rowsProject story).readText "/components/Rows/Rows.stories.ts" = .ok story := rfl
  have hvariant : Story.variantOf "/components/Rows/Rows.stories.ts" = .ok .typeScript := rfl
  have hassemble := Component.assemble_eq_match (rowsProject story) s "/components/Rows/Rows.stories.ts"
  simp only [hname, hsource, hvariant, hread, hprogram] at hassemble
  have hcomponents :=
    (Build.holds_ofStories (rowsProject story) s ["/components/Rows/Rows.stories.ts"]).components
  rw [List.filterMap_cons_some (Component.record?_of_ok hassemble), List.filterMap_nil] at hcomponents
  exact ⟨_, Build.of?_of_discover? hstories, hcomponents⟩

/-- What is built from lists inside one another nests as deep as they do. -/
theorem exists_build_nestedStory {s : BuildSettings} {depth : Nat}
    (hstories : discover? (rowsProject (nestedStory (depth + 1))) s.exclusion s.directory =
      some ["/components/Rows/Rows.stories.ts"]) :
    ∃ b, Build.of? (rowsProject (nestedStory (depth + 1))) s = some b ∧
      (∀ r ∈ b.manifest.components, r.DefaultsWithin (depth + 1)) ∧
      ∀ limit, b.manifest.NestsWithin limit ↔ depth + 1 ≤ limit := by
  obtain ⟨p, hprogram, hproperties⟩ := exists_program_nestedStory .typeScript depth
  obtain ⟨b, hb, hcomponents⟩ := exists_build_rowsProject hprogram hstories
  rw [hproperties] at hcomponents
  refine ⟨b, hb, ?_, fun limit => ?_⟩
  · simp [hcomponents, ComponentRecord.DefaultsWithin, Component.recordOf, Story.describedProperty,
      nesting_listWithin, plain_listWithin]
  · simp [Manifest.NestsWithin, hcomponents, ComponentRecord.NestsWithin, Component.recordOf,
      Property.NestsWithin, Story.describedProperty, nesting_listWithin]

/-- The project with an empty story. -/
def emptyProject : FileTree := rowsProject "export default \x7b\x7d;"

theorem exists_build_emptyProject : ∃ b, Build.of? emptyProject (settingsOf emptyProject "/" { }) = some b ∧
    (∀ r ∈ b.manifest.components, r.DefaultsWithin 0) ∧ ∀ limit, b.manifest.NestsWithin limit := by
  have hstories : discover? emptyProject (settingsOf emptyProject "/" { }).exclusion
      (settingsOf emptyProject "/" { }).directory = some ["/components/Rows/Rows.stories.ts"] := by
    decide +kernel
  have hextracted : ((Source.Program.ofText .typeScript "export default \x7b\x7d;").toOption.map fun p =>
      (Story.extract p).properties.isEmpty) = some true := by decide +kernel
  cases hprogram : Source.Program.ofText .typeScript "export default \x7b\x7d;" with
  | error fault =>
    rw [hprogram] at hextracted
    cases hextracted
  | ok p =>
    rw [hprogram] at hextracted
    have hproperties : (Story.extract p).properties = [] := List.isEmpty_iff.mp (Option.some.inj hextracted)
    obtain ⟨b, hb, hcomponents⟩ := exists_build_rowsProject hprogram hstories
    rw [hproperties] at hcomponents
    refine ⟨b, hb, ?_, fun limit => ?_⟩
    · simp [hcomponents, ComponentRecord.DefaultsWithin, Component.recordOf]
    · simp [Manifest.NestsWithin, hcomponents, ComponentRecord.NestsWithin, Component.recordOf]

/-- The project after its story became an empty one, with a text in its manifest file. -/
def emptiedProject (text : String) : FileTree :=
  emptyProject.put ["wmprefab.config.json"] (.file (.text text))

/-- The text in the manifest file matters to no build. -/
theorem emptiedProject_spec
    (hb : builtText emptyProject (settingsOf emptyProject "/" { }) = .ok (b, expected))
    (text : String) : outputOf (emptiedProject text) "/" { } = "/wmprefab.config.json" ∧
      builtText (emptiedProject text) (settingsOf (emptiedProject text) "/" { }) = .ok (b, expected) ∧
      (emptiedProject text).readText "/wmprefab.config.json" = .ok text := by
  have hwf : emptyProject.WellFormed := by decide +kernel
  have houtput : outputOf emptyProject "/" { } = "/wmprefab.config.json" := by decide +kernel
  have hlocate : emptyProject.locate "/wmprefab.config.json" = .ok ([] ++ ["wmprefab.config.json"]) := by
    decide +kernel
  have hsettings : emptyProject.locate (Path.join "/" Configuration.fileName) = .ok ["prefab.toml"] := by
    decide +kernel
  have hfree : emptyProject.get? ["wmprefab.config.json"] ≠ some .directory := by decide +kernel
  have hgains : Gains ([] ++ ["wmprefab.config.json"]) emptyProject (emptiedProject text) :=
    (FileTree.Extends.refl emptyProject).gains hfree (.text text)
  have hinput : ¬BuildInput (emptiedProject text) "/" ([] ++ ["wmprefab.config.json"]) :=
    not_buildInput_of_gains hgains hsettings (by decide) (by decide +kernel)
  obtain ⟨hsame, hbuilt⟩ := built_of_gains hwf (fun hup => absurd hup (by decide +kernel)) hgains hinput hb
  refine ⟨hsame.trans houtput, hbuilt, ?_⟩
  have htext : (emptiedProject text).get? ["wmprefab.config.json"] = some (.file (.text text)) := by
    rw [emptiedProject, FileTree.get?_put (by simp), if_pos rfl]
  simp only [FileTree.readText, hgains.locate hlocate, List.nil_append, htext]

/-! ### What is read again -/

/-- A manifest that is built has a text, which is accepted exactly when no default value nests deeper than
the limit of the reader and the five brackets around it allow. Where a later check finds this text in the
manifest file while another one is due, it compares the components if the text is accepted, and says that
the file holds no valid manifest if not. -/
theorem written_accepted_iff (h : Build.of? t s = some b) : ∃ text, b.manifest.text? = some text ∧
    ((∃ m, Manifest.ofText text = .ok m) ↔ b.manifest.NestsWithin (depthLimit - 5)) ∧
    ∀ (t' : FileTree) (root : Path) (strict : Bool) (o : CommonOptions) (b' : Build) (expected : String),
      builtText t' (settingsOf t' root o) = .ok (b', expected) →
      t'.readText (outputOf t' root o) = .ok text → text ≠ expected →
      (b.manifest.NestsWithin (depthLimit - 5) → ∃ current, Manifest.ofText text = .ok current ∧
        check t' root strict o = staleOutcome t' (outputOf t' root o) b'
          (comparisonText (Comparison.of current b'.manifest))) ∧
      (¬b.manifest.NestsWithin (depthLimit - 5) →
        check t' root strict o = staleOutcome t' (outputOf t' root o) b'
          (invalidText (outputOf t' root o))) := by
  obtain ⟨text, htext⟩ := Build.exists_text h
  have hiff := Build.accepted_iff h htext
  refine ⟨text, htext, hiff, fun t' root strict o b' expected hbuilt hread hstale => ?_⟩
  rw [check_of_stale strict hbuilt hread hstale]
  constructor
  · intro hnests
    obtain ⟨current, hcurrent⟩ := hiff.mpr hnests
    exact ⟨current, hcurrent, by rw [differenceText_of_ok hcurrent hstale]⟩
  · intro hdeep
    have hrejected : ¬∃ m, Manifest.ofText text = .ok m := fun haccepted => hdeep (hiff.mp haccepted)
    rw [differenceText_of_error hrejected hstale]

theorem written_accepted_iff_nestedStory : ∃ b text b' expected current,
    Build.of? (rowsProject (nestedStory 1)) (settingsOf emptyProject "/" { }) = some b ∧
      b.manifest.text? = some text ∧
      builtText (emptiedProject text) (settingsOf (emptiedProject text) "/" { }) = .ok (b', expected) ∧
      text ≠ expected ∧ Manifest.ofText text = .ok current ∧
      check (emptiedProject text) "/" false { } =
        staleOutcome (emptiedProject text) "/wmprefab.config.json" b'
        (comparisonText (Comparison.of current b'.manifest)) := by
  have hstories : discover? (rowsProject (nestedStory (0 + 1))) (settingsOf emptyProject "/" { }).exclusion
      (settingsOf emptyProject "/" { }).directory = some ["/components/Rows/Rows.stories.ts"] := by
    decide +kernel
  obtain ⟨b, hb, hplain, hnests⟩ := exists_build_nestedStory hstories
  obtain ⟨b', hb', hplain', hnests'⟩ := exists_build_emptyProject
  obtain ⟨text, htext, -, hcheck⟩ := written_accepted_iff hb
  obtain ⟨expected, hexpected⟩ := Build.exists_text hb'
  have hstale : text ≠ expected := by
    rintro rfl
    have hsame : b.manifest = b'.manifest := Manifest.eq_of_text?
      (fun r hr => .mono (hplain r hr) (by decide)) (fun r hr => .mono (hplain' r hr) (by decide)) htext
        hexpected
    exact absurd ((hnests 0).mp (hsame ▸ hnests' 0)) (by decide)
  obtain ⟨houtput, hbuilt, hread⟩ := emptiedProject_spec (builtText_ok_iff.mpr ⟨hb', hexpected⟩) text
  have hlater := hcheck (emptiedProject text) "/" false { } b' expected hbuilt
  rw [houtput] at hlater
  obtain ⟨current, hcurrent, hcompared⟩ := (hlater hread hstale).1 ((hnests _).mpr (by decide))
  exact ⟨b, text, b', expected, current, hb, htext, hbuilt, hstale, hcurrent, hcompared⟩

/-- A default value of 123 lists inside one another is written and not accepted again: once the story
changes, checking says that the file it reads, which was written before, holds no valid manifest. -/
theorem check_rejects_written : ∃ b text b',
    Build.of? (rowsProject (nestedStory 123)) (settingsOf emptyProject "/" { }) = some b ∧
      b.manifest.text? = some text ∧ (∀ m, Manifest.ofText text ≠ .ok m) ∧
      check (emptiedProject text) "/" false { } =
        staleOutcome (emptiedProject text) "/wmprefab.config.json" b'
        (invalidText "/wmprefab.config.json") := by
  have hstories : discover? (rowsProject (nestedStory (122 + 1))) (settingsOf emptyProject "/" { }).exclusion
      (settingsOf emptyProject "/" { }).directory = some ["/components/Rows/Rows.stories.ts"] := by
    decide +kernel
  obtain ⟨b, hb, -, hnests⟩ := exists_build_nestedStory hstories
  obtain ⟨b', hb', -, hnests'⟩ := exists_build_emptyProject
  obtain ⟨text, htext⟩ := Build.exists_text hb
  obtain ⟨expected, hexpected⟩ := Build.exists_text hb'
  have hdeep : ¬b.manifest.NestsWithin (depthLimit - 5) := fun h => absurd ((hnests _).mp h) (by decide)
  have hrejected : ¬∃ m, Manifest.ofText text = .ok m := fun h => hdeep ((Build.accepted_iff hb htext).mp h)
  have haccepted := (Build.accepted_iff hb' hexpected).mpr (hnests' _)
  have hstale : text ≠ expected := by
    rintro rfl
    exact hrejected haccepted
  obtain ⟨houtput, hbuilt, hread⟩ := emptiedProject_spec (builtText_ok_iff.mpr ⟨hb', hexpected⟩) text
  rw [← houtput] at hread
  have hcheck := check_of_stale false hbuilt hread hstale
  rw [differenceText_of_error hrejected hstale, houtput] at hcheck
  exact ⟨b, text, b', hb, htext, not_exists.mp hrejected, hcheck⟩

end Command

end StoryManifest
