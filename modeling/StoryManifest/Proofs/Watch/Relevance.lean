import StoryManifest.Proofs.Building
import StoryManifest.Watch.Filter

/-!
Which files of components matter. The files that a manifest is made from, stories and implementations,
pass all tests of a watch but those for the output and for the patterns: a story that is found, and the
implementation that it has, matter exactly when they are not the output and no pattern covers them in
the way that a watch reads patterns. There a star goes across slashes, so it can cover a story that the
same pattern does not keep from being found.
-/

namespace StoryManifest

variable {t : FileTree} {p q story : Path} {name n extension : String} {ss : List Path.Step}

/-! ### Kinds of files -/

theorem Story.isStoryFile_of_steps (h : Path.steps p = ss ++ [.name name]) :
    isStoryFile p = isStoryName name := by simp [isStoryFile, Path.fileName?_of_steps h]

theorem Path.splitName_source (hn : n ≠ "") (hextension : extension ∈ Story.sourceExtensions) :
    splitName (n ++ "." ++ extension) = (n, some extension) := by
  refine splitName_dot hn ?_
  revert extension
  decide

theorem Story.isSourceFile_of_steps (h : Path.steps p = ss ++ [.name (n ++ "." ++ extension)]) (hn : n ≠ "")
    (hextension : extension ∈ sourceExtensions) : isSourceFile p = true := by
  simp [isSourceFile, Path.extension?, Path.fileName?_of_steps h, Path.splitName_source hn hextension,
    hextension]

/-- No implementation has the name of a directory that holds no sources. -/
theorem Component.notMem_generated_source (n : String) (hextension : extension ∈ Story.sourceExtensions) :
    n ++ "." ++ extension ∉ Ignore.generatedDirectories := by
  have hall : ∀ extension ∈ Story.sourceExtensions, ∀ name ∈ Ignore.generatedDirectories,
      ¬('.' :: extension.toList) <:+ name.toList := by decide
  intro hmem
  exact hall extension hextension _ hmem ⟨n.toList, by simp⟩

theorem Path.IsName.ne_empty (h : Path.IsName name) : name ≠ "" := by
  rintro rfl
  exact absurd h.notIdle (by decide)

/-! ### Where the implementation is -/

/-- A path with the moves of one that ends in a name ends in it too. -/
theorem Path.exists_steps_of_sameMoves (h : SameMoves p q) (hn : fileName? p = some n) :
    ∃ ss, steps q = ss ++ [.name n] := by
  obtain ⟨before, hmoves, hup⟩ := moves_of_fileName? hn
  refine ⟨lead q ++ before.map Step.ofMove, ?_⟩
  rw [steps_eq, ← h.moves_eq, hmoves, List.map_append, List.append_assoc]
  simp [Step.ofMove, hup]

/-- The implementation is one of those that are looked for. -/
theorem Component.exists_of_source? {file : Path} (h : source? t story = some file) :
    ∃ n extension, Path.fileName? (directoryOf story) = some n ∧ extension ∈ Story.sourceExtensions ∧
      file = Path.join (Path.tidy (directoryOf story)) (n ++ "." ++ extension) := by
  unfold source? at h
  cases hn : Path.fileName? (directoryOf story) with
  | none => simp [nameOf, hn] at h
  | some n =>
    simp only [nameOf, hn, Option.getD_some] at h
    split at h
    · cases h
    · obtain ⟨extension, hextension, rfl⟩ := List.mem_map.mp (List.mem_of_find?_eq_some h)
      exact ⟨n, extension, rfl, hextension, rfl⟩

theorem Component.directoryOf_sameMoves (directory : Path) (above : List String) (hname : Path.IsName name) :
    Path.SameMoves (directoryOf (Path.descend directory (above ++ [name])))
      (Path.descend directory above) := by
  obtain ⟨q, hparent, hsame⟩ := Path.parent?_join hname (Path.descend directory above)
  rwa [directoryOf, Path.descend_append, hparent, Option.getD_some]

variable {names : List String}

/-- A path of names is in no directory without sources when none of the names is that of one. -/
theorem Ignore.inGeneratedDirectory_eq_false (hsteps : Path.steps p = names.map .name)
    (hnames : ∀ name ∈ names, name ∉ generatedDirectories) : inGeneratedDirectory p = false := by
  rw [inGeneratedDirectory, hsteps, List.any_eq_false]
  intro step hstep
  obtain ⟨name, hname, rfl⟩ := List.mem_map.mp hstep
  exact fun hgenerated => hnames name hname (of_decide_eq_true hgenerated)

/-- The implementation is looked for by the names that lead to the directory of the story. -/
theorem Component.steps_source {directory : Path} {above : List String} (hisName : Path.IsName name)
    (habove : ∀ m ∈ above, Path.IsName m) (hne : directory ≠ "") (hdot : ¬Path.StartsHere directory)
    (hn : Path.IsName n) (hextension : extension ∈ Story.sourceExtensions) :
    Path.steps (Path.join (Path.tidy (directoryOf (Path.descend directory (above ++ [name]))))
      (n ++ "." ++ extension)) = Path.steps directory ++ (above ++ [n ++ "." ++ extension]).map .name := by
  -- It is looked for in the tidied directory, which is written in another way but has the same steps.
  have hlead : Path.lead (Path.descend directory above) =
      if Path.isAbsolute (Path.descend directory above) then [.root] else [] := by
    rw [Path.lead_descend habove hne, Path.isAbsolute_descend habove, Path.lead_of_not_startsHere hdot]
  have htidy := Path.steps_tidy (directoryOf_sameMoves directory above hisName) hlead
  rw [Path.steps_descend habove hne] at htidy
  have hne' : Path.tidy (directoryOf (Path.descend directory (above ++ [name]))) ≠ "" := by
    intro hempty
    rw [hempty] at htidy
    exact Path.steps_ne_nil hne (List.append_eq_nil_iff.mp htidy.symm).1
  rw [Path.steps_join (isName_source hn hextension) hne', htidy]
  simp

namespace Watch

variable {f : Filter}

/-! ### What a watch lets through -/

/-- A story or an implementation that is in no directory without sources matters when it is not the
output and no pattern covers it. -/
theorem Filter.isRelevant_iff (hdirectory : f.directory ≠ "")
    (hsteps : Path.steps p = Path.steps f.directory ++ names.map .name)
    (hnames : ∀ name ∈ names, name ∉ Ignore.generatedDirectories)
    (hkind : Story.isStoryFile p = true ∨ Story.isSourceFile p = true) :
    f.isRelevant p = true ↔ Path.same p f.output = false ∧
      (Path.same p f.settings = true ∨
        ∃ rest, Path.below? f.directory p = some rest ∧ isExcluded f.patterns rest = false) := by
  obtain ⟨rest, hrest, hsteps⟩ := Path.exists_below? (Path.steps_ne_nil hdirectory) hsteps
  have hgenerated := Ignore.inGeneratedDirectory_eq_false hsteps hnames
  have hadmits : f.admits p rest = !isExcluded f.patterns rest := by
    rcases hkind with hkind | hkind <;> simp [admits, hgenerated, hkind]
  rw [isRelevant]
  cases Path.same p f.output <;> cases Path.same p f.settings <;> simp [hrest, hadmits]

/-! ### What is found -/

section

variable {root : Path} {o : CommandLine.CommonOptions} {c : Configuration} {stories : List Path}

/-- A story that is found, or its implementation, has the steps of names below the directory. -/
theorem exists_names (hwf : t.WellFormed) {s : BuildSettings}
    (habsolute : Path.isAbsolute s.directory = true)
    (hstories : discover? t s.exclusion s.directory = some stories) (hstory : story ∈ stories)
    (hp : p = story ∨ Component.source? t story = some p) :
    ∃ names : List String, Path.steps p = Path.steps s.directory ++ names.map .name ∧
      (∀ name ∈ names, name ∉ Ignore.generatedDirectories) ∧
      (Story.isStoryFile p = true ∨ Story.isSourceFile p = true) := by
  obtain ⟨base, hbase, -, -⟩ := discover?_some hstories
  obtain ⟨names, hmem, hreaches, rfl⟩ := (mem_stories hstories hbase).mp hstory
  obtain ⟨above, name, rfl, hname⟩ := exists_name_of_reachesStory hreaches
  have hisName := isName_of_mem_filesBelow hwf hmem
  have habove : ∀ n ∈ above, Path.IsName n := fun n hn => hisName n (List.mem_append_left _ hn)
  have hne := FileTree.ne_empty_of_locate hbase
  have hgenerated := Ignore.notMem_generated_of_reaches (Bool.and_eq_true_iff.mp hreaches).2
  rcases hp with rfl | hp
  · have hsteps := Path.steps_descend hisName hne
    refine ⟨above ++ [name], hsteps, hgenerated, .inl ?_⟩
    rw [List.map_append, ← List.append_assoc] at hsteps
    rw [Story.isStoryFile_of_steps hsteps, hname]
  · obtain ⟨n, extension, hn, hextension, rfl⟩ := Component.exists_of_source? hp
    have hsteps := Component.steps_source (hisName name (by simp)) habove hne
      (Path.not_startsHere_of_isAbsolute habsolute) (Path.isName_of_fileName? hn) hextension
    refine ⟨above ++ [n ++ "." ++ extension], hsteps, ?_, .inr ?_⟩
    · exact List.forall_mem_append.mpr ⟨fun m hm => hgenerated m (List.mem_append_left _ hm),
        List.forall_mem_singleton.mpr (Component.notMem_generated_source n hextension)⟩
    · rw [List.map_append, ← List.append_assoc] at hsteps
      exact Story.isSourceFile_of_steps hsteps (Path.isName_of_fileName? hn).ne_empty hextension

/-- A story that is found below a directory with an absolute path, and the implementation of such a
story, matters exactly when it is not the output and no pattern covers it; the settings always matter. -/
theorem discovered_isRelevant_iff (hwf : t.WellFormed)
    (habsolute : Path.isAbsolute (o.settings root c).directory = true)
    (hstories : discover? t (o.settings root c).exclusion (o.settings root c).directory = some stories)
    (hstory : story ∈ stories) (hp : p = story ∨ Component.source? t story = some p) :
    (Filter.ofOptions root o c).isRelevant p = true ↔ Path.same p (o.outputPath root c) = false ∧
      (Path.same p (Path.join root Configuration.fileName) = true ∨
        ∃ rest, Path.below? (o.settings root c).directory p = some rest ∧
          isExcluded (o.settings root c).exclusion.patterns rest = false) := by
  obtain ⟨base, hbase, -, -⟩ := discover?_some hstories
  obtain ⟨names, hsteps, hgenerated, hkind⟩ := exists_names hwf habsolute hstories hstory hp
  exact Filter.isRelevant_iff (FileTree.ne_empty_of_locate hbase) hsteps hgenerated hkind

end

/-- A project with a component two directories down. -/
def formsProject : FileTree :=
  { nodes := [(["components"], .directory), (["components", "forms"], .directory),
      (["components", "forms", "Input"], .directory),
      (["components", "forms", "Input", "Input.stories.tsx"], .file (.text "export default \x7b\x7d;")),
      (["components", "forms", "Input", "Input.tsx"], .file (.text ""))]
    current := [] }

theorem wellFormed_formsProject : formsProject.WellFormed := by decide +kernel

theorem discover?_formsProject : discover? formsProject { } "/components" =
    some ["/components/forms/Input/Input.stories.tsx"] := by decide +kernel

theorem source?_formsProject : Component.source? formsProject "/components/forms/Input/Input.stories.tsx" =
    some "/components/forms/Input/Input.tsx" := by decide +kernel

theorem discovered_isRelevant_iff_formsProject :
    Path.isAbsolute "/components" = true ∧
    ((Filter.ofOptions "/" { exclude := ["Legacy/**"] } { }).isRelevant
      "/components/forms/Input/Input.tsx" = true ↔
      Path.same "/components/forms/Input/Input.tsx" "/wmprefab.config.json" = false ∧
        (Path.same "/components/forms/Input/Input.tsx" "/prefab.toml" = true ∨
          ∃ rest, Path.below? "/components" "/components/forms/Input/Input.tsx" = some rest ∧
            isExcluded ["Legacy/**"] rest = false)) := by
  have hstories : discover? formsProject ⟨["Legacy/**"], true⟩ "/components" =
      some ["/components/forms/Input/Input.stories.tsx"] := by decide +kernel
  exact ⟨by decide, discovered_isRelevant_iff wellFormed_formsProject (by decide) hstories (by simp)
    (.inr source?_formsProject)⟩

/-- A pattern for the files of one directory does not keep a story further down from being found, but
neither the story nor its implementation matters to a watch with the same pattern. -/
theorem isRelevant_formsProject_false : formsProject.WellFormed ∧
    discover? formsProject ⟨["forms/*.tsx"], true⟩ "/components" =
      some ["/components/forms/Input/Input.stories.tsx"] ∧
    Component.source? formsProject "/components/forms/Input/Input.stories.tsx" =
      some "/components/forms/Input/Input.tsx" ∧
    Path.same "/components/forms/Input/Input.stories.tsx" "/wmprefab.config.json" = false ∧
    (Filter.ofOptions "/" { exclude := ["forms/*.tsx"] } { }).isRelevant
      "/components/forms/Input/Input.stories.tsx" = false ∧
    (Filter.ofOptions "/" { exclude := ["forms/*.tsx"] } { }).isRelevant
      "/components/forms/Input/Input.tsx" = false :=
  ⟨wellFormed_formsProject, by decide +kernel, source?_formsProject, by decide +kernel, by decide +kernel,
    by decide +kernel⟩

end Watch

end StoryManifest
