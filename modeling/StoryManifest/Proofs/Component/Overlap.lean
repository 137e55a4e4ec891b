import StoryManifest.Proofs.Component.Implementation

/-!
Implementations that are stories. An implementation is found by the name of a directory and a story by
its own name, so the two meet where the name of the directory goes on as those of stories do: in such a
directory, and in no other, the implementation that is found is itself a story, perhaps the one that it
was looked for. What the manifest shows ends in the name of the implementation, so it shows a story in
the same cases.
-/

namespace StoryManifest

variable {t : FileTree} {p q base : Path} {names : List String} {name n extension : String}
    {ss : List Path.Step}

/-! ### Paths with the same steps -/

/-- The piece that makes a step, if the step moves somewhere. -/
def Path.Step.move? : Step → Option (List Char)
  | .up => some ['.', '.']
  | .name name => some name.toList
  | _ => none

theorem Path.Step.move?_ofMove (piece : List Char) : move? (ofMove piece) = some piece := by
  rw [ofMove]
  split
  · rename_i hup
    rw [move?, hup]
  · simp [move?]

theorem Path.moves_eq_of_steps (p : Path) : moves p = (steps p).filterMap Step.move? := by
  have hlead : (lead p).filterMap Step.move? = [] := by
    rw [lead]
    split
    · rfl
    · split <;> rfl
  rw [steps_eq, List.filterMap_append, hlead, List.nil_append, List.filterMap_map]
  simp [Step.move?_ofMove]

theorem Path.isAbsolute_iff_root_mem : isAbsolute p = true ↔ .root ∈ steps p := by
  have hmoves : .root ∉ (moves p).map Step.ofMove := by
    rw [List.mem_map]
    rintro ⟨piece, -, hpiece⟩
    have hmove := Step.move?_ofMove piece
    rw [hpiece] at hmove
    cases hmove
  rw [steps_eq, List.mem_append, or_iff_left hmoves, lead]
  cases isAbsolute p with
  | true => simp
  | false =>
    simp only [Bool.false_eq_true, if_false, false_iff]
    split <;> simp

/-- Paths with the same steps make the same moves. -/
theorem Path.sameMoves_of_steps (h : steps p = steps q) : SameMoves p q where
  moves_eq := by rw [moves_eq_of_steps, moves_eq_of_steps, h]
  isAbsolute_eq := by rw [Bool.eq_iff_iff, isAbsolute_iff_root_mem, isAbsolute_iff_root_mem, h]

/-! ### Names that shown paths end in -/

theorem Path.fileName?_slash (hname : IsName name) (p : Path) :
    fileName? (p ++ "/" ++ name) = some name := by
  have hsplit : splitSlash (p ++ "/" ++ name).toList = splitSlash p.toList ++ [name.toList] := by
    rw [← splitSlash_of_noSlash hname.noSlash]
    simpa using splitSlash_append p.toList name.toList
  have hmoves : moves (p ++ "/" ++ name) = (splitSlash p.toList).filter (!isIdle ·) ++ [name.toList] := by
    rw [moves, hsplit, List.filter_append]
    simp [hname.notIdle]
  refine @fileName?_of_steps _ _
    (lead (p ++ "/" ++ name) ++ ((splitSlash p.toList).filter (!isIdle ·)).map Step.ofMove) ?_
  rw [steps_eq, hmoves, List.map_append, ← List.append_assoc]
  simp [Step.ofMove_name hname]

/-- What is left of a path below another one ends as the path does, when something is left. -/
theorem Path.fileName?_below (hbase : base ≠ "") (hne : steps p ≠ steps base) :
    fileName? ((below? base p).getD p) = fileName? p := by
  by_cases hbegins : (steps base).isPrefixOf (steps p) = true
  · obtain ⟨ss, hss⟩ := List.isPrefixOf_iff_prefix.mp hbegins
    obtain ⟨rest, hrest, hsteps⟩ := exists_below? (steps_ne_nil hbase) hss.symm
    have hleft : ss ≠ [] := by
      rintro rfl
      exact hne (by simpa using hss.symm)
    rw [hrest, Option.getD_some, fileName?, fileName?, hsteps, ← hss, List.getLast?_append_of_ne_nil _ hleft]
  · rw [below?, if_neg hbegins, Option.getD_none]

theorem Path.exists_steps_of_fileName? (h : fileName? p = some name) : ∃ ss, steps p = ss ++ [.name name] :=
  exists_steps_of_sameMoves ⟨rfl, rfl⟩ h

/-- The manifest shows a file by a path that ends in its name. -/
theorem Component.fileName?_includePath (hbase : base ≠ "") (hne : Path.steps p ≠ Path.steps base)
    (hname : Path.fileName? p = some name) : Path.fileName? (includePath base p) = some name := by
  obtain ⟨ss, hss⟩ := Path.exists_steps_of_fileName? ((Path.fileName?_below hbase hne).trans hname)
  have hisName := Path.isName_of_fileName? hname
  rw [includePath, hss, List.map_append, List.map_singleton, Path.Step.text]
  by_cases hnil : ss.map Path.Step.text = []
  · rw [hnil, List.nil_append, String.intercalate_singleton]
    exact Path.fileName?_slash hisName "."
  · rw [String.intercalate_append_of_ne_nil hnil (List.cons_ne_nil _ _), String.intercalate_singleton,
      ← String.append_assoc, ← String.append_assoc]
    exact Path.fileName?_slash hisName _

/-! ### Names of stories -/

namespace Story

theorem sourceExtensions_subset : ∀ extension ∈ sourceExtensions,
    extension ∈ storyExtensions ∧ '.' ∉ extension.toList := by decide

theorem beforeEnding?_append (ending stem : List Char) :
    beforeEnding? ending (stem ++ ending) = some stem := by
  simp [beforeEnding?]

/-- An implementation has the name of a story when the directory that it is named after goes on as the names
of stories do. -/
theorem isStoryName_source_iff (hn : n ≠ "") (hextension : extension ∈ sourceExtensions) :
    isStoryName (n ++ "." ++ extension) = true ↔
      ∃ stem, isStoryStem stem = true ∧ n = String.ofList stem ++ ".stories" := by
  obtain ⟨hknown, hdot⟩ := sourceExtensions_subset extension hextension
  constructor
  · intro h
    obtain ⟨stem, other, hother, hstem, hname⟩ := exists_of_isStoryName h
    have hne : String.ofList stem ++ ".stories" ≠ "" := by simp
    have hsplit := congrArg Path.splitName hname
    rw [Path.splitName_dot hn hdot, Path.splitName_dot hne (storyExtensions_known other hother).1] at hsplit
    exact ⟨stem, hstem, congrArg Prod.fst hsplit⟩
  · rintro ⟨stem, hstem, rfl⟩
    refine List.any_eq_true.mpr ⟨extension, hknown, ?_⟩
    have htext : (String.ofList stem ++ ".stories" ++ "." ++ extension).toList =
        stem ++ (".stories." ++ extension).toList := by simp
    rw [htext, beforeEnding?_append]
    exact hstem

end Story

/-! ### Implementations that are stories -/

namespace Component

variable {x : Ignore.Exclusion} {directory story file : Path} {stories : List Path}

/-- When an implementation is a story. The implementation of a story that is found is a story itself
exactly when the name of the directory goes on as those of stories do, and it is the very story that it
was looked for exactly when it has its name. What the manifest shows has the name of the implementation,
so it shows a story in the same cases. -/
theorem source?_isStoryFile_iff (hwf : t.WellFormed) (hstories : discover? t x directory = some stories)
    (hstory : story ∈ stories) (hfile : source? t story = some file) :
    (Story.isStoryFile file = true ↔
      ∃ stem, Story.isStoryStem stem = true ∧ nameOf story = String.ofList stem ++ ".stories") ∧
    (t.locate file = t.locate story ↔ Path.fileName? file = Path.fileName? story) ∧
    ∀ s r ds, s.directory = directory → assemble t s story = .ok (r, ds) →
      ∀ shown ∈ r.files, Path.fileName? shown = Path.fileName? file ∧
        Story.isStoryFile shown = Story.isStoryFile file := by
  obtain ⟨base, above, name, hbase, -, rfl, hat⟩ := exists_storyAt hwf hstories hstory
  obtain ⟨n, extension, hn, hextension, rfl⟩ := exists_of_source? hfile
  have hisN := Path.isName_of_fileName? hn
  have hsource := isName_source hisN hextension
  have hfileName := Path.fileName?_join hsource
    (Path.tidy (directoryOf (Path.descend directory (above ++ [name]))))
  have hlocated := hat.locate_source hn hextension
  have hstoryName : Path.fileName? (Path.descend directory (above ++ [name])) = some name := by
    rw [Path.descend_append, Path.fileName?_join (Story.isName_of_isStoryName hat.isStoryName)]
  refine ⟨?_, ?_, ?_⟩
  · rw [Story.isStoryFile, hfileName, Option.any_some, Story.isStoryName_source_iff hisN.ne_empty hextension,
      nameOf, hn, Option.getD_some]
  · rw [hlocated, hat.located, hfileName, hstoryName]
    simp
  · rintro s r ds rfl hr shown hshown
    obtain ⟨file, v, text, program, hfile', -, -, -, rfl, -⟩ := assemble_ok hr
    obtain rfl := Option.some.inj (hfile'.symm.trans hfile)
    obtain rfl := List.mem_singleton.mp hshown
    have hne : Path.steps (Path.join (Path.tidy (directoryOf (Path.descend s.directory (above ++ [name]))))
        (n ++ "." ++ extension)) ≠ Path.steps s.directory := by
      intro hsteps
      have hleads := (FileTree.Leads.of_locate hbase).of_sameMoves (Path.sameMoves_of_steps hsteps)
      simpa using hleads.unique (FileTree.Leads.of_locate hlocated)
    have hshownName := fileName?_includePath (FileTree.ne_empty_of_locate hbase) hne hfileName
    exact ⟨hshownName.trans hfileName.symm,
      by rw [Story.isStoryFile, Story.isStoryFile, hshownName, hfileName]⟩

theorem source?_isStoryFile_iff_formsProject :
    Story.isStoryFile "/components/forms/Input/Input.tsx" = false ∧
    Watch.formsProject.locate "/components/forms/Input/Input.tsx" ≠
      Watch.formsProject.locate "/components/forms/Input/Input.stories.tsx" := by
  obtain ⟨hstory, hlocate, -⟩ := source?_isStoryFile_iff Watch.wellFormed_formsProject
    Watch.discover?_formsProject (List.mem_singleton.mpr rfl) Watch.source?_formsProject
  have hname : nameOf "/components/forms/Input/Input.stories.tsx" = "Input" := by decide +kernel
  refine ⟨?_, fun h => absurd (hlocate.mp h) (by decide +kernel)⟩
  rw [← Bool.not_eq_true, hstory, hname]
  rintro ⟨stem, -, hstem⟩
  have hending : ".stories".toList <:+ "Input".toList := ⟨stem, by rw [hstem]; simp⟩
  exact absurd hending (by decide)

/-- A project with a component whose directory is named like a story. -/
def storiesProject : FileTree :=
  { nodes := [(["components"], .directory), (["components", "Button.stories"], .directory),
      (["components", "Button.stories", "Button.stories.tsx"], .file (.text "export default \x7b\x7d;"))]
    current := [] }

/-- In a directory that is named like a story, the story is taken for its own implementation. -/
theorem source?_storiesProject : storiesProject.WellFormed ∧
    discover? storiesProject { } "/components" = some ["/components/Button.stories/Button.stories.tsx"] ∧
    source? storiesProject "/components/Button.stories/Button.stories.tsx" =
      some "/components/Button.stories/Button.stories.tsx" ∧
    Story.isStoryFile "/components/Button.stories/Button.stories.tsx" = true :=
  ⟨by decide +kernel, by decide +kernel, by decide +kernel, by decide +kernel⟩

end Component

end StoryManifest
