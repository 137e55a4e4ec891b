import StoryManifest.Proofs.Watch.Relevance

/-!
What a build does not depend on. Trees that have the same settings, the same files with rules and the
same at every path that a watch without patterns lets through give the same build: whatever a search
finds, whatever is looked for beside a story, and whatever is read passes the tests of the watch.
-/

namespace StoryManifest

variable {t t' : FileTree} {p : Path} {base : Location} {names above : List String}

/-- The path ends in the name of a directory and the name of an implementation in it. -/
def Component.IsImplementation (p : Path) : Prop :=
  ∃ name extension, name ≠ "" ∧ extension ∈ Story.sourceExtensions ∧
    [.name name, .name (name ++ "." ++ extension)] <:+ Path.steps p

theorem Component.IsImplementation.isSourceFile (h : IsImplementation p) : Story.isSourceFile p = true := by
  obtain ⟨name, extension, hname, hextension, ss, hsteps⟩ := h
  have hlast : Path.steps p = (ss ++ [.name name]) ++ [.name (name ++ "." ++ extension)] := by
    rw [← hsteps, List.append_assoc, List.singleton_append]
  exact Story.isSourceFile_of_steps hlast hname hextension

namespace Watch

/-- Both trees have the same at every path below a directory that a watch lets through. -/
def Filter.Agrees (f : Filter) (t t' : FileTree) : Prop :=
  ∀ names : List String, (∀ name ∈ names, Path.IsName name) →
    f.isRelevant (Path.descend f.directory names) = true →
    t'.find? (Path.descend f.directory names) = t.find? (Path.descend f.directory names)

variable {f : Filter} {x : Ignore.Exclusion} {name n extension : String}

theorem Filter.Agrees.get?_eq (h : f.Agrees t t') (hwf : t.WellFormed) (hwf' : t'.WellFormed)
    (hbase : t.locate f.directory = .ok base) (hbase' : t'.locate f.directory = .ok base)
    (hnames : ∀ name ∈ names, Path.IsName name)
    (hrelevant : f.isRelevant (Path.descend f.directory names) = true) :
    t'.get? (base ++ names) = t.get? (base ++ names) := by
  rw [← FileTree.find?_descend hwf hbase hnames, ← FileTree.find?_descend hwf' hbase' hnames]
  exact h names hnames hrelevant

/-! ### What a search and what follows it look at -/

section

variable (hpatterns : f.patterns = []) (hdirectory : f.directory ≠ "")

include hpatterns hdirectory

theorem isRelevant_of_steps (hsteps : Path.steps p = Path.steps f.directory ++ names.map .name)
    (hnames : ∀ name ∈ names, name ∉ Ignore.generatedDirectories)
    (hkind : Story.isStoryFile p = true ∨ Story.isSourceFile p = true)
    (houtput : Path.steps p ≠ Path.steps f.output) : f.isRelevant p = true := by
  obtain ⟨rest, hrest, -⟩ := Path.exists_below? (Path.steps_ne_nil hdirectory) hsteps
  refine (Filter.isRelevant_iff hdirectory hsteps hnames hkind).mpr
    ⟨decide_eq_false houtput, .inr ⟨rest, hrest, ?_⟩⟩
  rw [hpatterns]
  rfl

/-- Whatever is reached as a story matters. -/
theorem isRelevant_story (hstory : Story.isStoryFile f.output = false)
    (hnames : ∀ name ∈ names, Path.IsName name)
    (hreaches : reachesStory t x base names = true) :
      f.isRelevant (Path.descend f.directory names) = true := by
  obtain ⟨above, name, rfl, hname⟩ := exists_name_of_reachesStory hreaches
  have hsteps := Path.steps_descend hnames hdirectory
  have hlast : Path.steps (Path.descend f.directory (above ++ [name])) =
      (Path.steps f.directory ++ above.map .name) ++ [.name name] := by
    rw [hsteps, List.map_append, List.append_assoc]
    rfl
  refine isRelevant_of_steps hpatterns hdirectory hsteps
    (Ignore.notMem_generated_of_reaches (Bool.and_eq_true_iff.mp hreaches).2)
    (.inl (by rw [Story.isStoryFile_of_steps hlast, hname])) fun houtput => ?_
  rw [Story.isStoryFile_of_steps (houtput ▸ hlast), hname] at hstory
  cases hstory

/-- Whatever may be the implementation of a story that is reached matters. -/
theorem isRelevant_source (himplementation : ¬Component.IsImplementation f.output)
    (hnames : ∀ n ∈ above ++ [name], Path.IsName n)
    (hreaches : reachesStory t x base (above ++ [name]) = true)
    (hn : Path.fileName? (Component.directoryOf (Path.descend f.directory (above ++ [name]))) = some n)
    (hextension : extension ∈ Story.sourceExtensions) :
    f.isRelevant (Path.descend f.directory (above ++ [n ++ "." ++ extension])) = true := by
  have hsource := Component.isName_source (Path.isName_of_fileName? hn) hextension
  have habove : ∀ n ∈ above, Path.IsName n := fun n hn => hnames n (List.mem_append_left _ hn)
  have hne := (Path.isName_of_fileName? hn).ne_empty
  have hgenerated := Ignore.notMem_generated_of_reaches (Bool.and_eq_true_iff.mp hreaches).2
  have hall : ∀ m ∈ above ++ [n ++ "." ++ extension], Path.IsName m ∧ m ∉ Ignore.generatedDirectories :=
    List.forall_mem_append.mpr ⟨fun m hm => ⟨habove m hm, hgenerated m (List.mem_append_left _ hm)⟩,
      List.forall_mem_singleton.mpr ⟨hsource, Component.notMem_generated_source n hextension⟩⟩
  obtain ⟨ss, hss⟩ := Path.exists_steps_of_sameMoves
    (Component.directoryOf_sameMoves f.directory above (hnames name (by simp))) hn
  have hlast : Path.steps (Path.descend f.directory (above ++ [n ++ "." ++ extension])) =
      (ss ++ [.name n]) ++ [.name (n ++ "." ++ extension)] := by
    rw [Path.descend_append, Path.steps_join hsource (Path.descend_ne_empty habove hdirectory), hss]
  refine isRelevant_of_steps hpatterns hdirectory (Path.steps_descend (fun m hm => (hall m hm).1) hdirectory)
    (fun m hm => (hall m hm).2) (.inr (Story.isSourceFile_of_steps hlast hne hextension)) fun houtput => ?_
  refine himplementation ⟨n, extension, hne, hextension, ss, ?_⟩
  rw [← houtput, hlast, List.append_assoc]
  rfl

end

/-! ### Builds -/

section

variable {s : BuildSettings} (hf : f.directory = s.directory) (hwf : t.WellFormed) (hwf' : t'.WellFormed)
  (hbase : t.locate s.directory = .ok base) (hbase' : t'.locate s.directory = .ok base)
  (hagrees : f.Agrees t t') (hpatterns : f.patterns = [])

include hf hwf hwf' hbase hbase' hagrees hpatterns

theorem mem_filesBelow_iff (hstory : Story.isStoryFile f.output = false) (hd : t.Distinct)
    (hd' : t'.Distinct)
    (hreaches : reachesStory t x base names = true) :
    names ∈ Ignore.filesBelow t base ↔ names ∈ Ignore.filesBelow t' base := by
  rw [← hf] at hbase hbase'
  obtain ⟨above, name, hlast, -⟩ := exists_name_of_reachesStory hreaches
  have hnonempty : names ≠ [] := by simp [hlast]
  have hsame : (∀ name ∈ names, Path.IsName name) → t'.get? (base ++ names) = t.get? (base ++ names) :=
    fun hnames => hagrees.get?_eq hwf hwf' hbase hbase' hnames
      (isRelevant_story hpatterns (FileTree.ne_empty_of_locate hbase) hstory hnames hreaches)
  constructor
  · intro hmem
    rw [Ignore.mem_filesBelow_iff hd' hnonempty, hsame (isName_of_mem_filesBelow hwf hmem)]
    exact (Ignore.mem_filesBelow_iff hd hnonempty).mp hmem
  · intro hmem
    rw [Ignore.mem_filesBelow_iff hd hnonempty, ← hsame (isName_of_mem_filesBelow hwf' hmem)]
    exact (Ignore.mem_filesBelow_iff hd' hnonempty).mp hmem

theorem assemble_eq (hstory : Story.isStoryFile f.output = false)
    (himplementation : ¬Component.IsImplementation f.output)
    (hmem : above ++ [name] ∈ Ignore.filesBelow t base) (hmem' : above ++ [name] ∈ Ignore.filesBelow t' base)
    (hname : Story.isStoryName name = true) (hreaches : reachesStory t x base (above ++ [name]) = true) :
    Component.assemble t' s (Path.descend s.directory (above ++ [name])) =
      Component.assemble t s (Path.descend s.directory (above ++ [name])) := by
  have hat := Component.storyAt_of_mem hwf hbase hmem hname
  have hat' := Component.storyAt_of_mem hwf' hbase' hmem' hname
  rw [← hf] at hbase hbase' hat hat' ⊢
  have hne := FileTree.ne_empty_of_locate hbase
  have hnames := isName_of_mem_filesBelow hwf hmem
  -- Every file that is tried as the implementation matters, and so does the story that is read.
  refine Component.assemble_congr (Component.source?_congr fun n hn extension hextension => ?_) ?_
  · have hrelevant := isRelevant_source hpatterns hne himplementation hnames hreaches hn hextension
    have hsource := Component.isName_source (Path.isName_of_fileName? hn) hextension
    have hall : ∀ m ∈ above ++ [n ++ "." ++ extension], Path.IsName m :=
      List.forall_mem_append.mpr ⟨fun m hm => hnames m (List.mem_append_left _ hm),
        List.forall_mem_singleton.mpr hsource⟩
    have hget := hagrees.get?_eq hwf hwf' hbase hbase' hall hrelevant
    rw [← List.append_assoc] at hget
    rw [FileTree.isFile, FileTree.isFile, FileTree.find?_of_locate (hat.locate_source hn hextension),
      FileTree.find?_of_locate (hat'.locate_source hn hextension), hget]
  · have hrelevant := isRelevant_story hpatterns hne hstory hnames hreaches
    have hget := hagrees.get?_eq hwf hwf' hbase hbase' hnames hrelevant
    rw [← List.append_assoc] at hget
    simp only [FileTree.readText, hat.located, hat'.located, hget]

end

/-- Trees that agree on what matters have the same stories and the same components. -/
theorem build_congr {s : BuildSettings} (hf : f.directory = s.directory) (hpatterns : f.patterns = [])
    (hstory : Story.isStoryFile f.output = false) (himplementation : ¬Component.IsImplementation f.output)
    (hwf : t.WellFormed) (hwf' : t'.WellFormed) (hd : t.Distinct) (hd' : t'.Distinct)
    (hbase : t.locate s.directory = .ok base) (hbase' : t'.locate s.directory = .ok base)
    (hdir : t.get? base = some .directory) (hdir' : t'.get? base = some .directory)
    (hrules : Ignore.SameRules t t') (hagrees : f.Agrees t t') :
    ∃ b, Build.of? t s = some b ∧ Build.of? t' s = some b := by
  have hfiles : ∀ names, reachesStory t s.exclusion base names = true →
      (names ∈ Ignore.filesBelow t base ↔ names ∈ Ignore.filesBelow t' base) := fun names hreaches =>
    mem_filesBelow_iff hf hwf hwf' hbase hbase' hagrees hpatterns hstory hd hd' hreaches
  obtain ⟨stories, hstories⟩ : ∃ stories, discover? t s.exclusion s.directory = some stories := by
    simp [discover?, hbase, hdir]
  have hstories' := (discover?_congr hwf hd hd' hbase hbase' hdir hdir' hrules hfiles).trans hstories
  have hbuild : Build.of? t s = some (Build.ofStories t s stories) := by
    rw [Build.of?, hstories, Option.map_some]
  refine ⟨_, hbuild, (Build.of?_congr hstories hstories' fun story hmem => ?_).trans hbuild⟩
  obtain ⟨names, hfile, hreaches, rfl⟩ := (mem_stories hstories hbase).mp hmem
  obtain ⟨above, name, rfl, hname⟩ := exists_name_of_reachesStory hreaches
  exact assemble_eq hf hwf hwf' hbase hbase' hagrees hpatterns hstory himplementation hfile
    ((hfiles _ hreaches).mp hfile) hname hreaches

/-- A build depends on what matters to a watch alone. Projects with the same settings, the same directory
of components and the same files with rules, whose trees agree on all that a watch without patterns lets
through, have the same build: manifest, number of skipped components and diagnostics. -/
theorem build_eq_of_agrees {root : Path} {o : CommandLine.CommonOptions} {base : Location}
    (hwf : t.WellFormed) (hwf' : t'.WellFormed) (hd : t.Distinct) (hd' : t'.Distinct)
    (hsettings : t'.find? (Path.join root Configuration.fileName) =
      t.find? (Path.join root Configuration.fileName))
    (hbase : t.locate (o.settings root (Configuration.load t root)).directory = .ok base)
    (hbase' : t'.locate (o.settings root (Configuration.load t root)).directory = .ok base)
    (hdir : t.get? base = some .directory) (hdir' : t'.get? base = some .directory)
    (hrules : Ignore.SameRules t t')
    (hpatterns : (o.settings root (Configuration.load t root)).exclusion.patterns = [])
    (hstory : Story.isStoryFile (o.outputPath root (Configuration.load t root)) = false)
    (himplementation : ¬Component.IsImplementation (o.outputPath root (Configuration.load t root)))
    (hagrees : (Filter.ofOptions root o (Configuration.load t root)).Agrees t t') :
    ∃ b, Build.of? t (o.settings root (Configuration.load t root)) = some b ∧
      Build.of? t' (o.settings root (Configuration.load t' root)) = some b := by
  have hload : Configuration.load t' root = Configuration.load t root :=
    Configuration.load_congr fun text => by
      rw [FileTree.readText_ok_iff, FileTree.readText_ok_iff, hsettings]
  rw [hload]
  generalize Configuration.load t root = c at *
  have hdirectory : (Filter.ofOptions root o c).directory = (o.settings root c).directory := rfl
  exact build_congr hdirectory hpatterns hstory himplementation hwf hwf' hd hd' hbase hbase' hdir hdir'
    hrules
    hagrees

/-- A project with one component. -/
def labelProject : FileTree :=
  { nodes := [(["components"], .directory), (["components", "Label"], .directory),
      (["components", "Label", "Label.stories.ts"], .file (.text "export default \x7b\x7d;")),
      (["components", "Label", "Label.ts"], .file (.text ""))]
    current := [] }

/-- The project with a text about the component. -/
def describedProject : FileTree :=
  labelProject.put ["components", "Label", "README.md"] (.file (.text "A label."))

theorem build_eq_of_agrees_describedProject :
    ∃ b, Build.of? labelProject
        (({ } : CommandLine.CommonOptions).settings "/" (Configuration.load labelProject "/")) = some b ∧
      Build.of? describedProject
        (({ } : CommandLine.CommonOptions).settings "/" (Configuration.load describedProject "/")) =
          some b := by
  have hwf : labelProject.WellFormed := by decide +kernel
  have hwf' : describedProject.WellFormed := by decide +kernel
  have hload : Configuration.load labelProject "/" = { } := by
    have hread : labelProject.readText (Path.join "/" Configuration.fileName) = .error .notFound := by
      decide +kernel
    rw [Configuration.load, hread]
  have hbase : labelProject.locate "/components" = .ok ["components"] := by decide +kernel
  have hbase' : describedProject.locate "/components" = .ok ["components"] := by decide +kernel
  have hget : ∀ k, k ≠ ["components", "Label", "README.md"] → describedProject.get? k =
      labelProject.get? k :=
    fun k hk => by rw [describedProject, FileTree.get?_put (by simp), if_neg hk]
  have hrules : Ignore.SameRules labelProject describedProject := by
    intro s directory
    have hne : s.location directory ≠ ["components", "Label", "README.md"] := by
      intro heq
      have hlast := congrArg List.getLast? heq
      cases s <;> simp [Ignore.Source.location] at hlast
    rw [FileTree.intactText?, FileTree.intactText?, hget _ hne]
  have hagrees : (Filter.ofOptions "/" { } { }).Agrees labelProject describedProject := by
    intro names hnames hrelevant
    have hdirectory : (Filter.ofOptions "/" { } { }).directory = "/components" := rfl
    rw [hdirectory] at hrelevant ⊢
    rw [FileTree.find?_descend hwf hbase hnames, FileTree.find?_descend hwf' hbase' hnames]
    refine hget _ fun heq => ?_
    obtain rfl : names = ["Label", "README.md"] := by simpa using heq
    revert hrelevant
    decide +kernel
  have hdir : labelProject.get? ["components"] = some .directory := rfl
  have hdir' : describedProject.get? ["components"] = some .directory := rfl
  refine build_eq_of_agrees hwf hwf' (by decide) (by decide +kernel) (by decide +kernel) ?_ ?_ hdir hdir'
    hrules
    ?_ ?_ ?_ ?_ <;> rw [hload]
  · exact hbase
  · exact hbase'
  · rfl
  · decide +kernel
  · exact fun h => absurd h.isSourceFile (by decide +kernel)
  · exact hagrees

end Watch

end StoryManifest
