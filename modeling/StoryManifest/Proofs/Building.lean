import StoryManifest.Build
import StoryManifest.Configuration
import StoryManifest.Proofs.Discovery
import StoryManifest.Proofs.FileTree.Writing

/-!
What a build depends on. Files that hold the settings, rules about what to leave out, stories and
implementations are its inputs; a tree that differs by another file, and by directories that were added
for it, gives the same stories, the same components and the same manifest.
-/

namespace StoryManifest

open FileTree (Gains)

/-- What is at a location may go into the build of a project. -/
inductive BuildInput (t : FileTree) (root : Path) : Location → Prop
  | settings {l : Location} : t.locate (Path.join root Configuration.fileName) = .ok l →
      BuildInput t root l
  | rules (s : Ignore.Source) (directory : Location) : BuildInput t root (s.location directory)
  | story (directory : Location) {name : String} : Story.isStoryName name = true →
      BuildInput t root (directory ++ [name])
  | source (directory : Location) (name : String) {extension : String} :
      extension ∈ Story.sourceExtensions →
      BuildInput t root (directory ++ [name, name ++ "." ++ extension])

variable {t t' : FileTree} {root : Path} {l : Location}

/-- A name that no story has, no implementation and no file with rules. -/
def IsOutputName (name : String) : Prop :=
  name ∉ [".ignore", ".gitignore", "exclude"] ∧ Story.isStoryName name = false ∧
    ∀ extension ∈ Story.sourceExtensions, ¬('.' :: extension.toList) <:+ name.toList

instance (name : String) : Decidable (IsOutputName name) := inferInstanceAs (Decidable (_ ∧ _ ∧ _))

/-- A file is no input when its name is none that an input has. -/
theorem not_buildInput {directory : Location} {name : String}
    (hsettings : t.locate (Path.join root Configuration.fileName) ≠ .ok (directory ++ [name]))
    (hname : IsOutputName name) : ¬BuildInput t root (directory ++ [name]) := by
  obtain ⟨hrules, hstory, hsource⟩ := hname
  suffices h : ∀ k, BuildInput t root k → k ≠ directory ++ [name] from fun hi => h _ hi rfl
  intro k hk heq
  cases hk with
  | settings hl => exact hsettings (heq ▸ hl)
  | rules s d =>
    have hlast := congrArg List.getLast? heq
    cases s <;> simp [Ignore.Source.location] at hlast <;> simp [← hlast] at hrules
  | story d hname =>
    have hlast := List.singleton_inj.mp (List.append_inj_right' heq rfl)
    rw [hlast, hstory] at hname
    cases hname
  | source d n hextension =>
    rename_i extension
    have hlast : n ++ "." ++ extension = name := by
      have := congrArg List.getLast? heq
      simpa using this
    refine hsource extension hextension ⟨n.toList, ?_⟩
    rw [← hlast, String.toList_append, String.toList_append, List.append_assoc]
    rfl

/-- A file that is no input where the settings are elsewhere does not become one by being written. -/
theorem not_buildInput_of_gains {directory k : Location} {name : String} (h : Gains l t t')
    (hsettings : t.locate (Path.join root Configuration.fileName) = .ok k) (hk : k ≠ directory ++ [name])
    (hname : IsOutputName name) : ¬BuildInput t' root (directory ++ [name]) := by
  refine not_buildInput ?_ hname
  rw [h.locate hsettings]
  exact fun heq => hk (Except.ok.inj heq)

/-! ### Searching -/

theorem discover?_eq (h : Gains l t t') (hinput : ¬BuildInput t' root l) (x : Ignore.Exclusion)
    {directory : Path} {base : Location} (hbase : t.locate directory = .ok base)
    (hdir : t.get? base = some .directory) : discover? t' x directory = discover? t x directory := by
  have hrules : Ignore.SameRules t t' := fun s d => h.intactText?_eq (by
    rintro rfl
    exact hinput (.rules s d))
  have hreaches := reachesStory_eq hrules x base
  have hstory : base.isPrefixOf l = true → reachesStory t x base (l.drop base.length) = false := by
    intro hbelow
    obtain ⟨names, rfl⟩ := List.isPrefixOf_iff_prefix.mp hbelow
    rw [List.drop_left, reachesStory]
    cases hlast : names.getLast? with
    | none => rfl
    | some name =>
      obtain ⟨above, rfl⟩ := List.getLast?_eq_some_iff.mp hlast
      have hname : Story.isStoryName name = false := by
        rw [← Bool.not_eq_true]
        intro hname
        rw [← List.append_assoc] at hinput
        exact hinput (.story (base ++ above) hname)
      simp [hname]
  simp only [discover?, hbase, h.locate hbase, hdir, h.directory hdir, if_true, hreaches,
    h.filter_filesBelow hstory]

/-! ### Assembling -/

namespace Component

theorem isName_source {name extension : String} (hname : Path.IsName name)
    (hextension : extension ∈ Story.sourceExtensions) : Path.IsName (name ++ "." ++ extension) := by
  have hslash : '/' ∉ extension.toList := by
    revert extension
    decide
  have hlength : 0 < name.toList.length ∧ 0 < extension.toList.length := by
    constructor
    · rw [List.length_pos_iff]
      intro hnil
      have := hname.notIdle
      rw [hnil] at this
      cases this
    · revert extension
      decide
  have htotal : (name ++ "." ++ extension).toList.length =
      name.toList.length + 1 + extension.toList.length := by
    simp only [String.toList_append, List.length_append]
    rfl
  refine ⟨?_, ?_, ?_⟩
  · simp [hname.noSlash, hslash]
  · rw [← Bool.not_eq_true, Path.isIdle, Bool.or_eq_true, decide_eq_true_iff, decide_eq_true_iff]
    rintro (hidle | hidle) <;> rw [hidle] at htotal <;> simp at htotal <;> omega
  · intro hup
    rw [hup] at htotal
    simp at htotal
    omega

/-- A story that a path leads to, by the directory it is in and its name. -/
structure StoryAt (t : FileTree) (story : Path) (directory : Location) (name : String) : Prop where
  there : t.get? (directory ++ [name]) ≠ none
  located : t.locate story = .ok (directory ++ [name])
  isDirectory : t.get? directory = some .directory
  leads : t.Leads (directoryOf story) directory
  isStoryName : Story.isStoryName name = true

/-- An implementation is looked for in the directory that the story is in. -/
theorem StoryAt.locate_source {story : Path} {directory : Location} {name n extension : String}
    (hstory : StoryAt t story directory name) (hn : Path.fileName? (directoryOf story) = some n)
    (hextension : extension ∈ Story.sourceExtensions) :
    t.locate (Path.join (Path.tidy (directoryOf story)) (n ++ "." ++ extension)) =
      .ok (directory ++ [n ++ "." ++ extension]) :=
  (hstory.leads.of_sameMoves (Path.tidy_sameMoves _)).locate_join hstory.isDirectory
    (isName_source (Path.isName_of_fileName? hn) hextension)

/-- The implementation is the same where the files that it may be are there or are not. -/
theorem source?_congr {story : Path}
    (h : ∀ n, Path.fileName? (directoryOf story) = some n → ∀ extension ∈ Story.sourceExtensions,
      t'.isFile (Path.join (Path.tidy (directoryOf story)) (n ++ "." ++ extension)) =
        t.isFile (Path.join (Path.tidy (directoryOf story)) (n ++ "." ++ extension))) :
    source? t' story = source? t story := by
  unfold source?
  cases hname : Path.fileName? (directoryOf story) with
  | none => simp [nameOf, hname]
  | some n =>
    simp only [nameOf, hname, Option.getD_some]
    split
    · rfl
    · rw [← List.head?_filter, ← List.head?_filter]
      refine congrArg List.head? (List.filter_congr fun file hfile => ?_)
      obtain ⟨extension, hextension, rfl⟩ := List.mem_map.mp hfile
      exact h n hname extension hextension

theorem assemble_congr {s : BuildSettings} {story : Path} (hsource : source? t' story = source? t story)
    (hread : t'.readText story = t.readText story) : assemble t' s story = assemble t s story := by
  have hfound : source t' story = source t story := by
    unfold source
    rw [hsource]
  unfold assemble
  rw [hfound, hread]

theorem source?_eq (h : Gains l t t') (hinput : ¬BuildInput t' root l) {story : Path}
    {directory : Location} {name : String} (hstory : StoryAt t story directory name) :
    source? t' story = source? t story := by
  refine source?_congr fun n hn extension hextension => ?_
  obtain ⟨above, habove⟩ := hstory.leads.of_fileName? hn
  refine h.isFile_eq (hstory.locate_source hn hextension) ?_
  rintro rfl
  rw [habove, List.append_assoc] at hinput
  exact hinput (.source above n hextension)

/-- The component of a story is the same. -/
theorem assemble_eq (h : Gains l t t') (hinput : ¬BuildInput t' root l) (s : BuildSettings) {story : Path}
    {directory : Location} {name : String} (hstory : StoryAt t story directory name) :
    assemble t' s story = assemble t s story := by
  have hne : directory ++ [name] ≠ l := by
    rintro rfl
    exact hinput (.story directory hstory.isStoryName)
  exact assemble_congr (source?_eq h hinput hstory) (h.readText_eq hstory.located hne hstory.there)

/-- Names that lead to a file lead through directories. -/
theorem directory_of_mem_filesBelow (hwf : t.WellFormed) {base : Location} {names : List String}
    (hmem : names ∈ Ignore.filesBelow t base) {k : Nat} (hk : k < names.length) :
    t.get? (base ++ names.take k) = some .directory := by
  obtain ⟨content, hnode⟩ := Ignore.exists_node_of_mem_filesBelow hmem
  have h := hwf.directory _ hnode (base.length + k) (by simpa using hk)
  rwa [List.take_length_add_append] at h

/-- A story that is found is in the directory that its path is in. -/
theorem storyAt_of_mem (hwf : t.WellFormed) {directory : Path} {base : Location}
    (hbase : t.locate directory = .ok base) {above : List String} {name : String}
    (hmem : above ++ [name] ∈ Ignore.filesBelow t base) (hname : Story.isStoryName name = true) :
    StoryAt t (Path.descend directory (above ++ [name])) (base ++ above) name := by
  obtain ⟨content, hnode⟩ := Ignore.exists_node_of_mem_filesBelow hmem
  have hisName := isName_of_mem_filesBelow hwf hmem
  have hdirs : ∀ k < (above ++ [name]).length, t.get? (base ++ (above ++ [name]).take k) = some .directory :=
    fun k hk => directory_of_mem_filesBelow hwf hmem hk
  have hlead : t.locate (Path.descend directory above) = .ok (base ++ above) :=
    FileTree.locate_descend hbase (fun n hn => hisName n (List.mem_append_left _ hn)) fun k hk => by
      have h := hdirs k (by rw [List.length_append]; omega)
      rwa [List.take_append_of_le_length (by omega)] at h
  obtain ⟨q, hparent, hsame⟩ := Path.parent?_join (hisName name (by simp)) (Path.descend directory above)
  exact {
    there := by
      rw [List.append_assoc, FileTree.get?, if_neg (by simp), ne_eq, List.lookup_eq_none_iff]
      intro hall
      simpa using hall _ hnode
    located := by
      rw [List.append_assoc]
      exact FileTree.locate_descend hbase hisName hdirs
    isDirectory := by simpa using hdirs above.length (by simp)
    leads := by
      rw [directoryOf, Path.descend_append, hparent, Option.getD_some]
      exact (FileTree.Leads.of_locate hlead).of_sameMoves hsame
    isStoryName := hname }

/-- A story that is found has a name in some directory from the one of components on. -/
theorem exists_storyAt (hwf : t.WellFormed) {x : Ignore.Exclusion} {directory story : Path}
    {stories : List Path}
    (hstories : discover? t x directory = some stories) (hstory : story ∈ stories) :
    ∃ base above name, t.locate directory = .ok base ∧ above ++ [name] ∈ Ignore.filesBelow t base ∧
      story = Path.descend directory (above ++ [name]) ∧ StoryAt t story (base ++ above) name := by
  obtain ⟨base, hbase, -, -⟩ := discover?_some hstories
  obtain ⟨names, hmem, hreaches, rfl⟩ := (mem_stories hstories hbase).mp hstory
  obtain ⟨above, name, rfl, hname⟩ := exists_name_of_reachesStory hreaches
  exact ⟨base, above, name, hbase, hmem, rfl, storyAt_of_mem hwf hbase hmem hname⟩

end Component

/-! ### Building -/

/-- A build is the same where the stories and their components are. -/
theorem Build.of?_congr {s : BuildSettings} {stories : List Path}
    (h : discover? t s.exclusion s.directory = some stories)
    (h' : discover? t' s.exclusion s.directory = some stories)
    (hassemble : ∀ story ∈ stories, Component.assemble t' s story = Component.assemble t s story) :
    Build.of? t' s = Build.of? t s := by
  have hfold : Build.ofStories t' s stories = Build.ofStories t s stories := by
    refine List.foldl_ext _ _ _ fun b story hmem => ?_
    rw [hassemble story hmem]
  rw [Build.of?, Build.of?, h, h', Option.map_some, Option.map_some, hfold]

/-- A build does not depend on a file that is no input. -/
theorem Build.of?_eq (hwf : t.WellFormed) (h : Gains l t t') (hinput : ¬BuildInput t' root l)
    {s : BuildSettings} {b : Build} (hb : Build.of? t s = some b) : Build.of? t' s = some b := by
  obtain ⟨stories, hstories, -⟩ := Option.map_eq_some_iff.mp hb
  obtain ⟨base, hbase, hdir, -⟩ := discover?_some hstories
  have hsame := (discover?_eq h hinput _ hbase hdir).trans hstories
  rw [Build.of?_congr hstories hsame, hb]
  intro story hmem
  obtain ⟨base, above, name, -, -, -, hat⟩ := Component.exists_storyAt hwf hstories hmem
  exact Component.assemble_eq h hinput s hat

/-! ### Settings -/

/-- Settings are the same where the same text can be read. -/
theorem Configuration.load_congr (hreads : ∀ text, t'.readText (Path.join root fileName) = .ok text ↔
    t.readText (Path.join root fileName) = .ok text) : load t' root = load t root := by
  unfold load
  cases htext : t.readText (Path.join root fileName) with
  | ok text => rw [(hreads text).mpr htext]
  | error e =>
    cases htext' : t'.readText (Path.join root fileName) with
    | ok text => cases htext.symm.trans ((hreads text).mp htext')
    | error e => rfl

/-- Settings that are found where a file was written were there before. A root that is written with two
dots has to lead through directories that were there. -/
theorem Configuration.load_eq (hwf : t.WellFormed) (h : Gains l t t') (hinput : ¬BuildInput t' root l)
    (hroot : .up ∈ Path.steps root → ∃ d, t.locate root = .ok d) : load t' root = load t root := by
  have hname : Path.IsName fileName := ⟨by decide, by decide, by decide⟩
  have hreads : ∀ text, t'.readText (Path.join root fileName) = .ok text ↔
      t.readText (Path.join root fileName) = .ok text := by
    intro text
    constructor
    · intro htext
      obtain ⟨k, hk, hfile⟩ := FileTree.readText_ok htext
      have hne : k ≠ l := by
        rintro rfl
        exact hinput (.settings hk)
      have hbefore : t.get? k = some (.file (.text text)) := by
        rcases h.get?_eq k hne with hsame | ⟨-, hdir⟩
        · rw [← hsame, hfile]
        · cases hfile.symm.trans hdir
      obtain ⟨d, hd, rfl⟩ := FileTree.leads_of_locate_join hname hk
      have hdir : t.get? d = some .directory := by
        have hd := hwf.directory _ (FileTree.mem_nodes_of_get? hbefore (by simp)) d.length (by simp)
        rwa [List.take_left] at hd
      have hlead : t.Leads root d := by
        by_cases hup : ['.', '.'] ∈ Path.moves root
        · obtain ⟨e, he⟩ := hroot (Path.up_mem_steps hup)
          rw [hd.unique (.of_locate (h.locate he))]
          exact .of_locate he
        · have hd' : d = t.startOf root ++ (Path.moves root).map String.ofList := by
            rw [FileTree.startOf, ← h.current_eq]
            exact FileTree.eq_of_followAll (FileTree.forward_of_mem_moves hup) hd
          exact hwf.leads hup hd' hbefore
      simp only [FileTree.readText, hlead.locate_join hdir hname, hbefore]
    · intro htext
      obtain ⟨k, hk, hfile⟩ := FileTree.readText_ok htext
      have hne : k ≠ l := by
        rintro rfl
        exact hinput (.settings (h.locate hk))
      rw [h.readText_eq hk hne (by simp [hfile]), htext]
  exact load_congr hreads

end StoryManifest
