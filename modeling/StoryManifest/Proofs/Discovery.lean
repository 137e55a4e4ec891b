import StoryManifest.Proofs.FileTree.Walking
import StoryManifest.Proofs.Ignore.Searching
import StoryManifest.Proofs.Path.Order

/-!
Which stories are found. In a well-formed tree with one node at each location they are the files that a
search reaches and that have the name of a story, so trees with the same such files and the same rules
have the same stories, in whatever order their nodes come.
-/

namespace StoryManifest

variable {t t' : FileTree} {x : Ignore.Exclusion} {directory : Path} {base : Location} {names : List String}

namespace Ignore

/-- A file below a directory is in the tree. -/
theorem exists_node_of_mem_filesBelow (h : names ∈ filesBelow t base) :
    ∃ content, (base ++ names, FileNode.file content) ∈ t.nodes := by
  obtain ⟨⟨l, node⟩, hnode, hnames⟩ := List.mem_filterMap.mp h
  cases node with
  | directory => cases hnames
  | file content =>
    simp only [Option.ite_none_right_eq_some, Option.some.injEq] at hnames
    obtain ⟨hbelow, rfl⟩ := hnames
    obtain ⟨rest, rfl⟩ := List.isPrefixOf_iff_prefix.mp hbelow
    rw [List.drop_left]
    exact ⟨content, hnode⟩

theorem mem_filesBelow_iff (hd : t.Distinct) (hnames : names ≠ []) :
    names ∈ filesBelow t base ↔ ∃ content, t.get? (base ++ names) = some (.file content) := by
  have hne : base ++ names ≠ [] := by simp [hnames]
  constructor
  · intro h
    obtain ⟨content, hnode⟩ := exists_node_of_mem_filesBelow h
    exact ⟨content, hd.get?_of_mem hnode hne⟩
  · rintro ⟨content, hget⟩
    refine List.mem_filterMap.mpr ⟨_, FileTree.mem_nodes_of_get? hget hne, ?_⟩
    simp

theorem filesBelow_sublist (t : FileTree) (base : Location) :
    ((filesBelow t base).map (base ++ ·)).Sublist (t.nodes.map Prod.fst) := by
  rw [filesBelow, List.map_filterMap]
  generalize t.nodes = nodes
  induction nodes with
  | nil => exact .slnil
  | cons e nodes ih =>
    obtain ⟨l, node⟩ := e
    rw [List.filterMap_cons, List.map_cons]
    cases node with
    | directory => exact ih.cons l
    | file content =>
      by_cases h : base.isPrefixOf l = true
      · obtain ⟨names, rfl⟩ := List.isPrefixOf_iff_prefix.mp h
        simpa using ih
      · simpa [h] using ih.cons l

theorem nodup_filesBelow (hd : t.Distinct) (base : Location) : (filesBelow t base).Nodup :=
  List.Nodup.of_map _ (hd.sublist (filesBelow_sublist t base))

end Ignore

/-! ### Stories -/

/-- A search for stories ends at the name of one. -/
theorem exists_name_of_reachesStory (h : reachesStory t x base names = true) :
    ∃ above name, names = above ++ [name] ∧ Story.isStoryName name = true := by
  rw [reachesStory, Bool.and_eq_true] at h
  cases hlast : names.getLast? with
  | none => rw [hlast] at h; cases h.1
  | some name =>
    rw [hlast] at h
    obtain ⟨above, rfl⟩ := List.getLast?_eq_some_iff.mp hlast
    exact ⟨above, name, rfl, by simpa using h.1⟩

theorem isName_of_mem_filesBelow (hwf : t.WellFormed) (h : names ∈ Ignore.filesBelow t base) :
    ∀ name ∈ names, Path.IsName name := by
  obtain ⟨content, hnode⟩ := Ignore.exists_node_of_mem_filesBelow h
  exact fun name hname => hwf.isName _ hnode name (List.mem_append_right _ hname)

theorem reachesStory_eq (h : Ignore.SameRules t t') (x : Ignore.Exclusion) (base : Location) :
    reachesStory t' x base = reachesStory t x base := by
  funext names
  rw [reachesStory, reachesStory, Ignore.reaches_eq h]

theorem discover?_some {stories : List Path} (h : discover? t x directory = some stories) :
    ∃ base, t.locate directory = .ok base ∧ t.get? base = some .directory ∧
      stories = Path.sort (((Ignore.filesBelow t base).filter (reachesStory t x base)).map
        (Path.descend directory)) := by
  unfold discover? at h
  cases hbase : t.locate directory with
  | error e => rw [hbase] at h; cases h
  | ok base =>
    rw [hbase] at h
    simp only [Option.ite_none_right_eq_some, Option.some.injEq] at h
    exact ⟨base, rfl, h.1, h.2.symm⟩

/-- Files that come in the order of their paths already are the stories that are found. -/
theorem discover?_of_sorted {stories : List Path} (hbase : t.locate directory = .ok base)
    (hdir : t.get? base = some .directory)
    (hfound : ((Ignore.filesBelow t base).filter (reachesStory t x base)).map (Path.descend directory) =
      stories)
    (hsorted : stories.Pairwise (Path.le · · = true)) : discover? t x directory = some stories := by
  rw [discover?, hbase]
  simp only [hdir, if_true, hfound, Path.sort, List.mergeSort_of_pairwise hsorted]

/-- Every story that is found is a file that a search for stories reaches. -/
theorem mem_stories {stories : List Path} (h : discover? t x directory = some stories)
    (hbase : t.locate directory = .ok base) {story : Path} : story ∈ stories ↔
      ∃ names ∈ Ignore.filesBelow t base, reachesStory t x base names = true ∧
        Path.descend directory names = story := by
  obtain ⟨b, hb, -, rfl⟩ := discover?_some h
  obtain rfl : b = base := Except.ok.inj (hb.symm.trans hbase)
  simp [Path.sort, and_assoc]

/-- Stories come in the order of their paths. -/
theorem pairwise_stories {stories : List Path} (h : discover? t x directory = some stories) :
    stories.Pairwise (Path.le · · = true) := by
  obtain ⟨base, -, -, rfl⟩ := discover?_some h
  exact Path.pairwise_sort _

/-- No story has the steps of another one. -/
theorem eq_of_mem_stories (hwf : t.WellFormed) {stories : List Path}
    (h : discover? t x directory = some stories) {p q : Path} (hp : p ∈ stories) (hq : q ∈ stories)
    (hsteps : Path.steps p = Path.steps q) : p = q := by
  obtain ⟨base, hbase, -⟩ := discover?_some h
  obtain ⟨ms, hms, -, rfl⟩ := (mem_stories h hbase).mp hp
  obtain ⟨ns, hns, -, rfl⟩ := (mem_stories h hbase).mp hq
  rw [Path.eq_of_steps_descend (isName_of_mem_filesBelow hwf hms) (isName_of_mem_filesBelow hwf hns)
    (FileTree.ne_empty_of_locate hbase) hsteps]

theorem nodup_stories (hwf : t.WellFormed) (hd : t.Distinct) {stories : List Path}
    (h : discover? t x directory = some stories) : stories.Nodup := by
  obtain ⟨base, hbase, -, rfl⟩ := discover?_some h
  refine (List.mergeSort_perm _ _).nodup_iff.mpr (((Ignore.nodup_filesBelow hd base).filter _).map_on ?_)
  intro ms hms ns hns heq
  exact Path.eq_of_steps_descend (isName_of_mem_filesBelow hwf (List.mem_filter.mp hms).1)
    (isName_of_mem_filesBelow hwf (List.mem_filter.mp hns).1) (FileTree.ne_empty_of_locate hbase)
    (congrArg Path.steps heq)

/-- Trees with the same files with the names of stories and the same rules have the same stories. -/
theorem discover?_congr (hwf : t.WellFormed) (hd : t.Distinct) (hd' : t'.Distinct)
    (hbase : t.locate directory = .ok base) (hbase' : t'.locate directory = .ok base)
    (hdir : t.get? base = some .directory) (hdir' : t'.get? base = some .directory)
    (hrules : Ignore.SameRules t t')
    (hfiles : ∀ names, reachesStory t x base names = true →
      (names ∈ Ignore.filesBelow t base ↔ names ∈ Ignore.filesBelow t' base)) :
    discover? t' x directory = discover? t x directory := by
  -- The trees list the same files in orders of their own, and sorting by steps forgets these.
  have hperm : ((Ignore.filesBelow t base).filter (reachesStory t x base)).Perm
      ((Ignore.filesBelow t' base).filter (reachesStory t x base)) := by
    refine (List.perm_ext_iff_of_nodup ((Ignore.nodup_filesBelow hd base).filter _)
      ((Ignore.nodup_filesBelow hd' base).filter _)).mpr fun names => ?_
    rw [List.mem_filter, List.mem_filter]
    exact and_congr_left (hfiles names)
  have hsteps :
      ∀ p ∈ ((Ignore.filesBelow t base).filter (reachesStory t x base)).map (Path.descend directory),
      ∀ q ∈ ((Ignore.filesBelow t base).filter (reachesStory t x base)).map (Path.descend directory),
      Path.steps p = Path.steps q → p = q := by
    intro p hp q hq heq
    obtain ⟨ms, hms, rfl⟩ := List.mem_map.mp hp
    obtain ⟨ns, hns, rfl⟩ := List.mem_map.mp hq
    rw [Path.eq_of_steps_descend (isName_of_mem_filesBelow hwf (List.mem_filter.mp hms).1)
      (isName_of_mem_filesBelow hwf (List.mem_filter.mp hns).1) (FileTree.ne_empty_of_locate hbase) heq]
  simp only [discover?, hbase, hbase', hdir, hdir', if_true, reachesStory_eq hrules]
  rw [Path.sort_eq_of_perm (hperm.map _) hsteps]

end StoryManifest
