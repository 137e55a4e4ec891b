import StoryManifest.Proofs.Component.Implementation

/-!
Several paths to one directory of components. The same names lead to its stories by either of them, in
the same order, and the stories give the same records: a record shows its implementation by the names
that lead there from the directory. Two things are taken from the path itself. A single dot at its start
is shown too, and a component whose story lies right in the directory has the name that the path ends in.
-/

namespace StoryManifest

variable {t : FileTree} {x : Ignore.Exclusion} {p q : Path} {base d : Location} {above : List String}
  {name : String}

/-- Inside one directory a path leads to one place, however the directory is written. -/
theorem FileTree.locate_join_congr (hp : t.locate p = .ok d) (hq : t.locate q = .ok d) (inner : Path) :
    t.locate (Path.join p inner) = t.locate (Path.join q inner) := by
  cases hinner : Path.isAbsolute inner with
  | true => rw [Path.join, Path.join, if_pos hinner, if_pos hinner]
  | false => rw [locate_join_relative hp hinner, locate_join_relative hq hinner]

theorem Path.isAbsolute_join_of_base (hp : isAbsolute p = true) (inner : Path) :
    isAbsolute (join p inner) = true := by
  cases hinner : isAbsolute inner with
  | true => rw [join, if_pos hinner, hinner]
  | false => rw [(splitSlash_join_relative (ne_empty_of_isAbsolute hp) hinner).2.1, hp]

/-- How a path ends does not depend on the directory that it is in. -/
theorem FileTree.namesDirectory_join (hp : p ≠ "") (inner : Path) :
    namesDirectory (Path.join p inner) = namesDirectory inner := by
  cases hinner : Path.isAbsolute inner with
  | true => rw [Path.join, if_pos hinner]
  | false =>
    obtain ⟨-, -, ps, hsplit, -⟩ := Path.splitSlash_join_relative hp hinner
    have hlast := List.getLast?_eq_some_getLast (Path.splitSlash_ne_nil inner.toList)
    rw [namesDirectory, namesDirectory, hsplit, List.getLast?_append, hlast, Option.some_or]

/-! ### Stories -/

theorem Path.compareSteps_append (ss as bs : List Step) :
    compareSteps (ss ++ as) (ss ++ bs) = compareSteps as bs := by
  induction ss with
  | nil => rfl
  | cons s ss ih =>
    have hself : Step.compare s s = .eq := Std.ReflCmp.compare_self
    rw [List.cons_append, List.cons_append, compareSteps, hself, ih]
    rfl

/-- The names that lead to the stories below a directory, in the order of the stories. -/
def storyNames (t : FileTree) (x : Ignore.Exclusion) (base : Location) : List (List String) :=
  ((Ignore.filesBelow t base).filter (reachesStory t x base)).mergeSort fun ms ns =>
    (Path.compareSteps (ms.map .name) (ns.map .name)).isLE

theorem mem_storyNames {names : List String} : names ∈ storyNames t x base ↔
    names ∈ Ignore.filesBelow t base ∧ reachesStory t x base names = true := by
  rw [storyNames, List.mem_mergeSort, List.mem_filter]

/-- The order of stories is that of the names that lead to them, so the path of the directory may be put in
front of the names after these were sorted. -/
theorem discover?_eq_map (hwf : t.WellFormed) (hp : t.locate p = .ok base)
    (hdir : t.get? base = some .directory) (x : Ignore.Exclusion) :
    discover? t x p = some ((storyNames t x base).map (Path.descend p)) := by
  have hne := FileTree.ne_empty_of_locate hp
  have horder : ∀ ms ∈ (Ignore.filesBelow t base).filter (reachesStory t x base),
      ∀ ns ∈ (Ignore.filesBelow t base).filter (reachesStory t x base),
      (Path.compareSteps (ms.map .name) (ns.map .name)).isLE =
        Path.le (Path.descend p ms) (Path.descend p ns) := by
    intro ms hms ns hns
    have hisName := isName_of_mem_filesBelow hwf (List.mem_filter.mp hms).1
    have hisName' := isName_of_mem_filesBelow hwf (List.mem_filter.mp hns).1
    rw [Path.le, Path.steps_descend hisName hne, Path.steps_descend hisName' hne, Path.compareSteps_append]
  rw [discover?, hp]
  simp only [hdir, if_true]
  rw [storyNames, List.map_mergeSort horder]
  rfl

/-! ### Records -/

namespace Component

/-- What a story gives to its record besides the properties: the name of its directory, and the path by which
its implementation is shown. -/
def shown? (t : FileTree) (directory story : Path) : Option (String × String) :=
  (source? t story).map fun file => (nameOf story, includePath directory file)

/-- Names and paths that are shown come from the names that lead to the story. -/
theorem shown?_descend (hwf : t.WellFormed) (hp : t.locate p = .ok base) (hdot : ¬Path.StartsHere p)
    (hmem : above ++ [name] ∈ Ignore.filesBelow t base) (hname : Story.isStoryName name = true) :
    shown? t p (Path.descend p (above ++ [name])) = (Path.lastName? p above).bind fun n =>
      (firstExtension? t (base ++ above) n).map fun extension =>
        (n, "./" ++ "/".intercalate (above ++ [n ++ "." ++ extension])) := by
  have hisName := isName_of_mem_filesBelow hwf hmem
  have habove : ∀ m ∈ above, Path.IsName m := fun m hm => hisName m (List.mem_append_left _ hm)
  have hne := FileTree.ne_empty_of_locate hp
  have hat := storyAt_of_mem hwf hp hmem hname
  have hdirname := fileName?_directoryOf p habove (hisName name (by simp))
  cases hlast : Path.lastName? p above with
  | none =>
    rw [shown?, source?_of_none (hdirname.trans hlast)]
    rfl
  | some n =>
    rw [hlast] at hdirname
    rw [shown?, hat.source?_eq_map hdirname, Option.map_map, Option.bind_some]
    refine Option.map_congr fun extension hextension => Prod.ext ?_ ?_
    · rw [Function.comp_apply, nameOf, hdirname, Option.getD_some]
    · have hsteps := steps_source (hisName name (by simp)) habove hne hdot
        (Path.isName_of_fileName? hdirname) (List.mem_of_find?_eq_some hextension)
      exact includePath_of_steps hne hsteps

/-- Stories with one text and one extension, that are shown in one way, give one record. -/
theorem record?_congr {s : BuildSettings} {story story' : Path}
    (hvariant : Story.variantOf story' = Story.variantOf story)
    (hread : t.readText story' = t.readText story)
    (hshown : shown? t p story' = shown? t s.directory story) :
    record? t { s with directory := p } story' = record? t s story := by
  rw [record?, record?, assemble_eq_match, assemble_eq_match, hvariant, hread]
  rw [shown?, shown?] at hshown
  cases hsource : source? t story with
  | none =>
    rw [hsource] at hshown
    rw [Option.map_eq_none_iff.mp hshown]
    rfl
  | some file =>
    rw [hsource] at hshown
    obtain ⟨file', hsource', hsame⟩ := Option.map_eq_some_iff.mp hshown
    obtain ⟨hname, hfile⟩ := Prod.mk.inj hsame
    rw [hsource']
    cases Story.variantOf story with
    | error fault => rfl
    | ok v =>
      cases t.readText story with
      | error fault => rfl
      | ok text =>
        cases hprogram : Source.Program.ofText v text with
        | error fault => simp only [hprogram, recordIn?]
        | ok program => simp only [hprogram, recordIn?, recordOf, hname, hfile]

/-- A story gives one record by both paths of the directory, where both give its directory one name. -/
theorem record?_descend (hwf : t.WellFormed) {s : BuildSettings} (hp : t.locate p = .ok base)
    (hs : t.locate s.directory = .ok base) (hdot : ¬Path.StartsHere p) (hsdot : ¬Path.StartsHere s.directory)
    (hmem : above ++ [name] ∈ Ignore.filesBelow t base) (hname : Story.isStoryName name = true)
    (hlast : Path.lastName? p above = Path.lastName? s.directory above) :
    record? t { s with directory := p } (Path.descend p (above ++ [name])) =
      record? t s (Path.descend s.directory (above ++ [name])) := by
  have hisName := isName_of_mem_filesBelow hwf hmem name (by simp)
  have hat := storyAt_of_mem hwf hp hmem hname
  have hat' := storyAt_of_mem hwf hs hmem hname
  refine record?_congr ?_ ?_ ?_
  · have hfile : ∀ r, Path.fileName? (Path.descend r (above ++ [name])) = some name := fun r => by
      rw [Path.descend_append, Path.fileName?_join hisName]
    simp only [Story.variantOf, Path.extension?, hfile]
  · rw [FileTree.readText, FileTree.readText, hat.located, hat'.located]
  · rw [shown?_descend hwf hp hdot hmem hname, shown?_descend hwf hs hsdot hmem hname, hlast]

end Component

/-! ### Manifests -/

/-- A story lies right in the directory of components. -/
def FindsOwn (t : FileTree) (s : BuildSettings) : Prop :=
  ∃ stories name, discover? t s.exclusion s.directory = some stories ∧ Path.IsName name ∧
    Path.join s.directory name ∈ stories

/-- Components are shown as other settings show them: the path of their directory does not start with a
single dot, and it ends in the same name, unless no story lies right in that directory. -/
structure ShowsLike (t : FileTree) (s s' : BuildSettings) : Prop where
  notHere : ¬Path.StartsHere s.directory
  fileName : FindsOwn t s → Path.fileName? s.directory = Path.fileName? s'.directory

theorem ShowsLike.lastName?_eq {s s' : BuildSettings} (h : ShowsLike t s s') {stories : List Path}
    (hstories : discover? t s.exclusion s.directory = some stories) (hname : Path.IsName name)
    (hmem : Path.descend s.directory (above ++ [name]) ∈ stories) :
    Path.lastName? s.directory above = Path.lastName? s'.directory above := by
  cases above using List.reverseRecOn with
  | nil => exact h.fileName ⟨stories, name, hstories, hname, hmem⟩
  | append_singleton above last => simp [Path.lastName?]

/-- The manifest is the same by both paths of the directory. -/
theorem Build.exists_of?_eq (hwf : t.WellFormed) {s : BuildSettings} (hsdot : ¬Path.StartsHere s.directory)
    (hlocate : t.locate p = t.locate s.directory) (h : ShowsLike t { s with directory := p } s) {b : Build}
    (hb : of? t s = some b) : ∃ b', of? t { s with directory := p } = some b' ∧
      b'.manifest = b.manifest := by
  obtain ⟨stories, hstories, rfl⟩ := Option.map_eq_some_iff.mp hb
  obtain ⟨base, hbase, hdir, -⟩ := discover?_some hstories
  have hp := hlocate.trans hbase
  have hfound := discover?_eq_map hwf hp hdir s.exclusion
  obtain rfl := Option.some.inj (hstories.symm.trans (discover?_eq_map hwf hbase hdir s.exclusion))
  refine ⟨_, by rw [of?, hfound, Option.map_some], congrArg Manifest.mk ?_⟩
  rw [(holds_ofStories t _ _).components, (holds_ofStories t s _).components, List.filterMap_map,
    List.filterMap_map]
  refine List.filterMap_congr fun names hnames => ?_
  obtain ⟨hmem, hreaches⟩ := mem_storyNames.mp hnames
  obtain ⟨above, name, rfl, hname⟩ := exists_name_of_reachesStory hreaches
  have hisName := isName_of_mem_filesBelow hwf hmem name (by simp)
  exact Component.record?_descend hwf hp hbase h.notHere hsdot hmem hname
    (h.lastName?_eq hfound hisName (List.mem_map_of_mem hnames))

end StoryManifest
