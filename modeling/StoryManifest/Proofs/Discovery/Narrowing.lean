import StoryManifest.Proofs.Watch.Relevance

/-!
What leaving more out does to a search. Rules from patterns and from files of version control only
ever take stories away: a file that keeps what it matches can undo a rule of its own kind, but
nothing that the patterns leave out and nothing that another file says first. So a search that leaves
more out finds fewer stories, and which patterns there are counts, not how often, in which order or
among which broken ones.
-/

namespace StoryManifest

namespace Ignore

variable {t : FileTree} {x y : Exclusion} {base : Location} {names above : List String}

/-- A pattern that holds no rule. -/
def IsBroken (pattern : String) : Prop := Rule.ofPattern? pattern = none

instance (pattern : String) : Decidable (IsBroken pattern) :=
  decidable_of_iff ((Rule.ofPattern? pattern).isNone = true) (by rw [Option.isNone_iff_eq_none, IsBroken])

/-- What one exclusion leaves out another one does too: it has the patterns that are not broken, and it goes
by version control if the first one does. -/
structure Exclusion.Within (x y : Exclusion) : Prop where
  patterns : ∀ pattern ∈ x.patterns, ¬IsBroken pattern → pattern ∈ y.patterns
  versionControl : x.versionControl = true → y.versionControl = true

namespace Exclusion.Within

variable (h : x.Within y)

include h

theorem rules_subset : x.rules ⊆ y.rules := by
  intro r hr
  obtain ⟨pattern, hpattern, hrule⟩ := List.mem_filterMap.mp hr
  refine List.mem_filterMap.mpr ⟨pattern, ?_, hrule⟩
  rw [List.mem_append] at hpattern ⊢
  refine hpattern.imp_right fun hmem => h.patterns pattern hmem fun hbroken => ?_
  cases hbroken.symm.trans hrule

theorem omits {isDirectory : Bool} {path : String} (homits : x.omits isDirectory path = true) :
    y.omits isDirectory path = true := by
  obtain ⟨r, hr, hcovers⟩ := List.any_eq_true.mp homits
  exact List.any_eq_true.mpr ⟨r, h.rules_subset hr, hcovers⟩

/-- The files with rules that one exclusion goes by come first among those of the other one. -/
theorem sources_prefix : x.sources <+: y.sources := by
  cases hx : x.versionControl with
  | false =>
    exact ⟨if y.versionControl then [.versionControlFile, .repositoryFile] else [], by simp [sources, hx]⟩
  | true => simp [sources, hx, h.versionControl hx]

/-- A verdict that files with rules have come to stands when further files are asked after them. -/
theorem ignores {isDirectory : Bool} {l : Location} (hignores : ignores t x isDirectory l = true) :
    Ignore.ignores t y isDirectory l = true := by
  obtain ⟨further, hsources⟩ := h.sources_prefix
  rw [Ignore.ignores, decide_eq_true_iff] at hignores ⊢
  rw [← hsources, List.findSome?_append, hignores, Option.some_or]

theorem enters {isDirectory : Bool} (henters : enters t y base isDirectory names = true) :
    Ignore.enters t x base isDirectory names = true := by
  rw [Ignore.enters, Bool.and_eq_true, Bool.not_eq_true', Bool.not_eq_true', ← Bool.not_eq_true,
    ← Bool.not_eq_true] at henters ⊢
  exact ⟨fun homits => henters.1 (h.omits homits), fun hignores => henters.2 (h.ignores hignores)⟩

/-- A search that leaves more out goes nowhere else: step by step, what is entered was entered before. -/
theorem reaches : ∀ {names above : List String}, reaches t y base above names = true →
    Ignore.reaches t x base above names = true
  | [], _, _ => rfl
  | name :: names, above, hreaches => by
    rw [Ignore.reaches, Bool.and_eq_true] at hreaches ⊢
    exact ⟨h.enters hreaches.1, reaches hreaches.2⟩

theorem reachesStory (hreaches : reachesStory t y base names = true) :
    StoryManifest.reachesStory t x base names = true := by
  rw [StoryManifest.reachesStory, Bool.and_eq_true] at hreaches ⊢
  exact hreaches.imp_right h.reaches

end Exclusion.Within

end Ignore

/-! ### Stories -/

section

variable {t : FileTree} {x y : Ignore.Exclusion} {directory : Path} {stories : List Path}

/-- A search fails only for want of a directory, whatever is left out. -/
theorem isSome_discover? (t : FileTree) (x : Ignore.Exclusion) (directory : Path) :
    (discover? t x directory).isSome = t.isDirectory directory := by
  rw [discover?, FileTree.isDirectory, FileTree.find?]
  cases t.locate directory with
  | error e => rfl
  | ok base =>
    by_cases h : t.get? base = some .directory <;> simp [h]

/-- Each story comes before the ones that follow it: no path is there twice, in whatever way it
is written. -/
theorem pairwise_lt_stories (hwf : t.WellFormed) (hd : t.Distinct)
    (h : discover? t x directory = some stories) :
    stories.Pairwise fun p q => Path.compareSteps (Path.steps p) (Path.steps q) = .lt := by
  have hne : stories.Pairwise (· ≠ ·) := nodup_stories hwf hd h
  refine ((pairwise_stories h).and hne).imp_of_mem fun {p q} hp hq ⟨hle, hpq⟩ => ?_
  rw [Path.le, Ordering.isLE_iff_eq_lt_or_eq_eq] at hle
  refine hle.resolve_right fun heq => hpq ?_
  exact eq_of_mem_stories hwf h hp hq (Std.LawfulEqCmp.eq_of_compare heq)

/-- A story that is found is the file of a story, down a row of names of which none is that of a directory
without sources. -/
theorem exists_names_of_mem_stories (hwf : t.WellFormed) (hd : t.Distinct)
    (h : discover? t x directory = some stories) {story : Path} (hstory : story ∈ stories) :
    Story.isStoryFile story = true ∧ t.isFile story = true ∧ ∃ names : List String, names ≠ [] ∧
      Path.steps story = Path.steps directory ++ names.map .name ∧
      ∀ name ∈ names, name ∉ Ignore.generatedDirectories := by
  obtain ⟨base, hbase, -⟩ := discover?_some h
  obtain ⟨names, hmem, hreaches, rfl⟩ := (mem_stories h hbase).mp hstory
  obtain ⟨above, name, rfl, hname⟩ := exists_name_of_reachesStory hreaches
  have hnames := isName_of_mem_filesBelow hwf hmem
  have hsteps := Path.steps_descend hnames (FileTree.ne_empty_of_locate hbase)
  obtain ⟨content, hget⟩ := (Ignore.mem_filesBelow_iff hd (by simp)).mp hmem
  refine ⟨?_, ?_, above ++ [name], by simp, hsteps,
    Ignore.notMem_generated_of_reaches (Bool.and_eq_true_iff.mp hreaches).2⟩
  · rw [List.map_append, ← List.append_assoc] at hsteps
    rw [Story.isStoryFile_of_steps hsteps, hname]
  · rw [FileTree.isFile, FileTree.find?_descend hwf hbase hnames, hget]

/-- What a search that leaves more out finds was found before. -/
theorem Ignore.Exclusion.Within.stories_subset (hxy : x.Within y) {fewer : List Path}
    (h : discover? t x directory = some stories) (h' : discover? t y directory = some fewer) :
    fewer ⊆ stories := by
  intro story hstory
  obtain ⟨base, hbase, -⟩ := discover?_some h
  obtain ⟨names, hmem, hreaches, hpath⟩ := (mem_stories h' hbase).mp hstory
  exact (mem_stories h hbase).mpr ⟨names, hmem, hxy.reachesStory hreaches, hpath⟩

/-- Exclusions that leave out the same give the same stories. -/
theorem Ignore.Exclusion.Within.discover?_eq (hxy : x.Within y) (hyx : y.Within x) (t : FileTree)
    (directory : Path) : discover? t x directory = discover? t y directory := by
  have hreaches : ∀ base, StoryManifest.reachesStory t x base = StoryManifest.reachesStory t y base :=
    fun base =>
    funext fun _ => Bool.eq_iff_iff.mpr ⟨hyx.reachesStory, hxy.reachesStory⟩
  simp only [discover?, hreaches]

end

/-- Which stories a search finds, in every tree and whatever its ignore files keep. It finds some
wherever there is a directory. They come strictly in the order of their paths, each is the file of a
story below the directory, and no name on the way is that of a directory without sources. More
patterns, and rules of version control, never add a story; and only which patterns there are that are
not broken matters. -/
theorem stories_of_exclusion {t : FileTree} (hwf : t.WellFormed) (hd : t.Distinct) (directory : Path) :
    (∀ x, (discover? t x directory).isSome = t.isDirectory directory) ∧
    (∀ x stories, discover? t x directory = some stories →
      stories.Pairwise (fun p q => Path.compareSteps (Path.steps p) (Path.steps q) = .lt) ∧
      ∀ story ∈ stories, Story.isStoryFile story = true ∧ t.isFile story = true ∧
        ∃ names : List String, names ≠ [] ∧ Path.steps story = Path.steps directory ++ names.map .name ∧
          ∀ name ∈ names, name ∉ Ignore.generatedDirectories) ∧
    (∀ x y stories fewer, discover? t x directory = some stories → discover? t y directory = some fewer →
      x.patterns ⊆ y.patterns → (x.versionControl = true → y.versionControl = true) → fewer ⊆ stories) ∧
    ∀ x y, x.versionControl = y.versionControl →
      (∀ pattern, ¬Ignore.IsBroken pattern → (pattern ∈ x.patterns ↔ pattern ∈ y.patterns)) →
      discover? t x directory = discover? t y directory := by
  refine ⟨fun x => isSome_discover? t x directory, fun x stories h => ?_,
    fun x y stories fewer h h' hpatterns hvc => ?_,
    fun x y hvc hpatterns => ?_⟩
  · exact ⟨pairwise_lt_stories hwf hd h, fun story => exists_names_of_mem_stories hwf hd h⟩
  · have hxy : x.Within y := ⟨fun pattern hmem _ => hpatterns hmem, hvc⟩
    exact hxy.stories_subset h h'
  · have hxy : x.Within y := ⟨fun pattern hmem hworks => (hpatterns pattern hworks).mp hmem, hvc ▸ id⟩
    have hyx : y.Within x := ⟨fun pattern hmem hworks => (hpatterns pattern hworks).mpr hmem, hvc ▸ id⟩
    exact hxy.discover?_eq hyx t directory

/-- A project whose ignore files keep directories that hold no sources, and leave another one out. -/
def keepingProject : FileTree :=
  { nodes := [(["lib"], .directory), (["lib", ".ignore"], .file (.text "!node_modules\n!dist/**\n")),
      (["lib", ".gitignore"], .file (.text "Old/\n!Draft/**\n")),
      (["lib", "Draft"], .directory), (["lib", "Draft", "Draft.stories.ts"], .file (.text "")),
      (["lib", "Old"], .directory), (["lib", "Old", "Old.stories.ts"], .file (.text "")),
      (["lib", "Tag"], .directory), (["lib", "Tag", "Tag.stories.ts"], .file (.text "")),
      (["lib", "Tag", "dist"], .directory), (["lib", "Tag", "dist", "Tag.stories.js"], .file (.text "")),
      (["lib", "node_modules"], .directory), (["lib", "node_modules", "Kit.stories.js"], .file (.text ""))]
    current := [] }

theorem stories_of_exclusion_keepingProject :
    keepingProject.WellFormed ∧ keepingProject.Distinct ∧ Ignore.IsBroken "[" ∧
    discover? keepingProject ⟨[], false⟩ "/lib" =
      some ["/lib/Draft/Draft.stories.ts", "/lib/Old/Old.stories.ts", "/lib/Tag/Tag.stories.ts"] ∧
    discover? keepingProject ⟨["Draft"], true⟩ "/lib" = some ["/lib/Tag/Tag.stories.ts"] ∧
    (∃ names : List String, Path.steps "/lib/Old/Old.stories.ts" = Path.steps "/lib" ++ names.map .name ∧
      ∀ name ∈ names, name ∉ Ignore.generatedDirectories) ∧
    ["/lib/Tag/Tag.stories.ts"] ⊆
      ["/lib/Draft/Draft.stories.ts", "/lib/Old/Old.stories.ts", "/lib/Tag/Tag.stories.ts"] ∧
    discover? keepingProject ⟨["Draft"], true⟩ "/lib" =
      discover? keepingProject ⟨["[", "Draft", "Draft"], true⟩ "/lib" := by
  have hwf : keepingProject.WellFormed := by decide +kernel
  have hd : keepingProject.Distinct := by decide
  have hbroken : Ignore.IsBroken "[" := by decide +kernel
  have hbase : keepingProject.locate "/lib" = .ok ["lib"] := by decide +kernel
  have hall : discover? keepingProject ⟨[], false⟩ "/lib" =
      some ["/lib/Draft/Draft.stories.ts", "/lib/Old/Old.stories.ts", "/lib/Tag/Tag.stories.ts"] :=
    discover?_of_sorted hbase rfl (by decide +kernel) (by decide +kernel)
  have hfew : discover? keepingProject ⟨["Draft"], true⟩ "/lib" = some ["/lib/Tag/Tag.stories.ts"] := by
    decide +kernel
  obtain ⟨-, hfound, hnarrows, hsame⟩ := stories_of_exclusion hwf hd "/lib"
  obtain ⟨-, -, names, -, hsteps, hnames⟩ := (hfound _ _ hall).2 "/lib/Old/Old.stories.ts" (by simp)
  refine ⟨hwf, hd, hbroken, hall, hfew, ⟨names, hsteps, hnames⟩,
    hnarrows _ _ _ _ hall hfew (by simp) (by simp),
    hsame _ _ rfl fun pattern hworks => ?_⟩
  have hne : pattern ≠ "[" := by
    rintro rfl
    exact hworks hbroken
  simp [hne]

end StoryManifest
