import StoryManifest.Proofs.Building
import StoryManifest.Proofs.Command.Serialization

/-!
Components do not depend on one another. What a story gives depends on its own text and on the file that is
found as its implementation alone, and inspecting the story prints the properties of its record. So whatever
is added to a project, the records that were there stay, in their order; a component that is added and has to
be skipped changes no record at all.
-/

namespace StoryManifest

variable {t t' : FileTree} {s : BuildSettings} {story : Path} {stories stories' : List Path} {b b' : Build}

/-! ### Two trees -/

/-- A story has the same text and the same implementation in both trees. -/
structure SameStory (t t' : FileTree) (story : Path) : Prop where
  text : t'.readText story = t.readText story
  source : Component.source? t' story = Component.source? t story

/-- A story has no implementation, or its text is no program. -/
inductive Component.IsBroken (t : FileTree) (story : Path) : Prop
  | missing : source? t story = none → IsBroken t story
  | unparsable {v : Source.Variant} {text : String} {fault : Source.SyntaxFault} :
      Story.variantOf story = .ok v → t.readText story = .ok text →
      Source.Program.ofText v text = .error fault → IsBroken t story

/-- A tree has a further directory, in which no file holds rules, and is the same everywhere else. -/
structure FileTree.Adds (d : Location) (t t' : FileTree) : Prop where
  current_eq : t'.current = t.current
  fresh : ∀ l, d <+: l → t.get? l = none
  directory : t'.get? d = some .directory
  elsewhere : ∀ l, ¬d <+: l → t'.get? l = t.get? l
  noRules : ∀ (s : Ignore.Source) (directory : Location), d <+: s.location directory →
    t'.intactText? (s.location directory) = none

/-! ### What a story gives -/

theorem SameStory.assemble_eq (h : SameStory t t' story) (s : BuildSettings) :
    Component.assemble t' s story = Component.assemble t s story :=
  Component.assemble_congr h.source h.text

theorem SameStory.record?_eq (h : SameStory t t' story) (s : BuildSettings) :
    Component.record? t' s story = Component.record? t s story := by
  rw [Component.record?, Component.record?, h.assemble_eq]

theorem SameStory.diagnosticsOf_eq (h : SameStory t t' story) (s : BuildSettings) :
    Component.diagnosticsOf t' s story = Component.diagnosticsOf t s story := by
  rw [Component.diagnosticsOf, Component.diagnosticsOf, h.assemble_eq]

/-- A broken story gives no record. -/
theorem Component.IsBroken.record? (h : IsBroken t story) (s : BuildSettings) :
    record? t s story = none := by
  have herror : ∃ reason, assemble t s story = .error reason := by
    rw [assemble_eq_match]
    cases h with
    | missing hsource => exact ⟨_, by rw [hsource]⟩
    | unparsable hv htext hfault =>
      cases source? t story with
      | none => exact ⟨_, rfl⟩
      | some file => exact ⟨_, by simp only [hv, htext, hfault]; rfl⟩
  obtain ⟨reason, hreason⟩ := herror
  exact record?_of_error hreason

/-! ### Inspecting -/

theorem Story.extractFile_of_program {v : Source.Variant} {text : String} {p : Source.Program}
    (hv : variantOf story = .ok v) (htext : t.readText story = .ok text)
    (hp : Source.Program.ofText v text = .ok p) : extractFile t story = .ok (extractIn story p) := by
  rw [extractFile, readProgram, hv, htext]
  simp only [programOf, bind, Except.bind, Except.mapError, hp, Except.map]

/-- Inspecting a story that assembles, by any path to it that ends in its name, prints the properties of its
record. -/
theorem Command.inspect_of_assemble {r : ComponentRecord} {ds : List Diagnostic} {root p : Path}
    (h : Component.assemble t s story = .ok (r, ds))
    (hname : Path.fileName? (Path.join root p) = Path.fileName? story)
    (hlocate : t.locate (Path.join root p) = t.locate story) :
    (inspect t root p).fault = none ∧
      ∃ text, Json.pretty (.list (r.props.map Property.toValue)) = some text ∧
        (inspect t root p).printed = line text := by
  obtain ⟨file, v, text, program, -, hv, htext, hprogram, rfl, -⟩ := Component.assemble_ok h
  have hv' : Story.variantOf (Path.join root p) = .ok v := by
    rw [← hv]
    delta Story.variantOf
    simp only [Path.extension?, hname]
  have htext' : t.readText (Path.join root p) = .ok text := by
    rw [← htext, FileTree.readText, FileTree.readText, hlocate]
  have hextract := Story.extractFile_of_program hv' htext' hprogram
  obtain ⟨shown, hshown⟩ := Story.exists_text_of_extractFile hextract
  have hinspect : (inspect t root p).fault = none ∧ (inspect t root p).printed = line shown := by
    delta inspect
    simp only [hextract, hshown, and_self]
  exact ⟨hinspect.1, shown, hshown, hinspect.2⟩

/-! ### Builds with more stories -/

section

variable (hwf : t.WellFormed) (hd : t.Distinct) (hd' : t'.Distinct) (hwf' : t'.WellFormed)
  (h : discover? t s.exclusion s.directory = some stories)
  (h' : discover? t' s.exclusion s.directory = some stories')
  (hsame : ∀ story ∈ stories, story ∈ stories' ∧ SameStory t t' story)

include hwf hd hwf' hd' h h' hsame

/-- The stories that were there are those that stay among the stories that are there, in their order. -/
theorem stories_eq_filter : stories = stories'.filter (· ∈ stories) := by
  have hperm : stories.Perm (stories'.filter (· ∈ stories)) := by
    refine (List.perm_ext_iff_of_nodup (nodup_stories hwf hd h)
      ((nodup_stories hwf' hd' h').filter _)).mpr ?_
    intro story
    simp only [List.mem_filter, decide_eq_true_eq]
    exact ⟨fun hmem => ⟨(hsame story hmem).1, hmem⟩, And.right⟩
  exact Path.eq_of_perm hperm (pairwise_stories h) ((pairwise_stories h').filter _)
    fun p hp q hq => eq_of_mem_stories hwf h hp hq

theorem components_eq : (Build.ofStories t s stories).manifest.components =
    (stories'.filter (· ∈ stories)).filterMap (Component.record? t' s) := by
  rw [(Build.holds_ofStories t s stories).components,
    ← stories_eq_filter hwf hd hd' hwf' h h' hsame]
  exact List.filterMap_congr fun story hmem => ((hsame story hmem).2.record?_eq s).symm

/-- Records stay, in their order, when stories are added. -/
theorem components_sublist : (Build.ofStories t s stories).manifest.components.Sublist
    (Build.ofStories t' s stories').manifest.components := by
  rw [components_eq hwf hd hd' hwf' h h' hsame, (Build.holds_ofStories t' s stories').components]
  exact List.filter_sublist.filterMap _

/-- No record changes and none is added when the stories that are added are broken. -/
theorem components_eq_of_broken
    (hbroken : ∀ story ∈ stories', story ∉ stories → Component.IsBroken t' story) :
    (Build.ofStories t' s stories').manifest.components =
      (Build.ofStories t s stories).manifest.components := by
  rw [components_eq hwf hd hd' hwf' h h' hsame, (Build.holds_ofStories t' s stories').components,
    List.filterMap_filter]
  refine List.filterMap_congr fun story hmem => ?_
  by_cases hold : story ∈ stories
  · simp [hold]
  · simp [hold, (hbroken story hmem hold).record? s]

end

/-! ### A directory that is added -/

namespace FileTree.Adds

variable {d k l : Location} {base : Location} {p : Path} (h : Adds d t t')

include h

theorem not_below {n : FileNode} (hk : t.get? k = some n) : ¬d <+: k := fun hbelow => by
  rw [h.fresh k hbelow] at hk
  cases hk

theorem get?_of_some {n : FileNode} (hk : t.get? k = some n) : t'.get? k = some n :=
  (h.elsewhere k (h.not_below hk)).trans hk

theorem locate (hp : t.locate p = .ok l) : t'.locate p = .ok l :=
  locate_mono h.current_eq (fun _ hk => h.get?_of_some hk) hp

theorem sameRules : Ignore.SameRules t t' := fun source directory => by
  by_cases hbelow : d <+: source.location directory
  · rw [h.noRules source directory hbelow, intactText?, h.fresh _ hbelow]
  · rw [intactText?, intactText?, h.elsewhere _ hbelow]

/-- What is in a directory that was there is a file in both trees or in none. -/
theorem isFile_eq {name : String} (hdir : t.get? k = some .directory)
    (hp : t.locate p = .ok (k ++ [name])) : t'.isFile p = t.isFile p := by
  simp only [isFile, find?, hp, h.locate hp]
  by_cases hbelow : d <+: k ++ [name]
  · -- The directory that is added is no file, and nothing deeper in it is in a directory that was there.
    rcases List.prefix_concat_iff.mp hbelow with rfl | hbelow'
    · rw [h.directory, h.fresh _ hbelow]
    · exact absurd hbelow' (h.not_below hdir)
  · rw [h.elsewhere _ hbelow]

variable (hd : t.Distinct) (hd' : t'.Distinct)
  (hstories : discover? t s.exclusion s.directory = some stories)
  (hstories' : discover? t' s.exclusion s.directory = some stories')

include hd hd' hstories hstories'

/-- The stories that were there are found again, with the same text and the same implementation. -/
theorem sameStory (hwf : t.WellFormed) (hmem : story ∈ stories) :
    story ∈ stories' ∧ SameStory t t' story := by
  obtain ⟨base, hbase, -⟩ := discover?_some hstories
  obtain ⟨names, hfile, hreaches, rfl⟩ := (mem_stories hstories hbase).mp hmem
  obtain ⟨above, name, rfl, hname⟩ := exists_name_of_reachesStory hreaches
  have hstory := Component.storyAt_of_mem hwf hbase hfile hname
  obtain ⟨content, hget⟩ := (Ignore.mem_filesBelow_iff hd (by simp)).mp hfile
  have hget' := h.get?_of_some hget
  refine ⟨(mem_stories hstories' (h.locate hbase)).mpr
    ⟨_, (Ignore.mem_filesBelow_iff hd' (by simp)).mpr ⟨content, hget'⟩, ?_, rfl⟩, ?_, ?_⟩
  · rwa [reachesStory_eq h.sameRules]
  · rw [← List.append_assoc] at hget hget'
    simp only [readText, hstory.located, h.locate hstory.located, hget, hget']
  · refine Component.source?_congr fun n hn extension hextension => ?_
    exact h.isFile_eq hstory.isDirectory (hstory.locate_source hn hextension)

/-- A story that was not there is in the directory that is added. -/
theorem below_of_mem (hwf' : t'.WellFormed) (hmem : story ∈ stories') (hnew : story ∉ stories) :
    ∃ l, t'.locate story = .ok l ∧ d <+: l := by
  obtain ⟨base, hbase, -⟩ := discover?_some hstories
  obtain ⟨names, hfile, hreaches, rfl⟩ := (mem_stories hstories' (h.locate hbase)).mp hmem
  obtain ⟨above, name, rfl, hname⟩ := exists_name_of_reachesStory hreaches
  have hstory := Component.storyAt_of_mem hwf' (h.locate hbase) hfile hname
  have hlocated := hstory.located
  rw [List.append_assoc] at hlocated
  refine ⟨_, hlocated, ?_⟩
  by_contra hbelow
  obtain ⟨content, hget⟩ := (Ignore.mem_filesBelow_iff hd' (by simp)).mp hfile
  rw [h.elsewhere _ hbelow] at hget
  refine hnew ((mem_stories hstories hbase).mpr
    ⟨_, (Ignore.mem_filesBelow_iff hd (by simp)).mpr ⟨content, hget⟩, ?_, rfl⟩)
  rwa [← reachesStory_eq h.sameRules]

end FileTree.Adds

/-! ### Isolation -/

/-- Builds of two projects with the same settings account for their stories. A story that is found in
both with the same text and the same implementation gives the same record and the same diagnostics, or is
skipped for the same reason. Inspecting a story that assembles prints the properties of its record. Where
all stories of one project are found in the other as they were, all records are there in the same order,
and they are the very same records if every further story is broken. So it is where the other project has
a further directory in which every story is broken. -/
theorem components_isolated (s : BuildSettings) (t t' : FileTree)
    (hb : Build.of? t s = some b) (hb' : Build.of? t' s = some b')
    (h : discover? t s.exclusion s.directory = some stories)
    (h' : discover? t' s.exclusion s.directory = some stories') :
    Build.Accounts t s stories b ∧ Build.Accounts t' s stories' b' ∧
    (∀ story ∈ stories, story ∈ stories' → SameStory t t' story →
      Component.assemble t' s story = Component.assemble t s story ∧
      Component.record? t' s story = Component.record? t s story ∧
      Component.diagnosticsOf t' s story = Component.diagnosticsOf t s story) ∧
    (∀ story ∈ stories, ∀ r ds root p, Component.assemble t s story = .ok (r, ds) →
      Path.fileName? (Path.join root p) = Path.fileName? story →
      t.locate (Path.join root p) = t.locate story →
      (Command.inspect t root p).fault = none ∧
        ∃ text, Json.pretty (.list (r.props.map Property.toValue)) = some text ∧
          (Command.inspect t root p).printed = Command.line text) ∧
    (t.WellFormed → t.Distinct → t'.WellFormed → t'.Distinct →
      (∀ story ∈ stories, story ∈ stories' ∧ SameStory t t' story) →
      b.manifest.components.Sublist b'.manifest.components ∧
      ((∀ story ∈ stories', story ∉ stories → Component.IsBroken t' story) →
        b'.manifest.components = b.manifest.components)) ∧
    (t.WellFormed → t.Distinct → t'.WellFormed → t'.Distinct → ∀ d, FileTree.Adds d t t' →
      (∀ story ∈ stories', ∀ l, t'.locate story = .ok l → d <+: l → Component.IsBroken t' story) →
      b'.manifest.components = b.manifest.components) := by
  rw [Build.of?_of_discover? h, Option.some.injEq] at hb
  rw [Build.of?_of_discover? h', Option.some.injEq] at hb'
  subst hb hb'
  refine ⟨Build.accounts_ofStories h, Build.accounts_ofStories h',
    fun story _ _ hsame => ⟨hsame.assemble_eq s, hsame.record?_eq s, hsame.diagnosticsOf_eq s⟩,
    fun story _ r ds root p => Command.inspect_of_assemble,
    fun hwf hd hwf' hd' hsame => ⟨components_sublist hwf hd hd' hwf' h h' hsame,
      components_eq_of_broken hwf hd hd' hwf' h h' hsame⟩,
    fun hwf hd hwf' hd' d hadds hbroken => ?_⟩
  refine components_eq_of_broken hwf hd hd' hwf' h h' (fun story => hadds.sameStory hd hd' h h' hwf)
    fun story hmem hnew => ?_
  obtain ⟨l, hl, hbelow⟩ := hadds.below_of_mem hd hd' h h' hwf' hmem hnew
  exact hbroken story hmem l hl hbelow

/-- The project with a further component that has no implementation. -/
def mugProject : FileTree :=
  (shelfProject.put ["lib", "Mug"] .directory).put ["lib", "Mug", "Mug.stories.ts"]
    (.file (.text "export default \x7b\x7d;"))

theorem get?_mugProject (l : Location) : mugProject.get? l =
    if l = ["lib", "Mug", "Mug.stories.ts"] then some (.file (.text "export default \x7b\x7d;"))
    else if l = ["lib", "Mug"] then some .directory else shelfProject.get? l := by
  rw [mugProject, FileTree.get?_put (by simp), FileTree.get?_put (by simp)]

theorem fresh_mug (l : Location) (hl : ["lib", "Mug"] <+: l) : shelfProject.get? l = none := by
  obtain ⟨names, rfl⟩ := hl
  rw [FileTree.get?, if_neg (by simp), List.lookup_eq_none_iff]
  simp [shelfProject]

theorem adds_mugProject : FileTree.Adds ["lib", "Mug"] shelfProject mugProject where
  current_eq := rfl
  fresh := fresh_mug
  directory := by decide +kernel
  elsewhere l hl := by
    rw [get?_mugProject, if_neg, if_neg]
    · rintro rfl
      exact hl List.prefix_rfl
    · rintro rfl
      exact hl ⟨["Mug.stories.ts"], rfl⟩
  noRules source directory hbelow := by
    have hname : source.location directory ≠ ["lib", "Mug", "Mug.stories.ts"] := fun heq => by
      have hlast := congrArg List.getLast? heq
      cases source <;> simp [Ignore.Source.location] at hlast
    rw [FileTree.intactText?, get?_mugProject, if_neg hname, fresh_mug _ hbelow]
    split <;> simp_all

/-- The story of the further component is found and has no implementation. -/
theorem isBroken_mug (hstories : discover? mugProject { } "lib" = some stories) (hmem : story ∈ stories)
    {l : Location} (hl : mugProject.locate story = .ok l) (hbelow : ["lib", "Mug"] <+: l) :
    Component.IsBroken mugProject story := by
  have hbase : mugProject.locate "lib" = .ok ["lib"] := by decide +kernel
  have hfiles : ∀ names ∈ Ignore.filesBelow mugProject ["lib"],
      mugProject.locate (Path.descend "lib" names) = .ok (["lib"] ++ names) ∧
        (["lib", "Mug"] <+: ["lib"] ++ names →
          Component.source? mugProject (Path.descend "lib" names) = none) := by decide +kernel
  obtain ⟨names, hfile, -, rfl⟩ := (mem_stories hstories hbase).mp hmem
  obtain ⟨hlocate, hsource⟩ := hfiles names hfile
  obtain rfl := Except.ok.inj (hlocate.symm.trans hl)
  exact .missing (hsource hbelow)

/-- The further component changes no record, and inspecting a story prints the properties of its record. -/
theorem components_isolated_mugProject : ∃ b b', Build.of? shelfProject { directory := "lib" } = some b ∧
    Build.of? mugProject { directory := "lib" } = some b' ∧
    b'.manifest.components = b.manifest.components ∧ b.manifest.components.length = 1 ∧
    Component.record? mugProject { directory := "lib" } "lib/Tag/Tag.stories.ts" =
      Component.record? shelfProject { directory := "lib" } "lib/Tag/Tag.stories.ts" ∧
    (Command.inspect shelfProject "." "lib/Tag/Tag.stories.ts").fault = none := by
  have hwf : shelfProject.WellFormed := by decide +kernel
  have hwf' : mugProject.WellFormed := by decide +kernel
  have hd : shelfProject.Distinct := by decide +kernel
  have hd' : mugProject.Distinct := by decide +kernel
  have hb : Build.of? shelfProject { directory := "lib" } =
      some (Build.ofStories shelfProject { directory := "lib" } shelfStories) :=
    Build.of?_of_discover? discover?_shelfProject
  have hfound : (discover? mugProject { } "lib").isSome = true := by decide +kernel
  obtain ⟨stories, hstories⟩ := Option.isSome_iff_exists.mp hfound
  have hb' : Build.of? mugProject { directory := "lib" } =
      some (Build.ofStories mugProject { directory := "lib" } stories) := Build.of?_of_discover? hstories
  obtain ⟨-, -, hgives, hinspect, -, hadded⟩ := components_isolated { directory := "lib" } shelfProject
    mugProject hb hb' discover?_shelfProject hstories
  have htag : "lib/Tag/Tag.stories.ts" ∈ shelfStories := by decide
  have hrecord :
      (Component.record? shelfProject { directory := "lib" } "lib/Tag/Tag.stories.ts").isSome = true := by
    decide +kernel
  have hlength :
      (Build.ofStories shelfProject { directory := "lib" } shelfStories).manifest.components.length = 1 := by
    decide +kernel
  obtain ⟨r, hr⟩ := Option.isSome_iff_exists.mp hrecord
  obtain ⟨ds, hassemble⟩ := Component.exists_of_record? hr
  have hthere :
      "lib/Tag/Tag.stories.ts" ∈ stories ∧ SameStory shelfProject mugProject "lib/Tag/Tag.stories.ts" :=
    @FileTree.Adds.sameStory _ _ { directory := "lib" } _ _ _ _ adds_mugProject hd hd' discover?_shelfProject
      hstories hwf htag
  exact ⟨_, _, hb, hb',
    hadded hwf hd hwf' hd' _ adds_mugProject fun _ hmem _ hl hbelow => isBroken_mug hstories hmem hl hbelow,
    hlength, (hgives _ htag hthere.1 hthere.2).2.1,
    (hinspect _ htag r ds "." "lib/Tag/Tag.stories.ts" hassemble (by decide +kernel) (by decide +kernel)).1⟩

end StoryManifest
