import StoryManifest.Proofs.Watch.Coalescing
import StoryManifest.Proofs.Watch.Relevance

/-!
Directories that come and go. A report that a directory is gone names the directory alone, and the path
does not tell that it was one; so a watch goes by the ending of its name. With no patterns, a directory
between the components and a story that is found matters exactly when its name has no ending or the
ending of a file that matters. A directory whose name goes on after a dot, such as a version, can hold a
component but is taken for a file of another kind.
-/

namespace StoryManifest

variable {t : FileTree} {p q story : Path}

/-- A path is on the way to another one, which has more steps. -/
def Path.OnTheWay (p q : Path) : Prop := ∃ ss ≠ [], steps q = steps p ++ ss

/-- Names that lead from one path to another one lead over the paths on the way. -/
theorem Path.OnTheWay.exists_names {names : List String} {base : Path} (hbase : OnTheWay base p)
    (h : OnTheWay p q) (hsteps : steps q = steps base ++ names.map .name) :
    ∃ above below, names = above ++ below ∧ steps p = steps base ++ above.map .name := by
  obtain ⟨ss, -, hp⟩ := hbase
  obtain ⟨ss', -, hq⟩ := h
  rw [hq, hp, List.append_assoc] at hsteps
  obtain ⟨above, below, rfl, rfl, -⟩ := List.append_eq_map_iff.mp (List.append_cancel_left hsteps)
  exact ⟨above, below, rfl, hp⟩

namespace Watch

variable {f : Filter} {names : List String} {root : Path} {o : CommandLine.CommonOptions} {c : Configuration}
  {stories : List Path}

/-- Nothing is left out by no patterns. -/
@[simp] theorem isExcluded_nil (path : String) : isExcluded [] path = false := rfl

/-- A path below the directory, in no directory without sources, goes by its ending when there are no
patterns. -/
theorem Filter.isRelevant_iff_extension (hpatterns : f.patterns = []) (hdirectory : f.directory ≠ "")
    (hsteps : Path.steps p = Path.steps f.directory ++ names.map .name)
    (hnames : ∀ name ∈ names, name ∉ Ignore.generatedDirectories) :
    f.isRelevant p = true ↔ Path.same p f.output = false ∧ (Path.same p f.settings = true ∨
      ∀ extension, Path.extension? p = some extension →
        extension ∈ Story.sourceExtensions ∨ Story.isStoryFile p = true) := by
  obtain ⟨rest, hrest, hsteps⟩ := Path.exists_below? (Path.steps_ne_nil hdirectory) hsteps
  have hgenerated := Ignore.inGeneratedDirectory_eq_false hsteps hnames
  have hadmits : f.admits p rest = true ↔ ∀ extension, Path.extension? p = some extension →
      extension ∈ Story.sourceExtensions ∨ Story.isStoryFile p = true := by
    cases hextension : Path.extension? p <;>
      simp [Filter.admits, hgenerated, hpatterns, hextension, Story.isSourceFile, or_comm]
  rw [Filter.isRelevant_eq_true_iff]
  simp [hrest, hadmits]

/-- An event about one file leaves its change waiting if the file matters, and nothing else. -/
theorem Pending.add_single (f : Filter) (change : Change) (p : Path) :
    Pending.add f [] ⟨some change, [p]⟩ = if f.isRelevant p then [(p, change)] else [] := by
  cases h : f.isRelevant p <;> simp [Pending.add, Pending.record, h]

/-- Which directories a watch without patterns minds. A directory between the components and a story that
is found matters exactly when it is not where the output goes and its name has no ending, or one of an
implementation or of a story; the path of the settings always matters. An event that only tells of a
directory leaves it waiting, with what happened to it, if it matters, and else leaves nothing to do. -/
theorem onTheWay_isRelevant_iff (hwf : t.WellFormed)
    (hpatterns : (o.settings root c).exclusion.patterns = [])
    (hstories : discover? t (o.settings root c).exclusion (o.settings root c).directory = some stories)
    (hstory : story ∈ stories) (hbelow : Path.OnTheWay (o.settings root c).directory p)
    (hp : Path.OnTheWay p story) :
    ((Filter.ofOptions root o c).isRelevant p = true ↔ Path.same p (o.outputPath root c) = false ∧
      (Path.same p (Path.join root Configuration.fileName) = true ∨
        ∀ extension, Path.extension? p = some extension →
          extension ∈ Story.sourceExtensions ∨ Story.isStoryFile p = true)) ∧
    ∀ change, Pending.add (Filter.ofOptions root o c) [] ⟨some change, [p]⟩ =
      if (Filter.ofOptions root o c).isRelevant p then [(p, change)] else [] := by
  obtain ⟨base, hbase, -, -⟩ := discover?_some hstories
  obtain ⟨names, hmem, hreaches, rfl⟩ := (mem_stories hstories hbase).mp hstory
  have hne := FileTree.ne_empty_of_locate hbase
  have hgenerated := Ignore.notMem_generated_of_reaches (Bool.and_eq_true_iff.mp hreaches).2
  obtain ⟨above, below, rfl, hsteps⟩ :=
    hbelow.exists_names hp (Path.steps_descend (isName_of_mem_filesBelow hwf hmem) hne)
  exact ⟨Filter.isRelevant_iff_extension hpatterns hne hsteps fun name hname =>
      hgenerated name (List.mem_append_left _ hname),
    fun change => Pending.add_single _ change p⟩

theorem onTheWay_isRelevant_iff_formsProject :
    Path.OnTheWay "/components" "/components/forms" ∧
    Path.OnTheWay "/components/forms" "/components/forms/Input/Input.stories.tsx" ∧
    Pending.add (Filter.ofOptions "/" { } { }) [] ⟨some .deleted, ["/components/forms"]⟩ =
      [("/components/forms", .deleted)] := by
  have hbelow : Path.OnTheWay "/components" "/components/forms" :=
    ⟨[.name "forms"], by decide, by decide +kernel⟩
  have habove : Path.OnTheWay "/components/forms" "/components/forms/Input/Input.stories.tsx" :=
    ⟨[.name "Input", .name "Input.stories.tsx"], by decide, by decide +kernel⟩
  obtain ⟨hrelevant, hwaiting⟩ := @onTheWay_isRelevant_iff _ _ _ "/" { } { } _ wellFormed_formsProject rfl
    discover?_formsProject (by simp) hbelow habove
  refine ⟨hbelow, habove, ?_⟩
  rw [hwaiting, if_pos]
  have hextension : Path.extension? "/components/forms" = none := by decide +kernel
  exact hrelevant.mpr ⟨by decide +kernel, .inr (by simp [hextension])⟩

/-- A project with a component whose directory has a version in its name. -/
def versionedProject : FileTree :=
  { nodes := [(["components"], .directory), (["components", "Card.v2"], .directory),
      (["components", "Card.v2", "Card.v2.stories.tsx"], .file (.text "export default \x7b\x7d;")),
      (["components", "Card.v2", "Card.v2.tsx"], .file (.text ""))]
    current := [] }

/-- The directory of a component with a version in its name is taken for some other file: that it is gone
leaves nothing to do. -/
theorem isRelevant_versionedProject_false : versionedProject.WellFormed ∧
    discover? versionedProject ⟨[], true⟩ "/components" = some ["/components/Card.v2/Card.v2.stories.tsx"] ∧
    Component.source? versionedProject "/components/Card.v2/Card.v2.stories.tsx" =
      some "/components/Card.v2/Card.v2.tsx" ∧
    Path.steps "/components/Card.v2" = Path.steps "/components" ++ [.name "Card.v2"] ∧
    (Filter.ofOptions "/" { } { }).isRelevant "/components/Card.v2" = false ∧
    Pending.add (Filter.ofOptions "/" { } { }) [] ⟨some .deleted, ["/components/Card.v2"]⟩ = [] := by
  have hirrelevant : (Filter.ofOptions "/" { } { }).isRelevant "/components/Card.v2" = false := by
    decide +kernel
  refine ⟨by decide +kernel, by decide +kernel, by decide +kernel, by decide +kernel, hirrelevant, ?_⟩
  rw [Pending.add_single, hirrelevant]
  rfl

end Watch

end StoryManifest
