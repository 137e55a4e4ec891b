import StoryManifest.Proofs.Command.Agreement
import StoryManifest.Proofs.Path.Steps
import StoryManifest.Watch.Observation

/-!
Watches that run. Files may change in any way, events may report anything, and now and then the manifest is
built anew; what a watch was started with stays. So a manifest that is written where the first one went
never matters, and a build of it leaves nothing to do. Settings that move the manifest are another matter:
they are read by every build, but the watch goes on leaving out the first place only.
-/

namespace StoryManifest

/-! ### Paths of locations -/

/-- A path from the root that never goes back is the path of the location that it leads to. -/
theorem Path.same_toPath {t : FileTree} {p : Path} {l : Location} (habsolute : isAbsolute p = true)
    (hup : .up ∉ steps p) (h : t.locate p = .ok l) : same l.toPath p = true := by
  have hslash : ∀ piece ∈ moves p, '/' ∉ piece := fun piece hpiece =>
    noSlash_of_mem_splitSlash (List.mem_of_mem_filter hpiece)
  have hl : l = (moves p).map String.ofList := by
    have hmoves := FileTree.eq_of_locate (fun hmem => hup (up_mem_steps hmem)) h
    simpa [FileTree.startOf, habsolute] using hmoves
  have htext : l.toPath.toList = '/' :: List.intercalate ['/'] (moves p) := by
    have hnames : (l.map String.toList) = moves p := by simp [hl]
    rw [Location.toPath, String.toList_append, String.toList_intercalate, hnames]
    rfl
  have hsame : SameMoves l.toPath p := by
    refine ⟨?_, by rw [habsolute, isAbsolute, htext]; rfl⟩
    have hidle : (moves p).filter (!isIdle ·) = moves p := by
      rw [moves, List.filter_filter]
      simp
    rw [moves, htext, splitSlash_slash]
    cases hmoves : moves p with
    | nil => rfl
    | cons piece pieces =>
      rw [hmoves] at hslash hidle
      rw [splitSlash_intercalate hslash, List.filter_cons_of_neg (by decide)]
      exact hidle
  exact decide_eq_true (hsame.steps_eq habsolute)

namespace Command

variable {t : FileTree} {output : Path}

/-! ### Trees that a build leaves -/

/-- With nothing to make around it, a file is all that writing it may add. -/
theorem writeFile_of_isDirectory (text : String)
    (h : (Path.parent? output).getD "" = "" ∨ t.isDirectory ((Path.parent? output).getD "") = true) :
    (writeFile t output text).1 = t ∨ ∃ l content, t.locate output = .ok l ∧ l ≠ [] ∧
      (writeFile t output text).1 = t.put l (.file content) := by
  rw [writeFile, FileTree.makePath_of_isDirectory h]
  cases hwrite : t.writeText output text with
  | error e => exact .inl (by simp only [hwrite])
  | ok written =>
    obtain ⟨l, hl, -, hdir, rfl⟩ := FileTree.writeText_ok hwrite
    exact .inr ⟨l, .text text, hl, FileTree.ne_nil_of_not_directory hdir, by simp only [hwrite]⟩

theorem rebuild_of_isDirectory {root : Path} {o : CommandLine.CommonOptions} {w : Watch.Pending}
    (houtput : outputOf t root o = output)
    (h : (Path.parent? output).getD "" = "" ∨ t.isDirectory ((Path.parent? output).getD "") = true) :
    (Watch.rebuild t root o w).tree = t ∨ ∃ l content, t.locate output = .ok l ∧ l ≠ [] ∧
      (Watch.rebuild t root o w).tree = t.put l (.file content) := by
  have htree : (Watch.rebuild t root o w).tree =
      (writeManifest t (settingsOf t root o) output false).tree := by
    rw [Watch.rebuild, generate_false, houtput]
  rw [htree, writeManifest]
  cases hbuilt : builtText t (settingsOf t root o) with
  | error e => exact .inl rfl
  | ok built =>
    obtain ⟨b, text⟩ := built
    have hwritten := writeFile_of_isDirectory text h
    cases hwrite : writeFile t output text with
    | mk written fault =>
      rw [hwrite] at hwritten
      simp only [hwrite]
      cases fault <;> exact hwritten

end Command

namespace Watch

/-! ### What is seen of a build -/

theorem mem_putNode {l : Location} {n : FileNode} {e : Location × FileNode} :
    ∀ {nodes : List (Location × FileNode)}, e ∈ FileTree.putNode l n nodes → e = (l, n) ∨ e ∈ nodes
  | [], h => .inl (List.mem_singleton.mp h)
  | (k, m) :: nodes, h => by
    rw [FileTree.putNode] at h
    split at h
    · exact (List.mem_cons.mp h).imp_right (List.mem_cons_of_mem _)
    · rcases List.mem_cons.mp h with rfl | h
      · exact .inr List.mem_cons_self
      · exact (mem_putNode h).imp_right (List.mem_cons_of_mem _)

/-- A tree that lists each of its nodes once and the root not at all. -/
structure IsListed (t : FileTree) : Prop where
  distinct : t.Distinct
  ne_root : ∀ e ∈ t.nodes, e.1 ≠ []

theorem IsListed.get?_of_mem {t : FileTree} (h : IsListed t) {e : Location × FileNode} (he : e ∈ t.nodes) :
    t.get? e.1 = some e.2 := h.distinct.get?_of_mem he (h.ne_root e he)

theorem eventsBetween_self {t : FileTree} (h : IsListed t) : eventsBetween t t = [] := by
  have hnews : news t t = [] := List.filter_eq_nil_iff.mpr fun e he => by
    simp [isNews, h.get?_of_mem he]
  have hlost : t.nodes.filter (fun e => (t.get? e.1).isNone) = [] :=
    List.filter_eq_nil_iff.mpr fun e he => by simp [h.get?_of_mem he]
  rw [eventsBetween, hnews, hlost]
  rfl

/-- What is put at a location is seen there and nowhere else. -/
theorem paths_of_mem_eventsBetween_put {t : FileTree} (h : IsListed t) {l : Location} (hl : l ≠ [])
    {n : FileNode} {e : Event} (he : e ∈ eventsBetween t (t.put l n)) : e.paths = [l.toPath] := by
  rcases List.mem_append.mp he with he | he
  · obtain ⟨⟨k, m⟩, hmem, rfl⟩ := List.mem_map.mp he
    obtain ⟨hmem, hnew⟩ := List.mem_filter.mp hmem
    rcases mem_putNode hmem with hkm | hmem
    · obtain ⟨rfl, rfl⟩ := Prod.mk.inj hkm
      rfl
    · simp [isNews, h.get?_of_mem hmem] at hnew
  · obtain ⟨⟨k, m⟩, hmem, rfl⟩ := List.mem_map.mp he
    obtain ⟨hmem, hlost⟩ := List.mem_filter.mp hmem
    rw [FileTree.get?_put hl] at hlost
    split at hlost
    · cases hlost
    · simp [h.get?_of_mem hmem] at hlost

/-! ### Runs -/

namespace Session

/-- A watch once the manifest was built anew. -/
def rebuilt (s : Session) : Session := { s with tree := s.rebuild.tree, pending := [] }

/-- What may happen while a watch runs: files change, an event is reported, or the manifest is built anew
because changes wait. -/
inductive Step : Session → Session → Prop
  | edit (s : Session) (t : FileTree) : Step s { s with tree := t }
  | event (s : Session) (e : Event) : Step s (s.add e)
  | rebuild (s : Session) : s.pending ≠ [] → Step s s.rebuilt

/-- A watch that was started on some files and has run for a while. -/
inductive Runs (t : FileTree) (root : Path) (o : CommandLine.CommonOptions) : Session → Prop
  | start : (start t root o).succeeds = true → Runs t root o (.opening t root o (Watch.start t root o).tree)
  | step {s s' : Session} : Runs t root o s → Step s s' → Runs t root o s'

/-- Seeing the files anew is an edit and some events. -/
theorem Runs.observe {t : FileTree} {root : Path} {o : CommandLine.CommonOptions} {s : Session}
    (h : Runs t root o s) (later : FileTree) : Runs t root o (s.observe later) := by
  have hevents : ∀ (es : List Event) {s : Session}, Runs t root o s → Runs t root o (es.foldl add s) := by
    intro es
    induction es with
    | nil => exact fun h => h
    | cons e es ih => exact fun h => ih (h.step (.event _ e))
  exact (hevents _ h).step (.edit _ later)

/-- What a watch was started with. -/
structure StartedWith (t : FileTree) (root : Path) (o : CommandLine.CommonOptions) (s : Session) : Prop where
  root_eq : s.root = watchedRoot t root
  options_eq : s.options = o
  filter_eq : s.filter = .ofOptions (watchedRoot t root) o (Configuration.load t (watchedRoot t root))

theorem StartedWith.step {t : FileTree} {root : Path} {o : CommandLine.CommonOptions} {s s' : Session}
    (h : StartedWith t root o s) (hstep : Step s s') : StartedWith t root o s' := by
  cases hstep <;> exact ⟨h.root_eq, h.options_eq, h.filter_eq⟩

/-- Nothing that happens changes what a watch was started with. -/
theorem Runs.startedWith {t : FileTree} {root : Path} {o : CommandLine.CommonOptions} {s : Session}
    (h : Runs t root o s) : StartedWith t root o s := by
  induction h with
  | start => exact ⟨rfl, rfl, rfl⟩
  | step _ hstep ih => exact ih.step hstep

/-- Where building the manifest anew would write it. -/
def output (s : Session) : Path := Command.outputOf s.tree s.root s.options

end Session

/-! ### What a watch makes of its own builds -/

section

variable {t : FileTree} {root : Path} {o : CommandLine.CommonOptions} {s : Session}

theorem Filter.isRelevant_of_same {f : Filter} {p : Path} (h : Path.same p f.output = true) :
    f.isRelevant p = false := by
  rw [isRelevant, if_pos h]

theorem Filter.isRelevant_eq_true_iff {f : Filter} {p : Path} : f.isRelevant p = true ↔
    Path.same p f.output = false ∧ (Path.same p f.settings = true ∨
      ∃ rest, Path.below? f.directory p = some rest ∧ f.admits p rest = true) := by
  rw [isRelevant]
  cases Path.same p f.output <;> cases Path.same p f.settings <;> cases Path.below? f.directory p <;> simp

/-- Events that are only about a path that does not matter leave nothing to do. -/
theorem Session.pending_foldl_add {p : Path} : ∀ {es : List Event} {s : Session}, s.pending = [] →
    s.filter.isRelevant p = false → (∀ e ∈ es, e.paths = [p]) → (es.foldl add s).pending = []
  | [], _, hpending, _, _ => hpending
  | e :: es, s, hpending, hp, hes => by
    have hadd : (s.add e).pending = [] := by
      rw [add, Pending.add, hpending, hes e List.mem_cons_self]
      cases e.change <;> simp [hp]
    rw [List.foldl_cons]
    exact pending_foldl_add hadd hp fun e' he' => hes e' (List.mem_cons_of_mem _ he')

/-- The output that a build writes is left out when it is the one from the start. -/
theorem Session.Runs.same_output (h : Runs t root o s) (houtput : o.output.isSome = true ∨
      (Configuration.load s.tree s.root).output = (Configuration.load t (watchedRoot t root)).output) :
    s.output = s.filter.output := by
  have hstarted := h.startedWith
  rw [hstarted.root_eq] at houtput
  rw [output, Command.outputOf, hstarted.options_eq, hstarted.filter_eq, hstarted.root_eq, Filter.ofOptions,
    CommandLine.CommonOptions.outputPath, CommandLine.CommonOptions.outputPath]
  rcases houtput with houtput | houtput
  · obtain ⟨p, hp⟩ := Option.isSome_iff_exists.mp houtput
    rw [hp, Option.getD_some, Option.getD_some]
  · rw [houtput]

/-- Whether a watch minds where it writes. The manifest of a build matters exactly when it goes elsewhere
than the first one did, and there is the settings file or a file that matters among the components.
While the options name the output, or the settings name the one from the start, it does not matter; and if
it is given by a plain path into a directory that is there, the build leaves nothing to do. -/
theorem output_isRelevant_iff (h : s.Runs t root o) :
    (s.filter.isRelevant s.output = true ↔
      Path.same s.output (Command.outputOf t (watchedRoot t root) o) = false ∧
      (Path.same s.output (Path.join (watchedRoot t root) Configuration.fileName) = true ∨
        ∃ rest, Path.below? (Command.settingsOf t (watchedRoot t root) o).directory s.output = some rest ∧
          s.filter.admits s.output rest = true)) ∧
    (o.output.isSome = true ∨
        (Configuration.load s.tree s.root).output = (Configuration.load t (watchedRoot t root)).output →
      s.filter.isRelevant s.output = false ∧
      (IsListed s.tree → Path.isAbsolute s.output = true → .up ∉ Path.steps s.output →
        s.tree.isDirectory ((Path.parent? s.output).getD "") = true →
        ((eventsBetween s.tree s.rebuilt.tree).foldl Session.add s.rebuilt).pending = [])) := by
  have hstarted := h.startedWith
  refine ⟨?_, fun houtput => ?_⟩
  · rw [Filter.isRelevant_eq_true_iff, hstarted.filter_eq]
    rfl
  · have hsame := h.same_output houtput
    refine ⟨Filter.isRelevant_of_same (decide_eq_true (congrArg Path.steps hsame)), ?_⟩
    intro hlisted habsolute hup hparent
    have htree : s.rebuilt.tree = s.tree ∨ ∃ l content, s.tree.locate s.output = .ok l ∧ l ≠ [] ∧
        s.rebuilt.tree = s.tree.put l (.file content) :=
      Command.rebuild_of_isDirectory (w := s.pending) rfl (.inr hparent)
    rcases htree with htree | ⟨l, content, hl, hne, htree⟩
    · rw [htree, eventsBetween_self hlisted]
      rfl
    · have hpath : Path.same l.toPath s.filter.output = true := hsame ▸ Path.same_toPath habsolute hup hl
      rw [htree]
      exact Session.pending_foldl_add rfl (Filter.isRelevant_of_same hpath) fun e he =>
        paths_of_mem_eventsBetween_put hlisted hne he

end

/-- A project without components. -/
def bareProject : FileTree :=
  { nodes := [(["app"], .directory), (["app", "components"], .directory)], current := [] }

/-- The watch of the project right after its start. -/
def bareWatch : Session := .opening bareProject "/app" { } (start bareProject "/app" { }).tree

/-- The watch has seen a new directory among the components. -/
def growingWatch : Session := bareWatch.observe (bareWatch.tree.put ["app", "components", "Tag"] .directory)

/-- The watch has seen settings that put the manifest among the components. -/
def movingWatch : Session := bareWatch.observe
  (bareWatch.tree.put ["app", "prefab.toml"] (.file (.text "output = \"components/manifest.js\"\n")))

theorem runs_bareWatch : bareWatch.Runs bareProject "/app" { } := .start (by decide +kernel)

theorem output_isRelevant_iff_growingWatch : growingWatch.pending ≠ [] ∧
    growingWatch.filter.isRelevant growingWatch.output = false ∧
    ((eventsBetween growingWatch.tree growingWatch.rebuilt.tree).foldl Session.add
      growingWatch.rebuilt).pending = [] := by
  have hlisted : IsListed growingWatch.tree := ⟨by decide +kernel, by decide +kernel⟩
  have houtput :=
    (output_isRelevant_iff (runs_bareWatch.observe _ : growingWatch.Runs bareProject "/app" { })).2
    (.inr (by decide +kernel))
  exact ⟨by decide +kernel, houtput.1,
    houtput.2 hlisted (by decide +kernel) (by decide +kernel) (by decide +kernel)⟩

/-- Once the settings have put the manifest among the components, each build makes way for the next one. -/
theorem rebuild_schedules_rebuild : ∃ s : Session, s.Runs bareProject "/app" { } ∧ s.pending ≠ [] ∧
    s.rebuild.succeeds = true ∧ s.filter.isRelevant s.output = true ∧
    ((eventsBetween s.tree s.rebuilt.tree).foldl Session.add s.rebuilt).pending ≠ [] :=
  ⟨movingWatch, runs_bareWatch.observe _, by decide +kernel, by decide +kernel, by decide +kernel,
    by decide +kernel⟩

end Watch

end StoryManifest
