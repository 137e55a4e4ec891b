import StoryManifest.Proofs.Command.Agreement
import StoryManifest.Proofs.Watch.Run

/-!
Generating, dry runs, checking and watching agree. A watch works on the root without detours, whatever
root it was given: by that root its builds leave nothing to do, and by the given one as far as this
shows components alike.
-/

namespace StoryManifest.Command

open CommandLine (CommonOptions)
open Watch (Session)

variable {t : FileTree} {root : Path} {o : CommonOptions} {s : Session}

/-- A build of a watch is one for the root that it works on, with its options. -/
theorem rebuild_ok (hruns : s.Runs t root o) (h : s.rebuild.succeeds = true) : ∃ b text,
    builtText s.tree (settingsOf s.tree s.root o) = .ok (b, text) ∧
      writeFile s.tree (outputOf s.tree s.root o) text = (s.rebuild.tree, none) := by
  rw [Session.rebuild, hruns.startedWith.options_eq] at h ⊢
  simp only [Watch.rebuild] at h ⊢
  exact generate_ok h

/-- The root that is watched is the given one, unless that has an absolute path without detours. -/
theorem watchedRoot_eq_or (t : FileTree) (root : Path) :
    Watch.watchedRoot t root = root ∨ Path.isAbsolute (Watch.watchedRoot t root) = true := by
  rw [Watch.watchedRoot, FileTree.canonical?]
  cases t.locate root with
  | error e => exact .inl rfl
  | ok l =>
    by_cases hthere : (t.get? l).isSome = true
    · exact .inr (by simp [hthere, Location.toPath, Path.isAbsolute])
    · exact .inl (by simp [hthere])

/-- Checking succeeds exactly when the build does and the manifest file holds what a dry run prints. After
generating a manifest that is no input of the build, checking succeeds and generating again changes no file;
a root that is written with two dots has to lead through directories that were there before. The same goes
for a watch that builds the manifest anew, with the root that it works on and also with the root that it was
given, if this leads to the same directory and shows components in the same way. -/
theorem commands_agree (root : Path) (o : CommonOptions) :
    (∀ t : FileTree, (check t root false o).succeeds = true ↔ ∃ b text,
      builtText t (settingsOf t root o) = .ok (b, text) ∧
        (∀ strict, (generate t root true strict o).printed = text) ∧
        t.readText (outputOf t root o) = .ok text) ∧
    (∀ (t : FileTree) (strict : Bool), t.WellFormed →
      (.up ∈ Path.steps root → ∃ d, t.locate root = .ok d) →
      (generate t root false strict o).succeeds = true →
      (∀ l, (generate t root false strict o).tree.locate (outputOf t root o) = .ok l →
        ¬BuildInput (generate t root false strict o).tree root l) →
      Settled (generate t root false strict o).tree root o) ∧
    ∀ (t : FileTree) (s : Session), s.Runs t root o → s.tree.WellFormed →
      (.up ∈ Path.steps s.root → ∃ d, s.tree.locate s.root = .ok d) →
      s.rebuild.succeeds = true →
      (∀ l, s.rebuild.tree.locate s.output = .ok l → ¬BuildInput s.rebuild.tree s.root l) →
      Settled s.rebuild.tree s.root o ∧
        (SameProject s.tree root s.root o → Settled s.rebuild.tree root o) := by
  refine ⟨fun t => ?_, fun t strict hwf hroot hout hinput => ?_, fun t s hruns hwf hroot hout hinput => ?_⟩
  · rw [check_succeeds_iff]
    constructor
    · rintro ⟨b, text, hb, hread⟩
      exact ⟨b, text, hb, fun strict => generate_dryRun strict hb, hread⟩
    · rintro ⟨b, text, hb, -, hread⟩
      exact ⟨b, text, hb, hread⟩
  · obtain ⟨b, text, hb, hwrite⟩ := generate_ok hout
    obtain ⟨l, hgains, hl, hname, htext⟩ := writeFile_ok hwrite
    exact settled_of_gains hwf hroot hgains (hinput l hl) hb hl hname htext
  · obtain ⟨b, text, hb, hwrite⟩ := rebuild_ok hruns hout
    obtain ⟨l, hgains, hl, hname, htext⟩ := writeFile_ok hwrite
    have hstarted := hruns.startedWith
    rw [Session.output, hstarted.options_eq] at hinput
    have hown := settled_of_gains hwf hroot hgains (hinput l hl) hb hl hname htext
    refine ⟨hown, fun hsame => ?_⟩
    rcases watchedRoot_eq_or t root with heq | habsolute
    · rwa [← heq, ← hstarted.root_eq]
    · rw [← hstarted.root_eq] at habsolute
      exact hsame.settled hwf habsolute hgains (hinput l hl) hb hl hname htext

/-- A watch that was told of a changed file after its start, and sees the files as they are then. -/
def watchAfter (t : FileTree) (root : Path) (o : CommonOptions) (changed : Path) (later : FileTree) :
    Session :=
  { (Session.opening t root o (Watch.start t root o).tree).add ⟨some .modified, [changed]⟩
    with tree := later }

theorem runs_watchAfter (h : (Watch.start t root o).succeeds = true) (changed : Path) (later : FileTree) :
    (watchAfter t root o changed later).Runs t root o :=
  ((Session.Runs.start h).step (.event _ _)).step (.edit _ later)

/-- A manifest that was written is no input where its name is that of none. -/
theorem not_buildInput_of_writeFile (directory : Location) (name : String) {t' : FileTree} {output : Path}
    {text : String} {k : Location} (hwrite : writeFile t output text = (t', none))
    (houtput : t.locate output = .ok (directory ++ [name]))
    (hsettings : t.locate (Path.join root Configuration.fileName) = .ok k) (hk : k ≠ directory ++ [name])
    (hname : IsOutputName name) : ∀ l, t'.locate output = .ok l → ¬BuildInput t' root l := by
  intro l hl
  obtain ⟨m, hgains, -⟩ := writeFile_ok hwrite
  obtain rfl := Except.ok.inj ((hgains.locate houtput).symm.trans hl)
  exact not_buildInput_of_gains hgains hsettings hk hname

/-- A project with a component and settings that name the manifest file. -/
def tagProject : FileTree :=
  { nodes := [(["lib"], .directory), (["lib", "Tag"], .directory),
      (["lib", "Tag", "Tag.ts"], .file (.text "")),
      (["lib", "Tag", "Tag.stories.ts"], .file (.text "")),
      (["prefab.toml"], .file (.text "output = \"manifest.json\"\ncomponents_dir = \"lib\"\n"))]
    current := [] }

/-- The project with another story. -/
def editedProject : FileTree :=
  tagProject.put ["lib", "Tag", "Tag.stories.ts"] (.file (.text "export default \x7b\x7d;"))

/-- The watch of the project, once its story has changed. -/
def tagWatch : Session := watchAfter tagProject "lib/.." { } "/lib/Tag/Tag.stories.ts" editedProject

theorem sameProject_tagWatch : SameProject tagWatch.tree "lib/.." tagWatch.root { } where
  located := ⟨[], by decide +kernel, by decide +kernel⟩
  shows := ⟨by decide +kernel, fun _ => by decide +kernel⟩

theorem commands_agree_tagProject :
    (tagProject.WellFormed ∧ (generate tagProject "lib/.." false false { }).succeeds = true ∧
      Settled (generate tagProject "lib/.." false false { }).tree "lib/.." { }) ∧
    tagWatch.Runs tagProject "lib/.." { } ∧ tagWatch.pending ≠ [] ∧ tagWatch.tree.WellFormed ∧
      tagWatch.rebuild.succeeds = true ∧ Settled tagWatch.rebuild.tree "/" { } ∧
      Settled tagWatch.rebuild.tree "lib/.." { } := by
  obtain ⟨-, hgenerate, hwatch⟩ := commands_agree "lib/.." { }
  have hwf : tagProject.WellFormed := by decide +kernel
  have hout : (generate tagProject "lib/.." false false { }).succeeds = true := by decide +kernel
  have hruns : tagWatch.Runs tagProject "lib/.." { } := runs_watchAfter (by decide +kernel) _ _
  have hwf' : tagWatch.tree.WellFormed := by decide +kernel
  have hout' : tagWatch.rebuild.succeeds = true := by decide +kernel
  refine ⟨⟨hwf, hout, ?_⟩, hruns, by decide +kernel, hwf', hout', ?_⟩
  · obtain ⟨b, text, -, hwrite⟩ := generate_ok hout
    have hsettings : tagProject.locate (Path.join "lib/.." Configuration.fileName) =
        .ok ["prefab.toml"] := by decide +kernel
    exact hgenerate tagProject false hwf (fun _ => ⟨[], by decide +kernel⟩) hout
      (not_buildInput_of_writeFile [] "manifest.json" hwrite (by decide +kernel) hsettings (by decide)
        (by decide +kernel))
  · obtain ⟨b, text, -, hwrite⟩ := rebuild_ok hruns hout'
    have hsettings : tagWatch.tree.locate (Path.join tagWatch.root Configuration.fileName) =
        .ok ["prefab.toml"] := by decide +kernel
    have hroot : tagWatch.root = "/" := by decide +kernel
    obtain ⟨hown, hgiven⟩ := hwatch tagProject tagWatch hruns hwf' (fun _ => ⟨[], by decide +kernel⟩) hout'
      (not_buildInput_of_writeFile [] "manifest.json" hwrite (by decide +kernel) hsettings (by decide)
        (by decide +kernel))
    exact ⟨hroot ▸ hown, hgiven sameProject_tagWatch⟩

/-- A watch builds a manifest that is no input of the build, and checking by the root that the watch was
given finds another one. -/
structure LeavesStale (t : FileTree) (root : Path) (o : CommonOptions) (s : Session) : Prop where
  runs : s.Runs t root o
  waits : s.pending ≠ []
  wellFormed : s.tree.WellFormed
  succeeds : s.rebuild.succeeds = true
  notInput : ∀ l, s.rebuild.tree.locate s.output = .ok l → ¬BuildInput s.rebuild.tree s.root l
  stale : (check s.rebuild.tree root false o).succeeds = false

/-- The watch of the project from inside of it, by a single dot. -/
def dottedWatch : Session := watchAfter tagProject "." { } "/lib/Tag/Tag.stories.ts" editedProject

theorem leavesStale_dottedWatch : LeavesStale tagProject "." { } dottedWatch := by
  have hruns : dottedWatch.Runs tagProject "." { } := runs_watchAfter (by decide +kernel) _ _
  have hout : dottedWatch.rebuild.succeeds = true := by decide +kernel
  obtain ⟨b, text, -, hwrite⟩ := rebuild_ok hruns hout
  have hsettings : dottedWatch.tree.locate (Path.join dottedWatch.root Configuration.fileName) =
      .ok ["prefab.toml"] := by decide +kernel
  exact ⟨hruns, by decide +kernel, by decide +kernel, hout,
    not_buildInput_of_writeFile [] "manifest.json" hwrite (by decide +kernel) hsettings (by decide)
      (by decide +kernel), by decide +kernel⟩

/-- The components are those in the root itself. -/
def ownOptions : CommonOptions := { componentsDir := some "." }

/-- The watch of a component, by a path that ends in two dots. -/
def partsWatch : Session := watchAfter Component.partsProject "shop/Card/parts/.." ownOptions
  "/shop/Card/Card.stories.ts" Component.partsProject

theorem leavesStale_partsWatch :
    LeavesStale Component.partsProject "shop/Card/parts/.." ownOptions partsWatch := by
  have hruns : partsWatch.Runs Component.partsProject "shop/Card/parts/.." ownOptions :=
    runs_watchAfter (by decide +kernel) _ _
  have hout : partsWatch.rebuild.succeeds = true := by decide +kernel
  obtain ⟨b, text, -, hwrite⟩ := rebuild_ok hruns hout
  have hsettings : partsWatch.tree.locate (Path.join partsWatch.root Configuration.fileName) =
      .ok ["shop", "Card", "prefab.toml"] := by decide +kernel
  exact ⟨hruns, by decide +kernel, by decide +kernel, hout,
    not_buildInput_of_writeFile ["shop", "Card"] "wmprefab.config.json" hwrite (by decide +kernel) hsettings
      (by decide) (by decide +kernel), by decide +kernel⟩

/-- Checking may fail right after a manifest was built. Behind a directory that only generating makes it
finds other settings; after a watch, a single dot at the start of the given root is shown in the
manifest, and two dots at its end take the name from a component right in there. -/
theorem check_fails_after_build :
    (detourProject.WellFormed ∧
      (generate detourProject "/missing/.." false false detourOptions).succeeds = true ∧
      (∀ l, (generate detourProject "/missing/.." false false detourOptions).tree.locate
          (outputOf detourProject "/missing/.." detourOptions) = .ok l →
        ¬BuildInput (generate detourProject "/missing/.." false false detourOptions).tree "/missing/.." l) ∧
      (check (generate detourProject "/missing/.." false false detourOptions).tree "/missing/.." false
        detourOptions).succeeds = false) ∧
    LeavesStale tagProject "." { } dottedWatch ∧
    LeavesStale Component.partsProject "shop/Card/parts/.." ownOptions partsWatch :=
  ⟨check_fails_behind_missing_directory, leavesStale_dottedWatch, leavesStale_partsWatch⟩

end StoryManifest.Command
