import StoryManifest.Command.Check
import StoryManifest.Proofs.Command.Writing
import StoryManifest.Proofs.Component.Roots

/-!
When checking and generating agree. Checking succeeds exactly when the manifest file holds what a dry run
prints, and after a manifest was written that is no input of its own build, checking succeeds and
generating again changes no file. The same goes for another root of the project, by which the components
are shown alike.
-/

namespace StoryManifest.Command

open FileTree (Gains)
open CommandLine (CommonOptions)

variable {t t' : FileTree} {root root' output : Path} {l : Location} {text : String} {o : CommonOptions}
  {b : Build}

/-- What the manifest of a project is made from. -/
def settingsOf (t : FileTree) (root : Path) (o : CommonOptions) : BuildSettings :=
  o.settings root (Configuration.load t root)

/-- Where the manifest of a project goes. -/
def outputOf (t : FileTree) (root : Path) (o : CommonOptions) : Path :=
  o.outputPath root (Configuration.load t root)

/-- Checking succeeds, and generating changes no file. -/
def Settled (t : FileTree) (root : Path) (o : CommonOptions) : Prop :=
  (check t root false o).succeeds = true ∧ ∀ strict, (generate t root false strict o).tree = t

/-! ### Writing -/

/-- A file that was written is there, and nothing else differs but added directories. -/
theorem writeFile_ok (h : writeFile t output text = (t', none)) : ∃ l, Gains l t t' ∧
    t'.locate output = .ok l ∧ FileTree.namesDirectory output = false ∧
      t'.get? l = some (.file (.text text)) := by
  have hwrites := writeFile_writes t output text
  rw [h] at hwrites
  cases hwrites with
  | @written made l hmade hparent hl hname hdir =>
    have hlast := (FileTree.Extends.refl made).gains hdir (.text text)
    have htext : (made.put l (.file (.text text))).get? l = some (.file (.text text)) := by
      rw [FileTree.get?_put (FileTree.ne_nil_of_not_directory hdir), if_pos rfl]
    exact ⟨l, hmade.gains hdir (.text text), hlast.locate hl, hname, htext⟩

/-- Writing the text that a file holds changes nothing. -/
theorem writeFile_again (hl : t.locate output = .ok l) (hname : FileTree.namesDirectory output = false)
    (htext : t.get? l = some (.file (.text text))) : writeFile t output text = (t, none) := by
  rw [writeFile, FileTree.makePath_of_isDirectory (FileTree.isDirectory_parent hl hname)]
  simp only [FileTree.writeText_again hl hname htext]

theorem builtText_eq (hwf : t.WellFormed) (h : Gains l t t') (hinput : ¬BuildInput t' root l)
    {s : BuildSettings} (hb : builtText t s = .ok (b, text)) : builtText t' s = .ok (b, text) := by
  rw [builtText_ok_iff] at hb ⊢
  exact ⟨Build.of?_eq hwf h hinput hb.1, hb.2⟩

/-- A file that is no input of a build changes neither the build nor where its manifest goes. -/
theorem built_of_gains (hwf : t.WellFormed) (hroot : .up ∈ Path.steps root → ∃ d, t.locate root = .ok d)
    (h : Gains l t t') (hinput : ¬BuildInput t' root l)
    (hb : builtText t (settingsOf t root o) = .ok (b, text)) :
    outputOf t' root o = outputOf t root o ∧ builtText t' (settingsOf t' root o) = .ok (b, text) := by
  have hload := Configuration.load_eq hwf h hinput hroot
  have hsettings : settingsOf t' root o = settingsOf t root o := by rw [settingsOf, settingsOf, hload]
  refine ⟨by rw [outputOf, outputOf, hload], ?_⟩
  rw [hsettings]
  exact builtText_eq hwf h hinput hb

/-! ### Commands -/

theorem generate_false (t : FileTree) (root : Path) (strict : Bool) (o : CommonOptions) :
    generate t root false strict o =
      writeManifest t (settingsOf t root o) (outputOf t root o) strict := by
  simp only [generate, settingsOf, outputOf, Bool.false_eq_true, if_false]

theorem generate_true (t : FileTree) (root : Path) (strict : Bool) (o : CommonOptions) :
    generate t root true strict o = printManifest t (settingsOf t root o) strict := by
  simp only [generate, settingsOf, if_true]

theorem generate_ok {strict : Bool} (h : (generate t root false strict o).succeeds = true) : ∃ b text,
    builtText t (settingsOf t root o) = .ok (b, text) ∧
      writeFile t (outputOf t root o) text = ((generate t root false strict o).tree, none) := by
  rw [generate_false] at h ⊢
  cases hb : builtText t (settingsOf t root o) with
  | error e => rw [writeManifest_of_error hb] at h; cases h
  | ok built =>
    obtain ⟨b, text⟩ := built
    cases hw : writeFile t (outputOf t root o) text with
    | mk written fault =>
      cases fault with
      | some fault => rw [writeManifest_of_fault hb hw] at h; cases h
      | none =>
        rw [writeManifest_of_written hb hw]
        exact ⟨b, text, rfl, hw⟩

theorem generate_dryRun (strict : Bool)
    (hb : builtText t (settingsOf t root o) = .ok (b, text)) :
    (generate t root true strict o).printed = text := by
  rw [generate_true, printManifest, hb]

theorem check_of_error {strict : Bool} {e : Fault} (hb : builtText t (settingsOf t root o) = .error e) :
    check t root strict o = { tree := t, fault := some e } := by
  rw [settingsOf] at hb
  simp only [check, hb]

theorem check_of_ok {strict : Bool} (hb : builtText t (settingsOf t root o) = .ok (b, text)) :
    check t root strict o = checkFile t (outputOf t root o) strict b text := by
  rw [settingsOf] at hb
  simp only [check, hb, outputOf]

theorem check_succeeds_iff (t : FileTree) (root : Path) (o : CommonOptions) :
    (check t root false o).succeeds = true ↔ ∃ b text,
      builtText t (settingsOf t root o) = .ok (b, text) ∧
        t.readText (outputOf t root o) = .ok text := by
  cases hb : builtText t (settingsOf t root o) with
  | error e => simp [check_of_error hb, Outcome.succeeds]
  | ok built =>
    obtain ⟨b, expected⟩ := built
    rw [check_of_ok hb, checkFile]
    constructor
    · intro h
      split at h
      · cases h
      · split at h
        · cases h
        · rename_i found hread
          by_cases htext : found = expected
          · exact ⟨b, expected, rfl, htext ▸ hread⟩
          · simp [Outcome.succeeds, htext] at h
    · rintro ⟨b', text, hbuilt, hread⟩
      obtain ⟨rfl, rfl⟩ := Prod.mk.inj (Except.ok.inj hbuilt)
      simp [FileTree.holds_of_readText hread, hread, Outcome.succeeds, strictFault]

/-- With the manifest that is built now in its place nothing is left to do. -/
theorem settled_of_built (hb : builtText t (settingsOf t root o) = .ok (b, text))
    (hl : t.locate (outputOf t root o) = .ok l) (hname : FileTree.namesDirectory (outputOf t root o) = false)
    (htext : t.get? l = some (.file (.text text))) : Settled t root o := by
  constructor
  · have hread : t.readText (outputOf t root o) = .ok text := by simp only [FileTree.readText, hl, htext]
    exact (check_succeeds_iff t root o).mpr ⟨b, text, hb, hread⟩
  · intro strict
    rw [generate_false, writeManifest_of_written hb (writeFile_again hl hname htext)]

/-- A manifest that was written and is no input of its build leaves nothing to do. A root that is written
with two dots has to lead through directories that were there before. -/
theorem settled_of_gains (hwf : t.WellFormed) (hroot : .up ∈ Path.steps root → ∃ d, t.locate root = .ok d)
    (h : Gains l t t') (hinput : ¬BuildInput t' root l)
    (hb : builtText t (settingsOf t root o) = .ok (b, text)) (hl : t'.locate (outputOf t root o) = .ok l)
    (hname : FileTree.namesDirectory (outputOf t root o) = false)
    (htext : t'.get? l = some (.file (.text text))) : Settled t' root o := by
  obtain ⟨houtput, hbuilt⟩ := built_of_gains hwf hroot h hinput hb
  rw [← houtput] at hl hname
  exact settled_of_built hbuilt hl hname htext

/-- A project whose settings can be read through a missing directory once that was made. -/
def detourProject : FileTree :=
  { nodes := [(["components"], .directory), (["prefab.toml"], .file (.text "output = \"b.json\"\n"))]
    current := [] }

/-- The components of the project, by an absolute path. -/
def detourOptions : CommonOptions := { componentsDir := some "/components" }

/-- Behind a directory that only generating makes, checking finds other settings than generating did. -/
theorem check_fails_behind_missing_directory : detourProject.WellFormed ∧
    (generate detourProject "/missing/.." false false detourOptions).succeeds = true ∧
    (∀ l, (generate detourProject "/missing/.." false false detourOptions).tree.locate
        (outputOf detourProject "/missing/.." detourOptions) = .ok l →
      ¬BuildInput (generate detourProject "/missing/.." false false detourOptions).tree "/missing/.." l) ∧
    (check (generate detourProject "/missing/.." false false detourOptions).tree "/missing/.." false
      detourOptions).succeeds = false := by
  have hlocate : (generate detourProject "/missing/.." false false detourOptions).tree.locate
      (outputOf detourProject "/missing/.." detourOptions) = .ok ([] ++ ["wmprefab.config.json"]) := by
    decide +kernel
  refine ⟨by decide +kernel, by decide +kernel, fun l hl => ?_, by decide +kernel⟩
  obtain rfl := Except.ok.inj (hlocate.symm.trans hl)
  exact not_buildInput (by decide +kernel) (by decide +kernel)

/-! ### Other roots -/

/-- Another root leads to the same directory, and shows components as the first one does. -/
structure SameProject (t : FileTree) (root root' : Path) (o : CommonOptions) : Prop where
  located : ∃ d, t.locate root = .ok d ∧ t.locate root' = .ok d
  shows : ShowsLike t (settingsOf t root o) (settingsOf t root' o)

namespace SameProject

/-- What is inside the one root is inside the other one. -/
theorem locate_join (h : SameProject t root root' o) (inner : Path) :
    t.locate (Path.join root inner) = t.locate (Path.join root' inner) := by
  obtain ⟨d, hd, hd'⟩ := h.located
  exact FileTree.locate_join_congr hd hd' inner

theorem load_eq (h : SameProject t root root' o) :
    Configuration.load t root = Configuration.load t root' := by
  rw [Configuration.load, Configuration.load, FileTree.readText, FileTree.readText, h.locate_join]

theorem settingsOf_eq (h : SameProject t root root' o) :
    settingsOf t root o = { settingsOf t root' o with directory := (settingsOf t root o).directory } := by
  rw [settingsOf, settingsOf, h.load_eq]
  rfl

/-- The text of the manifest is the same for both roots. -/
theorem exists_builtText (hwf : t.WellFormed) (habsolute : Path.isAbsolute root' = true)
    (h : SameProject t root root' o) (hb : builtText t (settingsOf t root' o) = .ok (b, text)) :
    ∃ b', builtText t (settingsOf t root o) = .ok (b', text) := by
  have hdot : ¬Path.StartsHere (settingsOf t root' o).directory :=
    Path.not_startsHere_of_isAbsolute (Path.isAbsolute_join_of_base habsolute _)
  have hlocate : t.locate (settingsOf t root o).directory = t.locate (settingsOf t root' o).directory := by
    rw [settingsOf, settingsOf, h.load_eq]
    exact h.locate_join _
  have hshows := h.shows
  rw [h.settingsOf_eq] at hshows ⊢
  obtain ⟨hof, htext⟩ := builtText_ok_iff.mp hb
  obtain ⟨b', hof', hmanifest⟩ := Build.exists_of?_eq hwf hdot hlocate hshows hof
  exact ⟨b', builtText_ok_iff.mpr ⟨hof', hmanifest ▸ htext⟩⟩

/-- A manifest that was written for one root leaves nothing to do for the other one. -/
theorem settled (hwf : t.WellFormed) (habsolute : Path.isAbsolute root' = true)
    (h : SameProject t root root' o) (hgains : Gains l t t') (hinput : ¬BuildInput t' root' l)
    (hb : builtText t (settingsOf t root' o) = .ok (b, text)) (hl : t'.locate (outputOf t root' o) = .ok l)
    (hname : FileTree.namesDirectory (outputOf t root' o) = false)
    (htext : t'.get? l = some (.file (.text text))) : Settled t' root o := by
  obtain ⟨d, hd, hd'⟩ := h.located
  obtain ⟨b', hb'⟩ := h.exists_builtText hwf habsolute hb
  have hjoin := FileTree.locate_join_congr (hgains.locate hd) (hgains.locate hd')
  refine settled_of_gains hwf (fun _ => ⟨d, hd⟩) hgains ?_ hb' ?_ ?_ htext
  · intro hown
    refine hinput ?_
    cases hown with
    | settings hsettings => exact .settings (hjoin Configuration.fileName ▸ hsettings)
    | rules s directory => exact .rules s directory
    | story directory hstory => exact .story directory hstory
    | source directory name hextension => exact .source directory name hextension
  · rw [outputOf, h.load_eq]
    exact (hjoin _).trans hl
  · rw [outputOf, CommonOptions.outputPath,
      FileTree.namesDirectory_join (Path.ne_empty_of_isAbsolute habsolute)] at hname
    rw [outputOf, h.load_eq, CommonOptions.outputPath,
      FileTree.namesDirectory_join (FileTree.ne_empty_of_locate hd), hname]

end SameProject

end StoryManifest.Command
