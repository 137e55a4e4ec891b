import StoryManifest.Proofs.Command.Agreement

/-!
Generating writes a manifest as a whole or not at all. Whatever happens, nothing differs afterwards
but the manifest file and directories around it that were missing. Where nothing was written the
file is what it was, and a strict run that fails for what was left out has written what a run that
is not strict writes.
-/

namespace StoryManifest

variable {t t' made : FileTree} {output : Path} {text : String}

namespace FileTree

/-- Nothing differs but what is at a path, which is no directory, and missing directories that the path
is in. -/
structure DiffersAt (output : Path) (t t' : FileTree) : Prop where
  current_eq : t'.current = t.current
  get?_eq : ∀ k, t'.get? k ≠ t.get? k →
    (t'.locate output = .ok k ∧ t.get? k ≠ some .directory ∧ t'.isFile output = true) ∨
    (t.get? k = none ∧ t'.get? k = some .directory ∧
      ∃ q, Relation.TransGen Path.InDirectory output q ∧ t'.locate q = .ok k)

theorem DiffersAt.refl (output : Path) (t : FileTree) : DiffersAt output t t :=
  ⟨rfl, fun _ hk => absurd rfl hk⟩

theorem MakesAround.differsAt (h : MakesAround output t made) : DiffersAt output t made where
  current_eq := h.current_eq
  get?_eq k hk := by
    obtain ⟨hnone, hdir⟩ := (h.get?_eq k).resolve_left hk
    exact .inr ⟨hnone, hdir, h.leads k hk⟩

theorem readText_put {l : Location} (hl : made.locate output = .ok l)
    (hdir : made.get? l ≠ some .directory) :
    (made.put l (.file (.text text))).readText output = .ok text := by
  rw [readText_ok_iff, find?_of_locate (((Extends.refl made).gains hdir (.text text)).locate hl),
    get?_put (ne_nil_of_not_directory hdir), if_pos rfl]

theorem isFile_of_readText (h : t.readText output = .ok text) : t.isFile output = true := by
  rw [isFile, readText_ok_iff.mp h]

theorem MakesAround.differsAt_put (h : MakesAround output t made) {l : Location}
    (hl : made.locate output = .ok l)
    (hdir : made.get? l ≠ some .directory) : DiffersAt output t (made.put l (.file (.text text))) := by
  have hlast := (Extends.refl made).gains hdir (.text text)
  refine ⟨h.current_eq, fun k hk => ?_⟩
  by_cases hkl : k = l
  · subst hkl
    exact .inl ⟨hlast.locate hl, fun hbefore => hdir (h.directory hbefore),
      isFile_of_readText (readText_put hl hdir)⟩
  · rw [get?_put (ne_nil_of_not_directory hdir), if_neg hkl] at hk ⊢
    obtain ⟨hnone, hmade⟩ := (h.get?_eq k).resolve_left hk
    obtain ⟨q, hq, hlocate⟩ := h.leads k hk
    exact .inr ⟨hnone, hmade, q, hq, hlast.locate hlocate⟩

end FileTree

namespace Command

open CommandLine (CommonOptions)
open FileTree (DiffersAt Extends MakesAround)

/-! ### Ends of a run -/

/-- How runs end that are to write a manifest. It matters only for the fault whether they are strict. -/
inductive Ends (t : FileTree) (root : Path) (o : CommonOptions) : (Bool → Outcome) → Prop
  | notBuilt {fault : Fault} (hb : builtText t (settingsOf t root o) = .error fault) :
    Ends t root o fun _ => { tree := t, fault := some fault }
  | notWritten {b : Build} {text : String} {made : FileTree} {fault : Fault}
    (hb : builtText t (settingsOf t root o) = .ok (b, text)) (hmade : MakesAround (outputOf t root o) t made)
    (hfault : ∃ path e, fault = .cannotCreate path e ∨ fault = .cannotWrite path e) :
    Ends t root o fun _ => { tree := made, warnings := b.warnings, fault := some fault }
  | written {b : Build} {text : String} {made : FileTree} {l : Location}
    (hb : builtText t (settingsOf t root o) = .ok (b, text)) (hmade : MakesAround (outputOf t root o) t made)
    (hl : made.locate (outputOf t root o) = .ok l) (hdir : made.get? l ≠ some .directory) :
    Ends t root o fun strict =>
      { tree := made.put l (.file (.text text)), printed := line b.summary, warnings := b.warnings,
        fault := strictFault strict b }

theorem exists_ends (t : FileTree) (root : Path) (o : CommonOptions) :
    ∃ run, Ends t root o run ∧ ∀ strict, generate t root false strict o = run strict := by
  simp only [generate_false]
  cases hb : builtText t (settingsOf t root o) with
  | error fault => exact ⟨_, .notBuilt hb, writeManifest_of_error hb _⟩
  | ok built =>
    obtain ⟨b, text⟩ := built
    have hwrites := writeFile_writes t (outputOf t root o) text
    cases hw : writeFile t (outputOf t root o) text with
    | mk left fault =>
      rw [hw] at hwrites
      cases hwrites with
      | notCreated hmade directory e =>
        exact ⟨_, .notWritten hb hmade ⟨directory, e, .inl rfl⟩, writeManifest_of_fault hb hw⟩
      | notWritten hmade e =>
        exact ⟨_, .notWritten hb hmade ⟨_, e, .inr rfl⟩, writeManifest_of_fault hb hw⟩
      | written hmade hparent hl hname hdir =>
        exact ⟨_, .written hb hmade hl hdir, writeManifest_of_written hb hw⟩

theorem tree_generate_true (t : FileTree) (root : Path) (strict : Bool) (o : CommonOptions) :
    (generate t root true strict o).tree = t := by
  rw [generate_true, printManifest]
  split <;> rfl

/-- A run changes at most the manifest file and missing directories around it, and nothing at all when it
is dry or the build fails. When directories cannot be made or the file cannot be written, directories may
have been added but nothing else differs, so what was at the path of the file is still there. A run that
is not dry and ends without a fault, or only for what was left out, has written the whole text; it leaves
and prints what a run leaves that is not strict. There is no other end. -/
theorem generate_all_or_nothing (t : FileTree) (root : Path) (dryRun strict : Bool) (o : CommonOptions) :
    DiffersAt (outputOf t root o) t (generate t root dryRun strict o).tree ∧
    (dryRun = true ∨ (∃ fault, builtText t (settingsOf t root o) = .error fault) →
      (generate t root dryRun strict o).tree = t) ∧
    (∀ path e, (generate t root dryRun strict o).fault = some (.cannotCreate path e) ∨
        (generate t root dryRun strict o).fault = some (.cannotWrite path e) →
      Extends t (generate t root dryRun strict o).tree ∧ ∀ n, t.find? (outputOf t root o) = some n →
        (generate t root dryRun strict o).tree.find? (outputOf t root o) = some n) ∧
    (dryRun = false → (generate t root dryRun strict o).fault = none ∨
        (∃ count, (generate t root dryRun strict o).fault = some (.skipped count)) →
      ∃ b text, builtText t (settingsOf t root o) = .ok (b, text) ∧
        (generate t root dryRun strict o).tree.readText (outputOf t root o) = .ok text ∧
        (generate t root dryRun strict o).printed = line b.summary ∧
        (generate t root dryRun strict o).fault = strictFault strict b ∧
        generate t root false false o = { generate t root dryRun strict o with fault := none }) ∧
    (dryRun = false →
      (∃ fault, builtText t (settingsOf t root o) = .error fault ∧
        (generate t root dryRun strict o).fault = some fault) ∨
      (∃ path e, (generate t root dryRun strict o).fault = some (.cannotCreate path e) ∨
        (generate t root dryRun strict o).fault = some (.cannotWrite path e)) ∨
      (generate t root dryRun strict o).fault = none ∨
      ∃ count, (generate t root dryRun strict o).fault = some (.skipped count)) := by
  cases dryRun with
  | true =>
    rw [tree_generate_true]
    exact ⟨.refl _ t, fun _ => rfl, fun _ _ _ => ⟨.refl t, fun _ hn => hn⟩, fun h => (by cases h),
      fun h => by cases h⟩
  | false =>
    obtain ⟨run, hends, hrun⟩ := exists_ends t root o
    simp only [hrun]
    cases hends with
    | @notBuilt fault hb =>
      refine ⟨.refl _ t, fun _ => rfl, fun _ _ _ => ⟨.refl t, fun _ hn => hn⟩, fun _ hfault => ?_,
        fun _ => .inl ⟨fault, hb, rfl⟩⟩
      rcases fault_of_builtText hb with rfl | rfl <;> simp at hfault
    | notWritten hb hmade hwhy =>
      refine ⟨hmade.differsAt, fun h => ?_, fun _ _ _ => ⟨hmade.toExtends, fun _ => hmade.find?_eq⟩,
        fun _ hfault => ?_, fun _ => .inr (.inl ?_)⟩
      · simp [hb] at h
      · obtain ⟨path, e, rfl | rfl⟩ := hwhy <;> simp at hfault
      · obtain ⟨path, e, rfl | rfl⟩ := hwhy <;> simp
    | @written b text made l hb hmade hl hdir =>
      have hfault := strictFault_cases strict b
      refine ⟨hmade.differsAt_put hl hdir, fun h => ?_, fun path e hother => ?_, fun _ _ =>
        ⟨b, text, hb, FileTree.readText_put hl hdir, rfl, rfl, rfl⟩, fun _ => .inr (.inr ?_)⟩
      · simp [hb] at h
      · rcases hfault with hnone | ⟨-, hskipped⟩
        · simp [hnone] at hother
        · simp [hskipped] at hother
      · exact hfault.imp_right fun h => ⟨b.skipped, h.2⟩

/-- A project whose only story has no implementation beside it. -/
def lonelyProject : FileTree :=
  { nodes := [(["components"], .directory), (["components", "Lonely"], .directory),
      (["components", "Lonely", "Lonely.stories.js"], .file (.text "export default \x7b\x7d;"))]
    current := [] }

/-- A strict run that fails once its manifest is in directories that it made, and a run that cannot write. -/
theorem generate_all_or_nothing_lonelyProject :
    (generate lonelyProject "/" false true { output := some "out/deep/manifest.json" }).fault =
      some (.skipped 1) ∧
    (∃ (b : Build) (text : String),
        (generate lonelyProject "/" false true { output := some "out/deep/manifest.json" }).tree.readText
        "/out/deep/manifest.json" = .ok text ∧
      generate lonelyProject "/" false false { output := some "out/deep/manifest.json" } =
        { generate lonelyProject "/" false true { output := some "out/deep/manifest.json" }
          with fault := none } ∧
      b.skipped = 1) ∧
    (generate lonelyProject "/" false false { output := some "components" }).fault =
      some (.cannotWrite "/components" .isDirectory) ∧
    (generate lonelyProject "/" false false { output := some "components" }).tree.find? "/components" =
      some .directory := by
  have hskipped : (generate lonelyProject "/" false true { output := some "out/deep/manifest.json" }).fault =
      some (.skipped 1) := by decide +kernel
  have hwrite : (generate lonelyProject "/" false false { output := some "components" }).fault =
      some (.cannotWrite "/components" .isDirectory) := by decide +kernel
  have hdeep : outputOf lonelyProject "/" { output := some "out/deep/manifest.json" } =
      "/out/deep/manifest.json" := by decide +kernel
  have houtput : outputOf lonelyProject "/" { output := some "components" } = "/components" := by
    decide +kernel
  obtain ⟨-, -, -, hwritten, -⟩ :=
    generate_all_or_nothing lonelyProject "/" false true { output := some "out/deep/manifest.json" }
  obtain ⟨-, -, hkept, -, -⟩ :=
    generate_all_or_nothing lonelyProject "/" false false { output := some "components" }
  obtain ⟨b, text, -, htext, -, hfault, hsame⟩ := hwritten rfl (.inr ⟨1, hskipped⟩)
  refine ⟨hskipped, ⟨b, text, hdeep ▸ htext, hsame, ?_⟩, hwrite, ?_⟩
  · rw [hskipped] at hfault
    rcases strictFault_cases true b with hnone | ⟨-, hcount⟩
    · cases hfault.trans hnone
    · exact Fault.skipped.inj (Option.some.inj (hcount.symm.trans hfault.symm))
  · have hthere : lonelyProject.find? "/components" = some .directory := by decide +kernel
    exact houtput ▸ (hkept _ _ (.inr hwrite)).2 .directory (houtput ▸ hthere)

end Command

end StoryManifest
