import StoryManifest.Command.Generate
import StoryManifest.Proofs.FileTree.Writing

/-!
How writing a manifest ends. The directories that it goes into may not be there and may not be made, the
file may not be written, and a build may fail before that; then there is no new file.
-/

namespace StoryManifest.Command

open FileTree (MakesAround)

/-! ### Files -/

/-- How writing a file ends, with the tree that it leaves. -/
inductive Writes (t : FileTree) (output : Path) (text : String) : FileTree × Option Fault → Prop
  | notCreated {made : FileTree} (hmade : MakesAround output t made) (directory : Path) (e : FileFault) :
    Writes t output text (made, some (.cannotCreate directory e))
  | notWritten {made : FileTree} (hmade : MakesAround output t made) (e : FileFault) :
    Writes t output text (made, some (.cannotWrite output e))
  | written {made : FileTree} {l : Location} (hmade : MakesAround output t made)
    (hparent : (Path.parent? output).getD "" = "" ∨ made.isDirectory ((Path.parent? output).getD "") = true)
    (hl : made.locate output = .ok l) (hname : FileTree.namesDirectory output = false)
    (hdir : made.get? l ≠ some .directory) :
    Writes t output text (made.put l (.file (.text text)), none)

theorem writeFile_writes (t : FileTree) (output : Path) (text : String) :
    Writes t output text (writeFile t output text) := by
  cases hmake : t.makePath ((Path.parent? output).getD "") with
  | mk made fault =>
    obtain ⟨hmade, hparent⟩ := FileTree.makePath_parent hmake
    cases fault with
    | some e =>
      simp only [writeFile, hmake]
      exact .notCreated hmade _ e
    | none =>
      cases hwrite : made.writeText output text with
      | error e =>
        simp only [writeFile, hmake, hwrite]
        exact .notWritten hmade e
      | ok written =>
        obtain ⟨l, hl, hname, hdir, rfl⟩ := FileTree.writeText_ok hwrite
        simp only [writeFile, hmake, hwrite]
        exact .written hmade (hparent rfl) hl hname hdir

/-! ### Manifests -/

variable {t t' : FileTree} {s : BuildSettings} {output : Path} {b : Build} {text : String} {fault : Fault}

theorem writeManifest_of_error (hb : builtText t s = .error fault) (output : Path) (strict : Bool) :
    writeManifest t s output strict = { tree := t, fault := some fault } := by rw [writeManifest, hb]

theorem writeManifest_of_fault (hb : builtText t s = .ok (b, text))
    (hw : writeFile t output text = (t', some fault)) (strict : Bool) :
    writeManifest t s output strict = { tree := t', warnings := b.warnings, fault := some fault } := by
  simp only [writeManifest, hb, hw]

theorem writeManifest_of_written (hb : builtText t s = .ok (b, text))
    (hw : writeFile t output text = (t', none))
    (strict : Bool) : writeManifest t s output strict =
      { tree := t', printed := line b.summary, warnings := b.warnings, fault := strictFault strict b } := by
  simp only [writeManifest, hb, hw]

/-- A build has a text when there is a directory of components and the manifest can be written. -/
theorem builtText_ok_iff : builtText t s = .ok (b, text) ↔
    Build.of? t s = some b ∧ b.manifest.text? = some text := by
  unfold builtText
  cases Build.of? t s with
  | none => simp
  | some found =>
    constructor
    · intro h
      dsimp only at h
      split at h
      · rename_i shown htext
        obtain ⟨rfl, rfl⟩ := Prod.mk.inj (Except.ok.inj h)
        exact ⟨rfl, htext⟩
      · cases h
    · rintro ⟨hfound, htext⟩
      obtain rfl := Option.some.inj hfound
      simp only [htext]

/-- A build fails before anything is made or written, and not for what it left out. -/
theorem fault_of_builtText (hb : builtText t s = .error fault) :
    fault = .noComponents s.directory ∨ fault = .notStatic := by
  unfold builtText at hb
  split at hb
  · exact .inl (Except.error.inj hb).symm
  · split at hb
    · cases hb
    · exact .inr (Except.error.inj hb).symm

theorem strictFault_cases (strict : Bool) (b : Build) : strictFault strict b = none ∨
    strict = true ∧ strictFault strict b = some (.skipped b.skipped) := by
  unfold strictFault
  split
  · rename_i h
    exact .inr ⟨h.1, rfl⟩
  · exact .inl rfl

end StoryManifest.Command
