import StoryManifest.Proofs.Command.Serialization
import StoryManifest.Proofs.Source.Referring
import StoryManifest.Proofs.Watch.Relevance

/-!
Module references of components. The file that a record shows is put between single quotes as it is.
So the reference is an expression for that file as long as the file can stand there as it is; where
a name on the way to it has a quote, a backslash or a line end, the reference is none, or one for
some other file.
-/

namespace StoryManifest

open Source (IsReference unquotable referenceChars)

variable {t : FileTree} {s : BuildSettings} {b : Build} {r : ComponentRecord}

theorem Component.moduleReference_eq (shown : String) :
    moduleReference shown = String.ofList (referenceChars shown.toList) := by
  rw [← String.toList_inj]
  simp [moduleReference, referenceChars, Source.requireWord, Source.callChars, Source.memberWord]

namespace Build

/-- The reference of every component that is built. A record shows one file, and its reference is, in any
variant, a program that is a member `default` of a call of `require` for a string that stands for this
file exactly when no character of the file is unquotable. -/
theorem module_isReference_iff (h : Build.of? t s = some b) (hr : r ∈ b.manifest.components) :
    ∃ shown, r.files = [shown] ∧ ∀ v : Source.Variant,
      (∃ p literal, Source.Program.ofText v r.module = .ok p ∧ IsReference literal p.root ∧
        Literal.decodeString literal = shown) ↔ ∀ c ∈ shown.toList, c ∉ unquotable := by
  obtain ⟨stories, -, rfl⟩ := Option.map_eq_some_iff.mp h
  rw [(Build.holds_ofStories t s stories).components] at hr
  obtain ⟨story, -, hrecord⟩ := List.mem_filterMap.mp hr
  obtain ⟨ds, hassemble⟩ := Component.exists_of_record? hrecord
  obtain ⟨file, v, text, p, -, -, -, -, rfl, -⟩ := Component.assemble_ok hassemble
  refine ⟨Component.includePath s.directory file, rfl, fun v => ?_⟩
  have hmodule : (Component.recordOf s (Component.nameOf story) file (Story.extract p).properties).module =
      String.ofList (referenceChars (Component.includePath s.directory file).toList) :=
    Component.moduleReference_eq _
  rw [hmodule, ← Source.ofText_reference_iff v, String.ofList_toList]

theorem module_isReference_iff_formsProject : ∃ b,
    Build.of? Watch.formsProject { directory := "/components" } = some b ∧ ∃ r ∈ b.manifest.components,
      r.files = ["./forms/Input/Input.tsx"] ∧ ∃ p literal, Source.Program.ofText .script r.module = .ok p ∧
        IsReference literal p.root ∧ Literal.decodeString literal = "./forms/Input/Input.tsx" := by
  have hb : Build.of? Watch.formsProject { directory := "/components" } =
      some (Build.ofStories Watch.formsProject
      { directory := "/components" } ["/components/forms/Input/Input.stories.tsx"]) :=
    Build.of?_of_discover? Watch.discover?_formsProject
  obtain ⟨r, hr, hfiles⟩ : ∃ r ∈ (Build.ofStories Watch.formsProject { directory := "/components" }
      ["/components/forms/Input/Input.stories.tsx"]).manifest.components,
        r.files = ["./forms/Input/Input.tsx"] := by
    decide +kernel
  obtain ⟨shown, hshown, hreference⟩ := module_isReference_iff hb hr
  obtain rfl : shown = "./forms/Input/Input.tsx" := List.singleton_inj.mp (hshown.symm.trans hfiles)
  have hquotable : "./forms/Input/Input.tsx".toList.all (fun c => c ∉ unquotable) = true := by decide +kernel
  have hread := (hreference .script).mpr fun c hc => of_decide_eq_true (List.all_eq_true.mp hquotable c hc)
  exact ⟨_, hb, r, hr, hfiles, hread⟩

/-- A project with a component whose directory has an apostrophe in its name. -/
def apostropheProject : FileTree :=
  { nodes := [(["components"], .directory), (["components", "It's"], .directory),
      (["components", "It's", "It's.stories.tsx"], .file (.text "export default \x7b\x7d;")),
      (["components", "It's", "It's.tsx"], .file (.text ""))]
    current := [] }

/-- An apostrophe ends the string of a reference too early, and what is left over makes no program. -/
theorem module_apostropheProject : ∃ b, Build.of? apostropheProject { directory := "/components" } = some b ∧
    ∃ r ∈ b.manifest.components, r.files = ["./It's/It's.tsx"] ∧
      ∀ v p, Source.Program.ofText v r.module ≠ .ok p := by
  have hb : Build.of? apostropheProject { directory := "/components" } =
      some (Build.ofStories apostropheProject
      { directory := "/components" } ["/components/It's/It's.stories.tsx"]) :=
    Build.of?_of_discover? (by decide +kernel)
  obtain ⟨r, hr, hfiles, hmodule⟩ : ∃ r ∈ (Build.ofStories apostropheProject { directory := "/components" }
      ["/components/It's/It's.stories.tsx"]).manifest.components, r.files = ["./It's/It's.tsx"] ∧
        r.module = "require('./It's/It's.tsx').default" := by decide +kernel
  refine ⟨_, hb, r, hr, hfiles, fun v p hp => ?_⟩
  have hnone : (Source.Program.ofText v "require('./It's/It's.tsx').default").toOption.isNone = true := by
    cases v <;> decide +kernel
  rw [← hmodule, hp] at hnone
  cases hnone

end Build

end StoryManifest
