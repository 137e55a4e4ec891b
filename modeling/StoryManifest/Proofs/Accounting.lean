import StoryManifest.Build
import StoryManifest.Proofs.Discovery
import StoryManifest.Proofs.Merging

/-!
What a build holds of each story. A story gives a record with warnings, or the one diagnostic that says
why its component is skipped; a build holds what the stories give, story by story in the order of their
paths. The main statement accounts for every story that is found, and says that only a missing directory
leaves no build.
-/

namespace StoryManifest

variable {t : FileTree} {s : BuildSettings} {story : Path} {name : String}

/-! ### Names of stories -/

namespace Story

theorem storyExtensions_known : ∀ extension ∈ storyExtensions, '.' ∉ extension.toList ∧
    '/' ∉ extension.toList ∧ (Source.Variant.ofExtension? extension).isSome = true := by decide

theorem exists_of_isStoryName (h : isStoryName name = true) : ∃ stem extension,
    extension ∈ storyExtensions ∧ isStoryStem stem = true ∧
    name = String.ofList stem ++ ".stories" ++ "." ++ extension := by
  obtain ⟨extension, hextension, hbefore⟩ := List.any_eq_true.mp h
  rw [beforeEnding?] at hbefore
  split at hbefore
  · rename_i hending
    obtain ⟨stem, hstem⟩ := List.isSuffixOf_iff_suffix.mp hending
    rw [← hstem, List.length_append, Nat.add_sub_cancel, List.take_left] at hbefore
    refine ⟨stem, extension, hextension, hbefore, String.toList_inj.mp ?_⟩
    rw [← hstem]
    simp
  · cases hbefore

/-- A story has a proper name. -/
theorem isName_of_isStoryName (h : isStoryName name = true) : Path.IsName name := by
  obtain ⟨stem, extension, hextension, hstem, rfl⟩ := exists_of_isStoryName h
  obtain ⟨-, hslash, -⟩ := storyExtensions_known extension hextension
  rw [isStoryStem, Bool.and_eq_true, Bool.and_eq_true] at hstem
  have hstem : '/' ∉ stem := of_decide_eq_true hstem.1.2
  refine ⟨by simp [hstem, hslash], ?_, fun hup => ?_⟩
  · simp [Path.isIdle, List.append_eq_cons_iff]
  · exact absurd (congrArg List.length hup) (by simp; omega)

/-- The extension of a story is that of a variant. -/
theorem exists_variantOf (hname : Path.fileName? story = some name) (h : isStoryName name = true) :
    ∃ v, variantOf story = .ok v := by
  obtain ⟨stem, extension, hextension, -, rfl⟩ := exists_of_isStoryName h
  obtain ⟨hdot, -, hknown⟩ := storyExtensions_known extension hextension
  obtain ⟨v, hv⟩ := Option.isSome_iff_exists.mp hknown
  have hne : String.ofList stem ++ ".stories" ≠ "" := fun hempty => by
    simpa using congrArg String.length hempty
  have hextension : (Path.extension? story).getD "" = extension := by
    rw [Path.extension?, hname, Option.bind_some, Path.splitName_dot hne hdot, Option.getD_some]
  refine ⟨v, ?_⟩
  delta variantOf
  simp only [hextension, hv]

end Story

/-- A story that is found has the name of a story. -/
theorem exists_fileName?_of_mem {x : Ignore.Exclusion} {directory : Path} {stories : List Path}
    (h : discover? t x directory = some stories) (hstory : story ∈ stories) :
    ∃ name, Path.fileName? story = some name ∧ Story.isStoryName name = true := by
  obtain ⟨base, hbase, -⟩ := discover?_some h
  obtain ⟨names, -, hreaches, rfl⟩ := (mem_stories h hbase).mp hstory
  obtain ⟨above, name, rfl, hname⟩ := exists_name_of_reachesStory hreaches
  refine ⟨name, ?_, hname⟩
  rw [Path.descend_append, Path.fileName?_join (Story.isName_of_isStoryName hname)]

/-! ### Diagnostics of a story -/

namespace Story

/-- All of some diagnostics tell of values that cannot be evaluated. -/
def OnlyUnsupported (ds : List Diagnostic) : Prop := ∀ d ∈ ds, d.kind = .unsupportedNode

theorem onlyUnsupported_nil : OnlyUnsupported [] := by rintro d ⟨⟩

theorem onlyUnsupported_singleton (line : Nat) (message : String) :
    OnlyUnsupported [.unsupported line message] := by
  rintro d hd
  obtain rfl := List.mem_singleton.mp hd
  rfl

theorem onlyUnsupported_candidateOf (p : Source.Program) (declaration : Declaration) (label : String)
    (part : Part) (n : Source.Node) : OnlyUnsupported (candidateOf p declaration label part n).2 := by
  unfold candidateOf
  split
  · intro d hd
    obtain ⟨e, -, he⟩ := List.mem_filterMap.mp hd
    unfold skippedOf? at he
    split at he <;> cases he <;> rfl
  · exact onlyUnsupported_singleton _ _

theorem onlyUnsupported_candidatesOf (p : Source.Program) (declaration : Declaration) :
    OnlyUnsupported (candidatesOf p declaration).2 := by
  unfold candidatesOf
  split
  · exact onlyUnsupported_candidateOf _ _ _ _ _
  · split
    · intro d hd
      obtain ⟨found, hfound, hd⟩ := List.mem_flatMap.mp hd
      obtain ⟨⟨part, n⟩, -, rfl⟩ := List.mem_map.mp hfound
      exact onlyUnsupported_candidateOf _ _ _ _ _ d hd
    · exact onlyUnsupported_singleton _ _

theorem onlyUnsupported_locate (p : Source.Program) : OnlyUnsupported (locate p).diagnostics := by
  intro d hd
  obtain ⟨found, hfound, hd⟩ := List.mem_flatMap.mp hd
  obtain ⟨declaration, -, rfl⟩ := List.mem_map.mp hfound
  exact onlyUnsupported_candidatesOf p declaration d hd

theorem onlyUnsupported_staticDefault (declaration : String) (e : CandidateEntry) (v : Value) :
    OnlyUnsupported (staticDefault declaration e v).2 := by
  unfold staticDefault
  split
  · exact onlyUnsupported_nil
  · exact onlyUnsupported_singleton _ _

theorem onlyUnsupported_update (part : Part) (declaration : String) (e : CandidateEntry) (g : Gathered) :
    OnlyUnsupported (update part declaration e g).2 := by
  unfold update
  split
  · exact onlyUnsupported_staticDefault _ _ _
  · split
    · dsimp only
      split
      · exact onlyUnsupported_staticDefault _ _ _
      · exact onlyUnsupported_nil
    · exact onlyUnsupported_singleton _ _

theorem onlyUnsupported_merge (cs : List Candidate) : OnlyUnsupported (merge cs).diagnostics := by
  intro d hd
  rw [diagnostics_merge_eq] at hd
  obtain ⟨c, -, hd⟩ := List.mem_flatMap.mp hd
  obtain ⟨e, -, hd⟩ := List.mem_flatMap.mp hd
  exact onlyUnsupported_update _ _ _ _ d hd

/-- The diagnostics of a story tell of values that cannot be evaluated, and of nothing else. -/
theorem onlyUnsupported_extract (p : Source.Program) : OnlyUnsupported (extract p).diagnostics := by
  intro d hd
  rw [extract, Diagnostic.sortByLine, List.mem_mergeSort, List.mem_append] at hd
  exact hd.elim (onlyUnsupported_locate p d) (onlyUnsupported_merge _ d)

end Story

/-! ### What a story gives -/

namespace Component

/-- Why the component of a story is skipped, with the kind of the diagnostic that says so. -/
inductive SkippedFor (t : FileTree) (story : Path) : SkipReason → DiagnosticKind → Prop
  | missing : source? t story = none →
      SkippedFor t story (.missingSource (expectedSource (nameOf story))) .missingSibling
  | unreadable {fault : FileFault} : t.readText story = .error fault →
      SkippedFor t story (.unreadable fault) .readError
  | broken {v : Source.Variant} {text : String} {fault : Source.SyntaxFault} :
      Story.variantOf story = .ok v → t.readText story = .ok text →
      Source.Program.ofText v text = .error fault →
        SkippedFor t story (.unusable (.broken fault)) .syntaxError

/-- The record of a component that is not skipped. -/
def recordIn? : Except SkipReason (ComponentRecord × List Diagnostic) → Option ComponentRecord
  | .ok (record, _) => some record
  | .error _ => none

/-- The diagnostics of a story: those of its values, or the one for its component. -/
def diagnosticsIn (story : Path) : Except SkipReason (ComponentRecord × List Diagnostic) → List Diagnostic
  | .ok (_, diagnostics) => diagnostics
  | .error reason => [reason.diagnostic story]

/-- The record that a story gives, if its component is not skipped. -/
def record? (t : FileTree) (s : BuildSettings) (story : Path) : Option ComponentRecord :=
  recordIn? (assemble t s story)

/-- The diagnostics that a story gives. -/
def diagnosticsOf (t : FileTree) (s : BuildSettings) (story : Path) : List Diagnostic :=
  diagnosticsIn story (assemble t s story)

theorem record?_of_ok {r : ComponentRecord} {ds : List Diagnostic} (h : assemble t s story = .ok (r, ds)) :
    record? t s story = some r := by rw [record?, h, recordIn?]

theorem record?_of_error {reason : SkipReason} (h : assemble t s story = .error reason) :
    record? t s story = none := by rw [record?, h, recordIn?]

theorem diagnosticsOf_of_ok {r : ComponentRecord} {ds : List Diagnostic}
    (h : assemble t s story = .ok (r, ds)) : diagnosticsOf t s story = ds := by
  rw [diagnosticsOf, h, diagnosticsIn]

theorem diagnosticsOf_of_error {reason : SkipReason} (h : assemble t s story = .error reason) :
    diagnosticsOf t s story = [reason.diagnostic story] := by
  rw [diagnosticsOf, h, diagnosticsIn]

/-- Assembling looks for the implementation first, and for the program after it. -/
theorem assemble_eq_match (t : FileTree) (s : BuildSettings) (story : Path) : assemble t s story =
    match source? t story with
    | none => .error (.missingSource (expectedSource (nameOf story)))
    | some file => match Story.variantOf story with
      | .error fault => .error (.unusable fault)
      | .ok v => match t.readText story with
        | .error fault => .error (.unreadable fault)
        | .ok text => match Source.Program.ofText v text with
          | .error fault => .error (.unusable (.broken fault))
          | .ok p => .ok (recordOf s (nameOf story) file (Story.extract p).properties,
              (Story.extract p).diagnostics.map (Diagnostic.inFile story)) := by
  unfold assemble source
  cases source? t story with
  | none => rfl
  | some file =>
    cases Story.variantOf story with
    | error fault => rfl
    | ok v =>
      cases t.readText story with
      | error fault => rfl
      | ok text =>
        simp only [Story.programOf, bind, Except.bind, Except.mapError]
        cases Source.Program.ofText v text <;> rfl

theorem assemble_ok {r : ComponentRecord} {ds : List Diagnostic} (h : assemble t s story = .ok (r, ds)) :
    ∃ file v text p, source? t story = some file ∧ Story.variantOf story = .ok v ∧
      t.readText story = .ok text ∧ Source.Program.ofText v text = .ok p ∧
      r = recordOf s (nameOf story) file (Story.extract p).properties ∧
      ds = (Story.extract p).diagnostics.map (Diagnostic.inFile story) := by
  rw [assemble_eq_match] at h
  split at h
  · cases h
  · rename_i file hsource
    split at h
    · cases h
    · rename_i v hv
      split at h
      · cases h
      · rename_i text htext
        split at h
        · cases h
        · rename_i p hp
          obtain ⟨hr, hds⟩ := Prod.mk.inj (Except.ok.inj h)
          exact ⟨file, v, text, p, hsource, hv, htext, hp, hr.symm, hds.symm⟩

/-- A story with the name of one is skipped for no other reason than these. -/
theorem skippedFor_of_error {v : Source.Variant} (hv : Story.variantOf story = .ok v) {reason : SkipReason}
    (h : assemble t s story = .error reason) :
    SkippedFor t story reason (reason.diagnostic story).kind := by
  rw [assemble_eq_match, hv] at h
  split at h
  · rename_i hsource
    obtain rfl := Except.error.inj h
    exact .missing hsource
  · dsimp only at h
    split at h
    · rename_i fault hread
      obtain rfl := Except.error.inj h
      exact .unreadable hread
    · rename_i text htext
      split at h
      · rename_i fault hfault
        obtain rfl := Except.error.inj h
        exact .broken hv htext hfault
      · cases h

theorem SkippedFor.skipsComponent {reason : SkipReason} {kind : DiagnosticKind}
    (h : SkippedFor t story reason kind) : kind.skipsComponent = true := by
  cases h <;> rfl

/-- The diagnostics of a component that is not skipped tell of values in its story. -/
theorem diagnostics_of_assemble {r : ComponentRecord} {ds : List Diagnostic}
    (h : assemble t s story = .ok (r, ds)) : ∀ d ∈ ds, d.kind = .unsupportedNode ∧ d.path = some story := by
  obtain ⟨file, v, text, p, -, -, -, -, -, rfl⟩ := assemble_ok h
  intro d hd
  obtain ⟨e, he, rfl⟩ := List.mem_map.mp hd
  exact ⟨Story.onlyUnsupported_extract p e he, rfl⟩

/-- A story gives a diagnostic of a skipped component exactly when it gives no record. -/
theorem countP_diagnosticsOf {v : Source.Variant} (hv : Story.variantOf story = .ok v) :
    (diagnosticsOf t s story).countP (·.kind.skipsComponent) =
      if (record? t s story).isNone then 1 else 0 := by
  cases h : assemble t s story with
  | ok made =>
    obtain ⟨r, ds⟩ := made
    have hds : ∀ d ∈ ds, ¬d.kind.skipsComponent = true := fun d hd => by
      rw [(diagnostics_of_assemble h d hd).1]
      decide
    rw [diagnosticsOf_of_ok h, record?_of_ok h, List.countP_eq_zero.mpr hds]
    rfl
  | error reason =>
    have hkind := (skippedFor_of_error hv h).skipsComponent
    rw [diagnosticsOf_of_error h, record?_of_error h, List.countP_singleton, if_pos hkind]
    rfl

end Component

/-! ### What a build holds -/

namespace Build

/-- A build holds what stories give, one after the other. -/
structure Holds (t : FileTree) (s : BuildSettings) (stories : List Path) (b : Build) : Prop where
  components : b.manifest.components = stories.filterMap (Component.record? t s)
  skipped : b.skipped = stories.countP fun story => (Component.record? t s story).isNone
  diagnostics : b.diagnostics = stories.flatMap (Component.diagnosticsOf t s)

theorem Holds.add {stories : List Path} {b : Build} (h : Holds t s stories b) (story : Path) :
    Holds t s (stories ++ [story]) (b.add story (Component.assemble t s story)) := by
  cases hassemble : Component.assemble t s story with
  | ok made =>
    obtain ⟨r, ds⟩ := made
    have hrecord := Component.record?_of_ok hassemble
    have hdiagnostics := Component.diagnosticsOf_of_ok hassemble
    constructor
    · simp [Build.add, Manifest.push, h.components, hrecord]
    · simp [Build.add, h.skipped, hrecord]
    · simp [Build.add, h.diagnostics, hdiagnostics]
  | error reason =>
    have hrecord := Component.record?_of_error hassemble
    have hdiagnostics := Component.diagnosticsOf_of_error hassemble
    constructor
    · simp [Build.add, h.components, hrecord]
    · simp [Build.add, h.skipped, hrecord]
    · simp [Build.add, h.diagnostics, hdiagnostics]

theorem holds_ofStories (t : FileTree) (s : BuildSettings) (stories : List Path) :
    Holds t s stories (ofStories t s stories) := by
  induction stories using List.reverseRecOn with
  | nil => exact ⟨rfl, rfl, rfl⟩
  | append_singleton stories story ih =>
    rw [ofStories, List.foldl_append, List.foldl_cons, List.foldl_nil]
    exact ih.add story

theorem Holds.counted {stories : List Path} {b : Build} (h : Holds t s stories b) :
    b.manifest.components.length + b.skipped = stories.length := by
  rw [h.components, h.skipped, List.length_filterMap_eq_countP,
    List.length_eq_countP_add_countP (fun story => (Component.record? t s story).isSome)]
  simp only [Bool.not_eq_true, Bool.decide_eq_false, Option.not_isSome]

theorem Holds.total {stories : List Path} {b : Build} (h : Holds t s stories b)
    (hvariant : ∀ story ∈ stories, ∃ v, Story.variantOf story = .ok v) :
    b.diagnostics.length = b.skipped + b.warningCount := by
  have hskips : b.diagnostics.countP (·.kind.skipsComponent) = b.skipped := by
    rw [h.diagnostics, h.skipped]
    clear h
    induction stories with
    | nil => rfl
    | cons story stories ih =>
      obtain ⟨v, hv⟩ := hvariant story (by simp)
      rw [List.flatMap_cons, List.countP_append, Component.countP_diagnosticsOf hv,
        ih fun story hmem => hvariant story (List.mem_cons_of_mem _ hmem), List.countP_cons, Nat.add_comm]
  rw [List.length_eq_countP_add_countP (fun d => d.kind.skipsComponent), hskips, warningCount,
    ← List.countP_eq_length_filter]
  simp

/-- A build accounts for the stories that are found: each gives its record or is skipped with the one
diagnostic that says why, and all other diagnostics are about values in stories that were not skipped. -/
structure Accounts (t : FileTree) (s : BuildSettings) (stories : List Path) (b : Build) : Prop where
  ordered : stories.Pairwise (Path.le · · = true)
  once : t.WellFormed → t.Distinct → stories.Nodup
  records : b.manifest.components = stories.filterMap (Component.record? t s)
  counted : b.manifest.components.length + b.skipped = stories.length
  grouped : b.diagnostics = stories.flatMap (Component.diagnosticsOf t s)
  assembled : ∀ story ∈ stories, ∀ r ds, Component.assemble t s story = .ok (r, ds) →
    ∀ d ∈ Component.diagnosticsOf t s story, d.kind = .unsupportedNode ∧ d.path = some story
  skipped : ∀ story ∈ stories, ∀ reason, Component.assemble t s story = .error reason →
    ∃ d, Component.diagnosticsOf t s story = [d] ∧ d.path = some story ∧ d.kind.skipsComponent = true ∧
      Component.SkippedFor t story reason d.kind
  total : b.diagnostics.length = b.skipped + b.warningCount

end Build

theorem discover?_eq_none_iff {x : Ignore.Exclusion} {directory : Path} :
    discover? t x directory = none ↔ t.isDirectory directory = false := by
  unfold discover? FileTree.isDirectory FileTree.find?
  cases t.locate directory <;> simp

theorem Build.of?_of_discover? {stories : List Path}
    (h : discover? t s.exclusion s.directory = some stories) :
    Build.of? t s = some (Build.ofStories t s stories) := by
  rw [Build.of?, h, Option.map_some]

/-- A build from the stories that are found accounts for them. -/
theorem Build.accounts_ofStories {stories : List Path}
    (h : discover? t s.exclusion s.directory = some stories) :
    Build.Accounts t s stories (Build.ofStories t s stories) := by
  have hholds := Build.holds_ofStories t s stories
  have hvariant : ∀ story ∈ stories, ∃ v, Story.variantOf story = .ok v := fun story hmem => by
    obtain ⟨name, hfile, hname⟩ := exists_fileName?_of_mem h hmem
    exact Story.exists_variantOf hfile hname
  exact {
    ordered := pairwise_stories h
    once := fun hwf hd => nodup_stories hwf hd h
    records := hholds.components
    counted := hholds.counted
    grouped := hholds.diagnostics
    assembled := fun story _ r ds hassemble => by
      rw [Component.diagnosticsOf_of_ok hassemble]
      exact Component.diagnostics_of_assemble hassemble
    skipped := fun story hmem reason hreason => by
      obtain ⟨v, hv⟩ := hvariant story hmem
      have hfor := Component.skippedFor_of_error hv hreason
      exact ⟨reason.diagnostic story, Component.diagnosticsOf_of_error hreason, rfl, hfor.skipsComponent,
        hfor⟩
    total := hholds.total hvariant }

/-- There is no build exactly where the directory of components is no directory, and every build accounts
for all stories that are found there. -/
theorem build_accounts (t : FileTree) (s : BuildSettings) :
    (Build.of? t s = none ↔ t.isDirectory s.directory = false) ∧
    ∀ b, Build.of? t s = some b →
      ∃ stories, discover? t s.exclusion s.directory = some stories ∧ Build.Accounts t s stories b := by
  refine ⟨by rw [Build.of?, Option.map_eq_none_iff, discover?_eq_none_iff], fun b hb => ?_⟩
  obtain ⟨stories, hstories, rfl⟩ := Option.map_eq_some_iff.mp hb
  exact ⟨stories, hstories, Build.accounts_ofStories hstories⟩

/-- A project with a component whose story breaks off, one without an implementation, one whose story is no
text, and one with a value that cannot be evaluated. -/
def shelfProject : FileTree :=
  { nodes := [(["lib"], .directory), (["lib", "Box"], .directory),
      (["lib", "Box", "Box.ts"], .file (.text "")),
      (["lib", "Box", "Box.stories.ts"], .file (.text "export default \x7b")),
      (["lib", "Cup"], .directory), (["lib", "Cup", "Cup.stories.ts"], .file (.text "")),
      (["lib", "Pen"], .directory), (["lib", "Pen", "Pen.ts"], .file (.text "")),
      (["lib", "Pen", "Pen.stories.ts"], .file (.damaged "")),
      (["lib", "Tag"], .directory), (["lib", "Tag", "Tag.ts"], .file (.text "")),
      (["lib", "Tag", "Tag.stories.ts"], .file (.text "export default \x7bargs:\x7ba:b\x7d\x7d;"))]
    current := [] }

/-- The stories of the project. -/
def shelfStories : List Path :=
  ["lib/Box/Box.stories.ts", "lib/Cup/Cup.stories.ts", "lib/Pen/Pen.stories.ts", "lib/Tag/Tag.stories.ts"]

theorem discover?_shelfProject : discover? shelfProject { } "lib" = some shelfStories := by
  have hbase : shelfProject.locate "lib" = .ok ["lib"] := by decide +kernel
  exact discover?_of_sorted hbase (by decide +kernel) (by decide +kernel) (by decide +kernel)

theorem build_accounts_shelfProject : ∃ b, Build.of? shelfProject { directory := "lib" } = some b ∧
    b.skipped = 3 ∧ b.warningCount = 1 ∧
    ∃ stories, discover? shelfProject { } "lib" = some stories ∧
      Build.Accounts shelfProject { directory := "lib" } stories b := by
  have hb : Build.of? shelfProject { directory := "lib" } =
      some (Build.ofStories shelfProject { directory := "lib" } shelfStories) :=
    Build.of?_of_discover? discover?_shelfProject
  have hcounts : ((Build.ofStories shelfProject { directory := "lib" } shelfStories).skipped,
      (Build.ofStories shelfProject { directory := "lib" } shelfStories).warningCount) = (3, 1) := by
    decide +kernel
  obtain ⟨hskipped, hwarnings⟩ := Prod.mk.inj hcounts
  exact ⟨_, hb, hskipped, hwarnings, (build_accounts shelfProject { directory := "lib" }).2 _ hb⟩

end StoryManifest
