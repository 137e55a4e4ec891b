import StoryManifest.Proofs.Accounting
import StoryManifest.Proofs.Watch.Relevance

/-!
Where the implementation of a story is. It is in the directory of the story and has the name of that
directory, with the first of four extensions for which there is such a file; the manifest shows it by the
names that lead to it from the directory of components on, so that following them there leads back to it.
The name of the directory is the one that its path ends in. A path that ends in two dots has none, and
then no implementation is found, whatever the directory holds.
-/

namespace StoryManifest

variable {t : FileTree} {p q base : Path} {d : Location} {names : List String} {n : String}

/-! ### Paths that are followed from a directory on -/

/-- There is a file at a location. -/
def FileTree.isFileAt (t : FileTree) (l : Location) : Bool :=
  match t.get? l with
  | some (.file _) => true
  | _ => false

theorem FileTree.isFile_of_locate (h : t.locate p = .ok d) : t.isFile p = t.isFileAt d := by
  rw [isFile, find?_of_locate h]
  rfl

theorem Path.isAbsolute_append (hp : p ≠ "") (q : String) : isAbsolute (p ++ q) = isAbsolute p := by
  have hne : p.toList ≠ [] := fun hnil => hp (String.toList_inj.mp (by simpa using hnil))
  rw [isAbsolute, isAbsolute, String.toList_append, List.head?_append_of_ne_nil _ hne]

/-- The pieces of a path inside another one come after those of the other one. -/
theorem Path.splitSlash_join_relative (hbase : base ≠ "") (hq : isAbsolute q = false) :
    join base q ≠ "" ∧ isAbsolute (join base q) = isAbsolute base ∧ ∃ ps,
      splitSlash (join base q).toList = ps ++ splitSlash q.toList ∧
        (splitSlash base.toList = ps ∨ splitSlash base.toList = ps ++ [[]]) := by
  rw [join, if_neg (by simp [hq])]
  simp only [Bool.or_eq_true, decide_eq_true_iff, hbase, false_or]
  split
  · rename_i hslash
    obtain ⟨cs, hcs⟩ := List.getLast?_eq_some_iff.mp hslash
    refine ⟨by simp [hbase], isAbsolute_append hbase q, splitSlash cs, ?_, .inr ?_⟩
    · rw [String.toList_append, hcs, List.append_assoc]
      exact splitSlash_append cs q.toList
    · rw [hcs]
      exact splitSlash_append cs []
  · refine ⟨by simp [hbase], ?_, splitSlash base.toList, ?_, .inl rfl⟩
    · rw [String.append_assoc, isAbsolute_append hbase]
    · simpa using splitSlash_append base.toList q.toList

/-- A path inside a directory is followed from what the directory leads to. -/
theorem FileTree.locate_join_relative (hbase : t.locate base = .ok d) (hq : Path.isAbsolute q = false) :
    t.locate (Path.join base q) = t.followAll d (Path.splitSlash q.toList) := by
  have hne := ne_empty_of_locate hbase
  obtain ⟨hjoined, habsolute, ps, hjoin, hps⟩ := Path.splitSlash_join_relative hne hq
  rw [locate_of_ne hjoined, startOf, habsolute, hjoin]
  refine followAll_append_of_ok ?_ _
  rw [locate_of_ne hne] at hbase
  rcases hps with hps | hps
  · rwa [hps] at hbase
  · -- A slash at the end of the directory's path asks for a directory, and moves nowhere.
    rw [hps, followAll_append] at hbase
    cases hfollow : t.followAll (t.startOf base) ps with
    | error e => rw [hfollow] at hbase; cases hbase
    | ok m =>
      rw [hfollow] at hbase
      have hlast : t.follow m [] = .ok d := by
        cases hm : t.follow m [] <;> simp_all [followAll]
      obtain rfl : d = m := by simpa [Path.isIdle] using (follow_ok hlast).2
      exact hfollow

/-- Names that start at a dot, as the manifest shows them. -/
theorem Path.splitSlash_shown (hne : names ≠ []) (hnames : ∀ name ∈ names, IsName name) :
    splitSlash ("./" ++ "/".intercalate names).toList = ['.'] :: names.map String.toList := by
  have htext : ("./" ++ "/".intercalate names).toList =
      List.intercalate ['/'] (['.'] :: names.map String.toList) := by
    obtain ⟨first, rest, rfl⟩ := List.exists_cons_of_ne_nil hne
    simp [String.toList_intercalate, List.intercalate]
  rw [htext]
  refine splitSlash_intercalate fun piece hpiece => ?_
  rcases List.mem_cons.mp hpiece with rfl | hpiece
  · decide
  · obtain ⟨name, hname, rfl⟩ := List.mem_map.mp hpiece
    exact (hnames name hname).noSlash

/-- Names that start at a dot lead, inside a directory, where the names lead. -/
theorem FileTree.locate_shown (hbase : t.locate base = .ok d) (hne : names ≠ [])
    (hnames : ∀ name ∈ names, Path.IsName name)
    (hdirs : ∀ k < names.length, t.get? (d ++ names.take k) = some .directory) :
    t.locate (Path.join base ("./" ++ "/".intercalate names)) = .ok (d ++ names) := by
  have hd : t.get? d = some .directory := by simpa using hdirs 0 (List.length_pos_iff.mpr hne)
  have hback : (names.map String.toList).map String.ofList = names := by simp
  rw [locate_join_relative hbase (by simp [Path.isAbsolute]), Path.splitSlash_shown hne hnames]
  have hdot : t.follow d ['.'] = .ok d := by simp [follow, hd, Path.isIdle]
  rw [followAll, hdot]
  have hpieces : ∀ piece ∈ names.map String.toList, Path.isIdle piece = false ∧ piece ≠ ['.', '.'] := by
    intro piece hpiece
    obtain ⟨name, hname, rfl⟩ := List.mem_map.mp hpiece
    exact ⟨(hnames name hname).notIdle, (hnames name hname).notUp⟩
  have hfollow := followAll_of_directories hpieces (by simpa [hback] using hdirs)
  simpa [hback] using hfollow

/-! ### Names that paths end in -/

theorem Path.SameMoves.symm (h : SameMoves p q) : SameMoves q p := ⟨h.moves_eq.symm, h.isAbsolute_eq.symm⟩

theorem Path.SameMoves.fileName?_eq (h : SameMoves p q) : fileName? p = fileName? q := by
  refine Option.ext fun n => ⟨fun hn => ?_, fun hn => ?_⟩
  · obtain ⟨ss, hss⟩ := exists_steps_of_sameMoves h hn
    exact fileName?_of_steps hss
  · obtain ⟨ss, hss⟩ := exists_steps_of_sameMoves h.symm hn
    exact fileName?_of_steps hss

/-- The name of the directory that names lead to: the last of them, or the one that the path to start from
ends in. -/
def Path.lastName? (directory : Path) (names : List String) : Option String :=
  names.getLast?.or (fileName? directory)

theorem Path.fileName?_descend (directory : Path) (hnames : ∀ name ∈ names, IsName name) :
    fileName? (descend directory names) = lastName? directory names := by
  cases names using List.reverseRecOn with
  | nil => simp [lastName?, descend]
  | append_singleton names name =>
    rw [descend_append, fileName?_join (hnames name (by simp))]
    simp [lastName?]

/-- A path that names lead to from a directory is shown by them. -/
theorem Component.includePath_of_steps (hbase : base ≠ "")
    (h : Path.steps p = Path.steps base ++ names.map .name) :
    includePath base p = "./" ++ "/".intercalate names := by
  obtain ⟨rest, hrest, hsteps⟩ := Path.exists_below? (Path.steps_ne_nil hbase) h
  have hnames : (names.map Path.Step.name).map Path.Step.text = names := by
    rw [List.map_map]
    exact List.map_id names
  rw [includePath, hrest, Option.getD_some, hsteps, hnames]

/-! ### The implementation of a story -/

namespace Component

variable {s : BuildSettings} {story : Path} {stories : List Path} {above : List String} {name : String}

/-- The first extension with which a directory holds a file of a name. -/
def firstExtension? (t : FileTree) (directory : Location) (n : String) : Option String :=
  Story.sourceExtensions.find? fun extension => t.isFileAt (directory ++ [n ++ "." ++ extension])

/-- A directory whose path ends in no name has no implementation. -/
theorem source?_of_none (hn : Path.fileName? (directoryOf story) = none) : source? t story = none := by
  simp [source?, nameOf, hn]

/-- The implementation is looked for where the story is, under the name of the directory. -/
theorem StoryAt.source?_eq_map (h : StoryAt t story d name)
    (hn : Path.fileName? (directoryOf story) = some n) :
    source? t story = (firstExtension? t d n).map fun extension =>
      Path.join (Path.tidy (directoryOf story)) (n ++ "." ++ extension) := by
  have hname : nameOf story = n := by rw [nameOf, hn, Option.getD_some]
  rw [source?, hname, if_neg (Path.isName_of_fileName? hn).ne_empty, firstExtension?, List.find?_map]
  refine congrArg _ ?_
  rw [← List.head?_filter, ← List.head?_filter]
  refine congrArg List.head? (List.filter_congr fun extension hextension => ?_)
  exact FileTree.isFile_of_locate (h.locate_source hn hextension)

/-- The directory of a story has the name that leads to it last. -/
theorem fileName?_directoryOf (directory : Path) (habove : ∀ m ∈ above, Path.IsName m)
    (hname : Path.IsName name) : Path.fileName? (directoryOf (Path.descend directory (above ++ [name]))) =
      Path.lastName? directory above :=
  (directoryOf_sameMoves directory above hname).fileName?_eq.trans (Path.fileName?_descend _ habove)

theorem assemble_of_none (h : source? t story = none) :
    assemble t s story = .error (.missingSource (expectedSource (nameOf story))) := by
  rw [assemble_eq_match, h]

/-- A component that has an implementation is not skipped for want of it. -/
theorem assemble_ne_missing {file : Path} (h : source? t story = some file) (expected : String) :
    assemble t s story ≠ .error (.missingSource expected) := by
  intro hskipped
  rw [assemble_eq_match, h] at hskipped
  dsimp only at hskipped
  split at hskipped
  · cases hskipped
  · split at hskipped
    · cases hskipped
    · split at hskipped <;> cases hskipped

/-- Where the implementation of a story is, for a story that is found below a directory of components
with an absolute path. It is looked for in the directory of the story, under the name of that directory
with the first of four extensions for which there is a file. Exactly when there is none, the component is
skipped for want of it; else the manifest shows the names that lead there from the directory of
components, and following them from that directory leads there. The directory of components may have a
path that ends in no name, because it ends in two dots or is the root: no implementation is found for a
story right in there. -/
theorem assemble_source (hwf : t.WellFormed) (habsolute : Path.isAbsolute s.directory = true)
    (hstories : discover? t s.exclusion s.directory = some stories) (hstory : story ∈ stories) :
    ∃ base above name, t.locate s.directory = .ok base ∧
      Path.steps story = Path.steps s.directory ++ (above ++ [name]).map .name ∧
      t.locate story = .ok (base ++ above ++ [name]) ∧
      match Path.lastName? s.directory above with
      | none => assemble t s story = .error (.missingSource (expectedSource ""))
      | some n => (base ++ above).getLast? = some n ∧
        match firstExtension? t (base ++ above) n with
        | none => assemble t s story = .error (.missingSource (expectedSource n))
        | some extension =>
          let shown := "./" ++ "/".intercalate (above ++ [n ++ "." ++ extension])
          (∀ expected, assemble t s story ≠ .error (.missingSource expected)) ∧
          (∀ r ds, assemble t s story = .ok (r, ds) → r.files = [shown]) ∧
          t.locate (Path.join s.directory shown) = .ok (base ++ above ++ [n ++ "." ++ extension]) := by
  obtain ⟨base, above, name, hbase, hmem, rfl, hat⟩ := exists_storyAt hwf hstories hstory
  have hisName := isName_of_mem_filesBelow hwf hmem
  have habove : ∀ m ∈ above, Path.IsName m := fun m hm => hisName m (List.mem_append_left _ hm)
  have hne := FileTree.ne_empty_of_locate hbase
  have hdirname := fileName?_directoryOf s.directory habove (hisName name (by simp))
  refine ⟨base, above, name, hbase, Path.steps_descend hisName hne, hat.located, ?_⟩
  cases hlast : Path.lastName? s.directory above with
  | none =>
    rw [hlast] at hdirname
    have hempty : nameOf (Path.descend s.directory (above ++ [name])) = "" := by simp [nameOf, hdirname]
    exact hempty ▸ assemble_of_none (source?_of_none hdirname)
  | some n =>
    rw [hlast] at hdirname
    have hn : nameOf (Path.descend s.directory (above ++ [name])) = n := by simp [nameOf, hdirname]
    obtain ⟨before, hbefore⟩ := hat.leads.of_fileName? hdirname
    refine ⟨by simp [hbefore], ?_⟩
    have hsource := hat.source?_eq_map hdirname
    cases hextension : firstExtension? t (base ++ above) n with
    | none =>
      rw [hextension] at hsource
      exact hn ▸ assemble_of_none hsource
    | some extension =>
      rw [hextension] at hsource
      have hmemExtension := List.mem_of_find?_eq_some hextension
      have hisN := Path.isName_of_fileName? hdirname
      have hsteps := steps_source (hisName name (by simp)) habove hne
        (Path.not_startsHere_of_isAbsolute habsolute) hisN hmemExtension
      refine ⟨assemble_ne_missing hsource, fun r ds hr => ?_, ?_⟩
      · obtain ⟨file, v, text, program, hfile, -, -, -, rfl, -⟩ := assemble_ok hr
        obtain rfl := Option.some.inj (hfile.symm.trans hsource)
        exact congrArg (· :: []) (includePath_of_steps hne hsteps)
      · rw [List.append_assoc]
        refine FileTree.locate_shown hbase (by simp) ?_ fun k hk => ?_
        · exact List.forall_mem_append.mpr
            ⟨habove, List.forall_mem_singleton.mpr (isName_source hisN hmemExtension)⟩
        · have hdir := directory_of_mem_filesBelow hwf hmem (k := k) (by simpa using hk)
          have hle : k ≤ above.length := by simpa [Nat.lt_succ_iff] using hk
          rwa [List.take_append_of_le_length hle] at hdir ⊢

theorem assemble_source_formsProject : Watch.formsProject.WellFormed ∧ Path.isAbsolute "/components" = true ∧
    firstExtension? Watch.formsProject ["components", "forms", "Input"] "Input" = some "tsx" ∧
    (∀ r ds, assemble Watch.formsProject ⟨"/components", "1.0.0", "./components", { }⟩
      "/components/forms/Input/Input.stories.tsx" = .ok (r, ds) → r.files = ["./forms/Input/Input.tsx"]) ∧
    Watch.formsProject.locate (Path.join "/components" "./forms/Input/Input.tsx") =
      .ok ["components", "forms", "Input", "Input.tsx"] := by
  have hextension : firstExtension? Watch.formsProject ["components", "forms", "Input"] "Input" =
      some "tsx" := by
    decide +kernel
  obtain ⟨base, above, name, hbase, hsteps, -, hsource⟩ :=
    assemble_source (s := ⟨"/components", "1.0.0", "./components", { }⟩) Watch.wellFormed_formsProject
      (by decide)
      Watch.discover?_formsProject (List.mem_singleton.mpr rfl)
  obtain rfl : base = ["components"] :=
    Except.ok.inj (hbase.symm.trans (by decide +kernel : _ = Except.ok ["components"]))
  have hspelled : Path.steps "/components/forms/Input/Input.stories.tsx" = Path.steps "/components" ++
      (["forms", "Input"] ++ ["Input.stories.tsx"]).map .name := by decide +kernel
  have hnames : above ++ [name] = ["forms", "Input"] ++ ["Input.stories.tsx"] :=
    (List.map_inj_right fun _ _ => Path.Step.name.inj).mp
      (List.append_cancel_left (hsteps.symm.trans hspelled))
  obtain ⟨rfl, -⟩ := List.append_inj' hnames rfl
  have hlast : Path.lastName? "/components" ["forms", "Input"] = some "Input" := rfl
  simp only [hlast, List.cons_append, List.nil_append, hextension] at hsource
  exact ⟨Watch.wellFormed_formsProject, by decide, hextension, hsource.2.2.1, hsource.2.2.2⟩

/-- A component with a further directory in its own. -/
def partsProject : FileTree :=
  { nodes := [(["shop"], .directory), (["shop", "Card"], .directory),
      (["shop", "Card", "parts"], .directory),
      (["shop", "Card", "Card.stories.ts"], .file (.text "export default \x7b\x7d;")),
      (["shop", "Card", "Card.ts"], .file (.text ""))]
    current := [] }

/-- With two dots at the end of the path of its directory the component is not found, though the
directory has a file with its name. -/
theorem assemble_partsProject : partsProject.WellFormed ∧ Path.isAbsolute "/shop/Card/parts/.." = true ∧
    discover? partsProject { } "/shop/Card/parts/.." = some ["/shop/Card/parts/../Card.stories.ts"] ∧
    partsProject.locate "/shop/Card/parts/.." = .ok ["shop", "Card"] ∧
    firstExtension? partsProject ["shop", "Card"] "Card" = some "ts" ∧
    assemble partsProject ⟨"/shop/Card/parts/..", "1.0.0", "./components", { }⟩
      "/shop/Card/parts/../Card.stories.ts" = .error (.missingSource (expectedSource "")) := by
  refine ⟨by decide +kernel, by decide, by decide +kernel, by decide +kernel, by decide +kernel, ?_⟩
  exact assemble_of_none (by decide +kernel)

end Component

end StoryManifest
