import StoryManifest.Discovery
import StoryManifest.Proofs.Path

/-!
Which steps a path has. After a root or a dot at its start they are its moves, one by one, so a path
inside a directory has the steps of the directory before its own, and what is left of it below the
directory has the others.
-/

namespace StoryManifest.Path

variable {base p : Path} {name : String} {names : List String} {ps : List (List Char)} {ss : List Step}

/-! ### Steps and moves -/

/-- The step that a piece makes when it moves somewhere. -/
def Step.ofMove (piece : List Char) : Step :=
  if piece = ['.', '.'] then .up else .name (String.ofList piece)

theorem Step.ofMove_name (h : IsName name) : ofMove name.toList = .name name := by
  rw [ofMove, if_neg h.notUp, String.ofList_toList]

theorem filterMap_stepOf? (ps : List (List Char)) :
    ps.filterMap stepOf? = (ps.filter (!isIdle ·)).map Step.ofMove := by
  induction ps with
  | nil => rfl
  | cons piece ps ih =>
    cases hidle : isIdle piece with
    | true => simp [stepOf?, hidle, ih]
    | false =>
      have hstep : stepOf? piece = some (Step.ofMove piece) := by
        rw [stepOf?, hidle, if_neg Bool.false_ne_true, Step.ofMove]
        split <;> rfl
      simp [hstep, hidle, ih]

/-- The step before all moves: the root, or a dot at the start. -/
def lead (p : Path) : List Step :=
  if isAbsolute p then [.root]
  else if (splitSlash p.toList).head? = some ['.'] then [.here]
  else []

theorem steps_eq (p : Path) : steps p = lead p ++ (moves p).map Step.ofMove := by
  obtain ⟨piece, pieces, h⟩ := List.exists_cons_of_ne_nil (splitSlash_ne_nil p.toList)
  have habsolute : isAbsolute p = true ↔ piece = [] ∧ pieces ≠ [] := by
    rw [isAbsolute_iff, h]
    cases pieces <;> simp
  -- Only the first piece is read in a way of its own: it may be the root or a dot.
  have hrest := filterMap_stepOf? pieces
  rw [steps, moves, lead, h, stepsOf, hrest]
  by_cases hempty : piece = []
  · cases pieces with
    | nil => simp [habsolute, hempty, firstStep?, isIdle]
    | cons second pieces => simp [habsolute, hempty, firstStep?, isIdle]
  · by_cases hdot : piece = ['.']
    · simp [habsolute, hdot, firstStep?, isIdle]
    · have hidle : isIdle piece = false := by simp [isIdle, hempty, hdot]
      by_cases hup : piece = ['.', '.'] <;>
        simp [habsolute, hempty, hdot, hup, firstStep?, stepOf?, Step.ofMove, isIdle]

theorem steps_ne_nil (hp : p ≠ "") : steps p ≠ [] := by
  cases hc : p.toList with
  | nil => exact absurd (String.toList_inj.mp (by simpa using hc)) hp
  | cons c cs =>
    rw [steps, hc]
    by_cases hslash : c = '/'
    · simp [splitSlash_slash, hslash, stepsOf, firstStep?, splitSlash_ne_nil]
    · obtain ⟨piece, pieces, -, hcons⟩ := splitSlash_cons hslash cs
      by_cases hdot : c :: piece = ['.']
      · simp [hcons, hdot, stepsOf, firstStep?]
      · by_cases hup : c :: piece = ['.', '.'] <;>
          simp [hcons, hdot, hup, stepsOf, firstStep?, stepOf?, isIdle]

theorem ne_empty_of_isAbsolute (h : isAbsolute p = true) : p ≠ "" := by
  rintro rfl
  cases h

/-- A path from the root has the steps that its moves make. -/
theorem steps_of_isAbsolute (h : isAbsolute p = true) :
    steps p = .root :: (moves p).map Step.ofMove := by
  rw [steps_eq, lead, if_pos h, List.singleton_append]

/-- Paths from the root with the same moves have the same steps. -/
theorem SameMoves.steps_eq {q : Path} (h : SameMoves p q) (habsolute : isAbsolute q = true) :
    steps p = steps q := by
  rw [steps_of_isAbsolute (h.isAbsolute_eq.trans habsolute), steps_of_isAbsolute habsolute, h.moves_eq]

/-! ### Names inside a directory -/

theorem join_ne_empty (hname : IsName name) (base : Path) : join base name ≠ "" := by
  obtain ⟨ps, hsplit, -, -⟩ := splitSlash_join hname base
  intro hempty
  have hlast : (splitSlash "".toList).getLast? = some name.toList := by rw [← hempty, hsplit]; simp
  have hidle := hname.notIdle
  rw [← Option.some.inj hlast] at hidle
  cases hidle

theorem moves_join (hname : IsName name) (base : Path) :
    moves (join base name) = moves base ++ [name.toList] := by
  obtain ⟨ps, hsplit, hmoves, -⟩ := splitSlash_join hname base
  rw [moves, hsplit, List.filter_append, hmoves]
  simp [hname.notIdle]

theorem head?_splitSlash (cs : List Char) : (splitSlash cs).head? = some (cs.takeWhile (· ≠ '/')) := by
  induction cs with
  | nil => rfl
  | cons c cs ih =>
    by_cases hc : c = '/'
    · simp [splitSlash_slash, hc]
    · obtain ⟨piece, pieces, h, hcons⟩ := splitSlash_cons hc cs
      rw [h] at ih
      rw [hcons, List.takeWhile_cons_of_pos (by simpa using hc), ← Option.some.inj ih]
      rfl

theorem takeWhile_slash (cs ds : List Char) :
    (cs ++ '/' :: ds).takeWhile (· ≠ '/') = cs.takeWhile (· ≠ '/') := by
  induction cs with
  | nil => simp
  | cons c cs ih => by_cases hc : c = '/' <;> simp_all

theorem head?_splitSlash_join (hname : IsName name) (hbase : base ≠ "") :
    (splitSlash (join base name).toList).head? = (splitSlash base.toList).head? := by
  have hrelative : isAbsolute name = false := by
    rw [← Bool.not_eq_true, isAbsolute, decide_eq_true_iff]
    exact fun h => hname.noSlash (List.mem_of_head? h)
  rw [head?_splitSlash, head?_splitSlash]
  by_cases hslash : base.toList.getLast? = some '/'
  · obtain ⟨cs, hcs⟩ := List.getLast?_eq_some_iff.mp hslash
    have hjoin : (join base name).toList = cs ++ '/' :: name.toList := by
      simp [join, hrelative, hcs]
    rw [hjoin, hcs, takeWhile_slash, takeWhile_slash]
  · have hjoin : (join base name).toList = base.toList ++ '/' :: name.toList := by
      simp [join, hrelative, hbase, hslash]
    rw [hjoin, takeWhile_slash]

theorem lead_join (hname : IsName name) (hbase : base ≠ "") : lead (join base name) = lead base := by
  rw [lead, lead, isAbsolute_join hname, head?_splitSlash_join hname hbase]

theorem steps_join (hname : IsName name) (hbase : base ≠ "") :
    steps (join base name) = steps base ++ [.name name] := by
  rw [steps_eq, steps_eq, lead_join hname hbase, moves_join hname, List.map_append, List.append_assoc]
  simp [Step.ofMove_name hname]

theorem descend_append (base : Path) (names : List String) (name : String) :
    descend base (names ++ [name]) = join (descend base names) name := by simp [descend]

theorem descend_ne_empty (hnames : ∀ name ∈ names, IsName name) (hbase : base ≠ "") :
    descend base names ≠ "" := by
  cases names using List.reverseRecOn with
  | nil => exact hbase
  | append_singleton names name =>
    rw [descend_append]
    exact join_ne_empty (hnames name (by simp)) _

/-- A path further down has the steps of the directory, and then the names. -/
theorem steps_descend (hnames : ∀ name ∈ names, IsName name) (hbase : base ≠ "") :
    steps (descend base names) = steps base ++ names.map .name := by
  induction names using List.reverseRecOn with
  | nil => simp [descend]
  | append_singleton names name ih =>
    have habove : ∀ n ∈ names, IsName n := fun n hn => hnames n (List.mem_append_left _ hn)
    rw [descend_append, steps_join (hnames name (by simp)) (descend_ne_empty habove hbase), ih habove]
    simp

/-- Paths further down with the same steps have the same names. -/
theorem eq_of_steps_descend {ms ns : List String} (hms : ∀ name ∈ ms, IsName name)
    (hns : ∀ name ∈ ns, IsName name) (hbase : base ≠ "")
    (h : steps (descend base ms) = steps (descend base ns)) : ms = ns := by
  rw [steps_descend hms hbase, steps_descend hns hbase, List.append_cancel_left_eq] at h
  exact (List.map_inj_right fun _ _ => Step.name.inj).mp h

theorem isAbsolute_descend (hnames : ∀ name ∈ names, IsName name) :
    isAbsolute (descend base names) = isAbsolute base := by
  induction names using List.reverseRecOn with
  | nil => rfl
  | append_singleton names name ih =>
    rw [descend_append, isAbsolute_join (hnames name (by simp)),
      ih fun n hn => hnames n (List.mem_append_left _ hn)]

/-! ### Dots at the start -/

/-- A path starts with a single dot, which counts as a step there. -/
def StartsHere (p : Path) : Prop := (steps p).head? = some .here

instance (p : Path) : Decidable (StartsHere p) := inferInstanceAs (Decidable (_ = _))

theorem not_startsHere_of_isAbsolute (h : isAbsolute p = true) : ¬StartsHere p := by
  simp [StartsHere, steps_of_isAbsolute h]

/-- Without a dot at its start a path has no step before its moves but the root. -/
theorem lead_of_not_startsHere (h : ¬StartsHere p) :
    lead p = if isAbsolute p then [.root] else [] := by
  rw [lead]
  split
  · rfl
  · rename_i hrelative
    refine if_neg fun hdot => h ?_
    rw [StartsHere, steps_eq, lead, if_neg hrelative, if_pos hdot]
    rfl

/-- Tidying takes single dots away from the start. -/
theorem lead_tidy (p : Path) : lead (tidy p) = if isAbsolute p then [.root] else [] := by
  rw [lead, (tidy_sameMoves p).isAbsolute_eq]
  split
  · rfl
  · rename_i hrelative
    refine if_neg ?_
    simp only [tidy, hrelative, Bool.false_eq_true, if_false, String.toList_ofList]
    have hslash : ∀ q ∈ ((splitSlash p.toList).filter (· ≠ [])).dropWhile (· = ['.']), '/' ∉ q :=
      fun q hq => noSlash_of_mem_splitSlash (List.mem_filter.mp (List.dropWhile_subset _ hq)).1
    have hfirst := List.head?_dropWhile_not (fun q : List Char => decide (q = ['.']))
      ((splitSlash p.toList).filter (· ≠ []))
    cases hpieces : ((splitSlash p.toList).filter (· ≠ [])).dropWhile (· = ['.']) with
    | nil => simp [List.intercalate, splitSlash_nil]
    | cons q qs =>
      rw [hpieces] at hslash hfirst
      rw [splitSlash_intercalate hslash]
      simpa using hfirst

theorem lead_descend (hnames : ∀ name ∈ names, IsName name) (hbase : base ≠ "") :
    lead (descend base names) = lead base := by
  induction names using List.reverseRecOn with
  | nil => rfl
  | append_singleton names name ih =>
    have habove : ∀ n ∈ names, IsName n := fun n hn => hnames n (List.mem_append_left _ hn)
    rw [descend_append, lead_join (hnames name (by simp)) (descend_ne_empty habove hbase), ih habove]

/-- Tidied, a path with the moves of one without a dot at its start has the steps of that one. -/
theorem steps_tidy {q : Path} (h : SameMoves q p) (hdot : lead p = if isAbsolute p then [.root] else []) :
    steps (tidy q) = steps p := by
  rw [steps_eq, steps_eq, lead_tidy, h.isAbsolute_eq, hdot, ((tidy_sameMoves q).trans h).moves_eq]

/-! ### What is left below a directory -/

theorem dropSteps_suffix : ∀ (n : Nat) (first : Bool) (ps : List (List Char)), dropSteps n first ps <:+ ps
  | 0, _, ps => by simp [dropSteps]
  | _ + 1, _, [] => List.nil_suffix
  | n + 1, _, piece :: ps => (dropSteps_suffix _ false ps).trans (List.suffix_cons piece ps)

theorem filterMap_dropSteps (ps : List (List Char)) : ∀ n : Nat,
    (dropSteps n false ps).filterMap stepOf? = (ps.filterMap stepOf?).drop n := by
  induction ps with
  | nil => intro n; cases n <;> rfl
  | cons piece ps ih =>
    intro n
    cases n with
    | zero => rfl
    | succ n =>
      simp only [dropSteps, Bool.false_eq_true, if_false]
      cases hstep : stepOf? piece <;> simp [hstep, ih]

/-- After some steps from the start of a path, the others are left. -/
theorem filterMap_dropSteps_first {n : Nat} (hn : n ≠ 0) (ps : List (List Char)) :
    (dropSteps n true ps).filterMap stepOf? = (stepsOf ps).drop n := by
  obtain ⟨n, rfl⟩ := Nat.exists_eq_succ_of_ne_zero hn
  cases ps with
  | nil => rfl
  | cons piece ps =>
    simp only [dropSteps, if_true, stepsOf]
    cases hstep : firstStep? piece (!ps.isEmpty) <;> simp [filterMap_dropSteps]

/-- Put together again, pieces without idle ones at the start have the steps that they make. -/
theorem steps_trimmed (hslash : ∀ piece ∈ ps, '/' ∉ piece) :
    steps (String.ofList (List.intercalate ['/'] (trimPieces (ps.dropWhile isIdle)))) =
      ps.filterMap stepOf? := by
  have hmade : (trimPieces (ps.dropWhile isIdle)).filterMap stepOf? = ps.filterMap stepOf? := by
    rw [filterMap_stepOf?, filterMap_stepOf?, filter_trimPieces, filter_dropWhile_idle fun _ h => h]
  rw [← hmade]
  cases hleft : ps.dropWhile isIdle with
  | nil => rfl
  | cons piece pieces =>
    have hidle : isIdle piece = false := by
      have h := List.head?_dropWhile_not isIdle ps
      simpa [hleft] using h
    have hmem : ∀ q ∈ trimPieces (piece :: pieces), '/' ∉ q := by
      intro q hq
      refine hslash q (List.dropWhile_subset isIdle (hleft ▸ ?_))
      rcases List.mem_cons.mp hq with rfl | hq
      · exact List.mem_cons_self
      · rw [List.mem_reverse] at hq
        exact List.mem_cons_of_mem _ (List.mem_reverse.mp (List.dropWhile_subset _ hq))
    have hfirst : ∀ more, firstStep? piece more = stepOf? piece := by
      have hne : piece ≠ [] ∧ piece ≠ ['.'] := by simpa [isIdle] using hidle
      simp [firstStep?, hne.1, hne.2]
    rw [trimPieces] at hmem ⊢
    rw [steps, String.toList_ofList, splitSlash_intercalate hmem, stepsOf, hfirst]
    cases hstep : stepOf? piece <;> simp [hstep]

/-- A path below a directory has a rest, and the rest has the steps after those of the directory. -/
theorem exists_below? (hbase : steps base ≠ []) (h : steps p = steps base ++ ss) :
    ∃ rest, below? base p = some rest ∧ steps rest = ss := by
  have hprefix : (steps base).isPrefixOf (steps p) = true := by simp [h]
  have hlength : (steps base).length ≠ 0 := by simpa using hbase
  obtain ⟨n, hn⟩ := Nat.exists_eq_succ_of_ne_zero hlength
  refine ⟨String.ofList (List.intercalate ['/'] (trimPieces ((dropSteps (steps base).length true
    (splitSlash p.toList)).dropWhile isIdle))), ?_, ?_⟩
  · simp only [below?, if_pos hprefix, hn]
  · rw [steps_trimmed fun piece hpiece =>
        noSlash_of_mem_splitSlash ((dropSteps_suffix _ _ _).subset hpiece),
      filterMap_dropSteps_first hlength]
    change (steps p).drop _ = ss
    rw [h, List.drop_left]

/-! ### The last name -/

theorem fileName?_of_steps (h : steps p = ss ++ [.name name]) : fileName? p = some name := by
  simp [fileName?, h]

theorem fileName?_join (hname : IsName name) (base : Path) : fileName? (join base name) = some name := by
  refine @fileName?_of_steps _ _ (lead (join base name) ++ (moves base).map Step.ofMove) ?_
  rw [steps_eq, moves_join hname, List.map_append, ← List.append_assoc]
  simp [Step.ofMove_name hname]

/-- A name is split before an ending that has no dot of its own. -/
theorem splitName_dot {n extension : String} (hn : n ≠ "") (hdot : '.' ∉ extension.toList) :
    splitName (n ++ "." ++ extension) = (n, some extension) := by
  have hback : (n ++ "." ++ extension).toList.reverse =
      extension.toList.reverse ++ '.' :: n.toList.reverse := by simp
  have hne : n.toList.length ≠ 0 := by simpa using hn
  have hending : (extension.toList.reverse ++ '.' :: n.toList.reverse).takeWhile (· ≠ '.') =
      extension.toList.reverse := by
    rw [List.takeWhile_append_of_pos]
    · simp
    · intro c hc
      have hmem := List.mem_reverse.mp hc
      exact decide_eq_true fun h => hdot (by rwa [h] at hmem)
  have hlength : extension.toList.reverse.length + 1 <
      (extension.toList.reverse ++ '.' :: n.toList.reverse).length := by
    simp only [List.length_append, List.length_cons, List.length_reverse]
    omega
  simp only [splitName, hback, hending, if_pos hlength]
  simp [List.drop_append]

end StoryManifest.Path
