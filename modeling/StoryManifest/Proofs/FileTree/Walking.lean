import StoryManifest.Proofs.Path.Steps

/-!
Where paths lead. A path is followed through its moves alone when it ends in a directory, so paths with
the same moves lead to the same location. In a well-formed tree the names below a directory lead to
whatever is there.
-/

namespace StoryManifest.FileTree

open StoryManifest.Path (moves isIdle IsName SameMoves)

variable {t : FileTree} {l m d : Location} {p q : Path} {ps qs : List (List Char)}

/-! ### Following pieces -/

theorem follow_ok {piece : List Char} (h : t.follow l piece = .ok m) :
    t.get? l = some .directory ∧ m = if isIdle piece then l
      else if piece = ['.', '.'] then l.dropLast else l ++ [String.ofList piece] := by
  unfold follow at h
  split at h
  · cases h
  · cases h
  · rename_i hl
    exact ⟨hl, (Except.ok.inj h).symm⟩

theorem follow_name {piece : List Char} (hl : t.get? l = some .directory)
    (hidle : isIdle piece = false) (hup : piece ≠ ['.', '.']) :
    t.follow l piece = .ok (l ++ [String.ofList piece]) := by
  simp [follow, hl, hidle, hup]

theorem followAll_append (l : Location) (ps qs : List (List Char)) :
    t.followAll l (ps ++ qs) =
      match t.followAll l ps with
      | .ok m => t.followAll m qs
      | .error e => .error e := by
  induction ps generalizing l with
  | nil => rfl
  | cons piece ps ih =>
    rw [List.cons_append, followAll, followAll]
    cases t.follow l piece with
    | error e => rfl
    | ok m => exact ih m

theorem followAll_append_of_ok (h : t.followAll l ps = .ok m) (qs : List (List Char)) :
    t.followAll l (ps ++ qs) = t.followAll m qs := by rw [followAll_append, h]

/-- Pieces that do not count may be left out. -/
theorem followAll_filter : ∀ {ps : List (List Char)} {l : Location}, t.followAll l ps = .ok d →
    t.followAll l (ps.filter (!isIdle ·)) = .ok d
  | [], _, h => h
  | piece :: ps, l, h => by
    rw [followAll] at h
    cases hstep : t.follow l piece with
    | error e => rw [hstep] at h; cases h
    | ok m =>
      rw [hstep] at h
      by_cases hidle : isIdle piece = true
      · obtain ⟨-, rfl⟩ := follow_ok hstep
        rw [if_pos hidle] at h
        simpa [List.filter_cons, hidle] using followAll_filter h
      · simp only [List.filter_cons, hidle, Bool.not_false, if_true, followAll, hstep]
        exact followAll_filter h

/-- A directory is reached from a directory. -/
theorem directory_of_followAll (hd : t.get? d = some .directory) : ∀ {ps : List (List Char)},
    t.followAll l ps = .ok d → t.get? l = some .directory
  | [], h => by rwa [Except.ok.inj h]
  | piece :: ps, h => by
    rw [followAll] at h
    cases hstep : t.follow l piece with
    | error e => rw [hstep] at h; cases h
    | ok m => exact (follow_ok hstep).1

/-- Pieces that do not count may be put back on the way to a directory. -/
theorem followAll_of_filter (hd : t.get? d = some .directory) : ∀ {ps : List (List Char)} {l : Location},
    t.followAll l (ps.filter (!isIdle ·)) = .ok d → t.followAll l ps = .ok d
  | [], _, h => h
  | piece :: ps, l, h => by
    by_cases hidle : isIdle piece = true
    · rw [List.filter_cons_of_neg (by simp [hidle])] at h
      have hl := directory_of_followAll hd h
      have hstep : t.follow l piece = .ok l := by simp [follow, hl, hidle]
      rw [followAll, hstep]
      exact followAll_of_filter hd h
    · rw [List.filter_cons_of_pos (by simp [hidle]), followAll] at h
      rw [followAll]
      cases hstep : t.follow l piece with
      | error e => rw [hstep] at h; cases h
      | ok m =>
        rw [hstep] at h
        exact followAll_of_filter hd h

/-! ### Where a path leads -/

/-- The moves of a path lead to a location. -/
def Leads (t : FileTree) (p : Path) (d : Location) : Prop :=
  t.followAll (t.startOf p) (moves p) = .ok d

theorem locate_of_ne {p : Path} (hp : p ≠ "") :
    t.locate p = t.followAll (t.startOf p) (Path.splitSlash p.toList) := if_neg hp

theorem ne_empty_of_locate (h : t.locate p = .ok d) : p ≠ "" := by
  rintro rfl
  cases h

theorem find?_of_locate (h : t.locate p = .ok d) : t.find? p = t.get? d := by simp only [find?, h]

theorem Leads.of_locate (h : t.locate p = .ok d) : t.Leads p d := by
  rw [locate_of_ne (ne_empty_of_locate h)] at h
  exact followAll_filter h

theorem Leads.locate (h : t.Leads p d) (hd : t.get? d = some .directory) (hp : p ≠ "") :
    t.locate p = .ok d := by
  rw [locate_of_ne hp]
  exact followAll_of_filter hd h

theorem Leads.of_sameMoves (h : t.Leads p d) (hsame : SameMoves q p) : t.Leads q d := by
  rw [Leads, startOf, hsame.isAbsolute_eq, hsame.moves_eq]
  exact h

/-- A path inside a directory leads to the name in it. -/
theorem Leads.locate_join {base : Path} {name : String} (h : t.Leads base d)
    (hd : t.get? d = some .directory) (hname : IsName name) :
    t.locate (Path.join base name) = .ok (d ++ [name]) := by
  obtain ⟨ps, hsplit, hmoves, -⟩ := Path.splitSlash_join hname base
  have hstart : t.startOf (Path.join base name) = t.startOf base := by
    rw [startOf, startOf, Path.isAbsolute_join hname]
  have hbase : t.followAll (t.startOf base) ps = .ok d :=
    followAll_of_filter hd (hmoves ▸ h)
  have hstep := follow_name hd hname.notIdle hname.notUp
  rw [locate_of_ne (Path.join_ne_empty hname base), hsplit, hstart, followAll_append_of_ok hbase]
  simp only [followAll, hstep, String.ofList_toList]

theorem Leads.unique (h : t.Leads p l) (h' : t.Leads p m) : l = m := Except.ok.inj (h.symm.trans h')

/-- A path inside a directory leads only to the name in what the directory leads to. -/
theorem Leads.of_join {base : Path} {name : String} (hname : IsName name)
    (h : t.Leads (Path.join base name) l) : ∃ d, t.Leads base d ∧ l = d ++ [name] := by
  rw [Leads, startOf, Path.isAbsolute_join hname, Path.moves_join hname, followAll_append] at h
  cases hbase : t.followAll (t.startOf base) (moves base) with
  | error e => rw [startOf] at hbase; rw [hbase] at h; cases h
  | ok d =>
    have hd := hbase
    rw [startOf] at hbase
    rw [hbase] at h
    simp only [followAll] at h
    cases hstep : t.follow d name.toList with
    | error e => rw [hstep] at h; cases h
    | ok m =>
      rw [hstep] at h
      obtain ⟨-, rfl⟩ := follow_ok hstep
      simp only [hname.notIdle, hname.notUp, Bool.false_eq_true, if_false, String.ofList_toList] at h
      exact ⟨d, hd, (Except.ok.inj h).symm⟩

theorem leads_of_locate_join {base : Path} {name : String} (hname : IsName name)
    (h : t.locate (Path.join base name) = .ok l) : ∃ d, t.Leads base d ∧ l = d ++ [name] :=
  (Leads.of_locate h).of_join hname

/-- Names lead only to what they name. -/
theorem Leads.of_descend {base : Path} {names : List String} (hbase : t.Leads base d)
    (hnames : ∀ name ∈ names, IsName name) (h : t.Leads (Path.descend base names) l) : l = d ++ names := by
  induction names using List.reverseRecOn generalizing l with
  | nil => simpa using h.unique hbase
  | append_singleton names name ih =>
    rw [Path.descend_append] at h
    obtain ⟨m, hm, rfl⟩ := h.of_join (hnames name (by simp))
    rw [ih (fun n hn => hnames n (List.mem_append_left _ hn)) hm, List.append_assoc]

/-- What a path that ends in a name leads to has the name. -/
theorem Leads.of_fileName? {n : String} (h : t.Leads p d) (hn : Path.fileName? p = some n) :
    ∃ above, d = above ++ [n] := by
  obtain ⟨before, hmoves, hup⟩ := Path.moves_of_fileName? hn
  have hidle := (Path.isName_of_fileName? hn).notIdle
  rw [Leads, hmoves, followAll_append] at h
  cases hb : t.followAll (t.startOf p) before with
  | error e => rw [hb] at h; cases h
  | ok above =>
    rw [hb] at h
    simp only [followAll] at h
    cases hstep : t.follow above n.toList with
    | error e => rw [hstep] at h; cases h
    | ok m =>
      rw [hstep] at h
      obtain ⟨-, rfl⟩ := follow_ok hstep
      simp only [hidle, hup, Bool.false_eq_true, if_false, String.ofList_toList] at h
      exact ⟨above, (Except.ok.inj h).symm⟩

/-! ### Well-formed trees -/

/-- Whatever is in a tree has a proper name in a directory. -/
structure WellFormed (t : FileTree) : Prop where
  isName : ∀ e ∈ t.nodes, ∀ name ∈ e.1, IsName name
  directory : ∀ e ∈ t.nodes, ∀ k < e.1.length, t.get? (e.1.take k) = some .directory

instance (t : FileTree) : Decidable t.WellFormed :=
  decidable_of_iff
    ((∀ e ∈ t.nodes, ∀ name ∈ e.1, IsName name) ∧
      ∀ e ∈ t.nodes, ∀ k < e.1.length, t.get? (e.1.take k) = some .directory)
    ⟨fun ⟨h, h'⟩ => ⟨h, h'⟩, fun ⟨h, h'⟩ => ⟨h, h'⟩⟩

/-- No two nodes of a tree are at one location. -/
def Distinct (t : FileTree) : Prop := (t.nodes.map Prod.fst).Nodup

instance (t : FileTree) : Decidable t.Distinct := inferInstanceAs (Decidable (List.Nodup _))

theorem Distinct.get?_of_mem (h : t.Distinct) {n : FileNode} (hmem : (l, n) ∈ t.nodes) (hl : l ≠ []) :
    t.get? l = some n := by
  rw [get?, if_neg hl]
  have hnodes : (t.nodes.map Prod.fst).Nodup := h
  generalize t.nodes = nodes at hmem hnodes
  induction nodes with
  | nil => cases hmem
  | cons e nodes ih =>
    obtain ⟨hhead, htail⟩ := List.nodup_cons.mp hnodes
    rcases List.mem_cons.mp hmem with rfl | hmem
    · simp
    · have hne : l ≠ e.1 := by
        rintro rfl
        exact hhead (List.mem_map.mpr ⟨_, hmem, rfl⟩)
      rw [List.lookup_cons, beq_false_of_ne hne]
      exact ih hmem htail

theorem mem_nodes_of_get? {n : FileNode} (h : t.get? l = some n) (hl : l ≠ []) : (l, n) ∈ t.nodes := by
  rw [get?, if_neg hl, List.lookup_eq_some_iff] at h
  obtain ⟨before, after, hnodes, -⟩ := h
  simp [hnodes]

/-- Names along directories lead to what they name. -/
theorem locate_descend {directory : Path} {base : Location} (h : t.locate directory = .ok base) :
    ∀ {names : List String}, (∀ name ∈ names, IsName name) →
    (∀ k < names.length, t.get? (base ++ names.take k) = some .directory) →
    t.locate (Path.descend directory names) = .ok (base ++ names) := by
  intro names
  induction names using List.reverseRecOn with
  | nil => intro _ _; simpa [Path.descend] using h
  | append_singleton names name ih =>
    intro hnames hdirs
    have hprevious : t.locate (Path.descend directory names) = .ok (base ++ names) := by
      refine ih (fun n hn => hnames n (List.mem_append_left _ hn)) fun k hk => ?_
      have := hdirs k (by rw [List.length_append]; omega)
      rwa [List.take_append_of_le_length (by omega)] at this
    have hdir : t.get? (base ++ names) = some .directory := by
      simpa using hdirs names.length (by simp)
    have hjoin := (Leads.of_locate hprevious).locate_join hdir (hnames name (by simp))
    rw [List.append_assoc] at hjoin
    rw [Path.descend, List.foldl_append]
    exact hjoin

/-- In a well-formed tree the path of names below a directory finds what they name. -/
theorem find?_descend (hwf : t.WellFormed) {directory : Path} {base : Location}
    (hbase : t.locate directory = .ok base) {names : List String} (hnames : ∀ name ∈ names, IsName name) :
    t.find? (Path.descend directory names) = t.get? (base ++ names) := by
  cases hget : t.get? (base ++ names) with
  | some n =>
    by_cases hempty : names = []
    · subst hempty
      rw [List.append_nil] at hget
      exact (find?_of_locate hbase).trans hget
    · have hmem := mem_nodes_of_get? hget (by simp [hempty])
      have hlocate := locate_descend hbase hnames fun k hk => by
        have h := hwf.directory _ hmem (base.length + k) (by simpa using hk)
        rwa [List.take_length_add_append] at h
      rw [find?_of_locate hlocate, hget]
  | none =>
    rw [find?]
    cases hlocate : t.locate (Path.descend directory names) with
    | error e => rfl
    | ok l =>
      rw [Leads.of_descend (.of_locate hbase) hnames (.of_locate hlocate)]
      exact hget

/-! ### Paths that never go back -/

theorem eq_of_followAll : ∀ {ps : List (List Char)} {l : Location},
    (∀ piece ∈ ps, isIdle piece = false ∧ piece ≠ ['.', '.']) → t.followAll l ps = .ok d →
    d = l ++ ps.map String.ofList
  | [], l, _, h => by rw [List.map_nil, List.append_nil, Except.ok.inj h]
  | piece :: ps, l, hps, h => by
    rw [followAll] at h
    cases hstep : t.follow l piece with
    | error e => rw [hstep] at h; cases h
    | ok m =>
      rw [hstep] at h
      obtain ⟨hidle, hup⟩ := hps piece (by simp)
      obtain ⟨-, rfl⟩ := follow_ok hstep
      simp only [hidle, hup, Bool.false_eq_true, if_false] at h
      rw [eq_of_followAll (fun q hq => hps q (List.mem_cons_of_mem _ hq)) h]
      simp

theorem followAll_of_directories : ∀ {ps : List (List Char)} {l : Location},
    (∀ piece ∈ ps, isIdle piece = false ∧ piece ≠ ['.', '.']) →
    (∀ k < ps.length, t.get? (l ++ (ps.map String.ofList).take k) = some .directory) →
    t.followAll l ps = .ok (l ++ ps.map String.ofList)
  | [], l, _, _ => by simp [followAll]
  | piece :: ps, l, hps, hdirs => by
    obtain ⟨hidle, hup⟩ := hps piece (by simp)
    have hl : t.get? l = some .directory := by simpa using hdirs 0 (by simp)
    have ih := followAll_of_directories (l := l ++ [String.ofList piece])
      (fun q hq => hps q (List.mem_cons_of_mem _ hq)) fun k hk => by
        have := hdirs (k + 1) (by simpa using hk)
        simpa using this
    rw [followAll, follow_name hl hidle hup]
    simpa using ih

theorem forward_of_mem_moves (hup : ['.', '.'] ∉ moves p) :
    ∀ piece ∈ moves p, isIdle piece = false ∧ piece ≠ ['.', '.'] := by
  intro piece hpiece
  refine ⟨by simpa using (List.mem_filter.mp hpiece).2, ?_⟩
  rintro rfl
  exact hup hpiece

/-- A path that never goes back leads to what its moves name. -/
theorem eq_of_locate (hup : ['.', '.'] ∉ moves p) (h : t.locate p = .ok l) :
    l = t.startOf p ++ (moves p).map String.ofList :=
  eq_of_followAll (forward_of_mem_moves hup) (Leads.of_locate h)

/-- In a well-formed tree a path that never goes back leads to a directory with something in it. -/
theorem WellFormed.leads (hwf : t.WellFormed) (hup : ['.', '.'] ∉ moves p)
    (hd : d = t.startOf p ++ (moves p).map String.ofList) {name : String} {n : FileNode}
    (hn : t.get? (d ++ [name]) = some n) : t.Leads p d := by
  have hmem := mem_nodes_of_get? hn (by simp)
  subst hd
  refine followAll_of_directories (forward_of_mem_moves hup) fun k hk => ?_
  have h := hwf.directory _ hmem ((t.startOf p).length + k) (by simp; omega)
  rw [List.append_assoc, List.take_length_add_append] at h
  rwa [List.take_append_of_le_length (by rw [List.length_map]; omega)] at h

/-! ### Reading -/

theorem readText_ok {text : String} (h : t.readText p = .ok text) :
    ∃ k, t.locate p = .ok k ∧ t.get? k = some (.file (.text text)) := by
  unfold readText at h
  cases hk : t.locate p with
  | error e => rw [hk] at h; cases h
  | ok k =>
    simp only [hk] at h
    split at h
    · cases h
    · cases h
    · cases h
    · rename_i hn
      exact ⟨k, rfl, hn.trans (by rw [Except.ok.inj h])⟩

theorem readText_ok_iff {text : String} :
    t.readText p = .ok text ↔ t.find? p = some (.file (.text text)) := by
  unfold readText find?
  cases t.locate p with
  | error e => simp
  | ok l =>
    simp only
    split <;> simp [*]

theorem holds_of_readText {text : String} (h : t.readText p = .ok text) : t.holds p = true := by
  obtain ⟨k, hk, hfile⟩ := readText_ok h
  simp [holds, find?, hk, hfile]

end StoryManifest.FileTree
