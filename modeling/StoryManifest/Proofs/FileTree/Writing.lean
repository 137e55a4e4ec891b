import Mathlib.Logic.Relation
import StoryManifest.Proofs.FileTree.Walking

/-!
What making directories and writing a file change. Only directories that a path is in are added, the
written file is the only one that differs, and paths lead where they led before; once a file is written
in a directory that was made for it, doing so again changes nothing.
-/

namespace StoryManifest

/-- What a path names is in a directory. -/
def Path.InDirectory (p directory : Path) : Prop := Path.parent? p = some directory

end StoryManifest

namespace StoryManifest.FileTree

variable {t t' t'' : FileTree} {l m k : Location} {p : Path}

/-! ### Nodes -/

theorem lookup_cons_eq (k j : Location) (o : FileNode) (nodes : List (Location × FileNode)) :
    ((j, o) :: nodes).lookup k = if k = j then some o else nodes.lookup k := by
  by_cases hk : k = j
  · simp [hk]
  · have hb : (k == j) = false := by simpa using hk
    rw [List.lookup_cons, hb, if_neg hk]

theorem lookup_putNode (l : Location) (n : FileNode) (k : Location) :
    ∀ nodes : List (Location × FileNode),
    (putNode l n nodes).lookup k = if k = l then some n else nodes.lookup k
  | [] => by rw [putNode, lookup_cons_eq]
  | (j, o) :: nodes => by
    have ih := lookup_putNode l n k nodes
    by_cases hj : j = l
    · simp only [putNode, hj, if_true, lookup_cons_eq]
      split <;> rfl
    · by_cases hk : k = j
      · subst hk
        simp [putNode, hj]
      · simp [putNode, lookup_cons_eq, hj, hk, ih]

theorem get?_put (hl : l ≠ []) (n : FileNode) (k : Location) :
    (t.put l n).get? k = if k = l then some n else t.get? k := by
  rw [get?, get?, put, lookup_putNode]
  by_cases hk : k = []
  · subst hk
    simp [Ne.symm hl]
  · simp [hk]

theorem putNode_of_lookup {n : FileNode} : ∀ {nodes : List (Location × FileNode)},
    nodes.lookup l = some n → putNode l n nodes = nodes
  | (j, o) :: nodes, h => by
    by_cases hj : j = l
    · subst hj
      rw [lookup_cons_eq, if_pos rfl] at h
      rw [putNode, if_pos rfl, Option.some.inj h]
    · rw [lookup_cons_eq, if_neg (Ne.symm hj)] at h
      rw [putNode, if_neg hj, putNode_of_lookup h]

/-- Putting a node where it is already changes nothing. -/
theorem put_of_get? {n : FileNode} (hl : l ≠ []) (h : t.get? l = some n) : t.put l n = t := by
  rw [get?, if_neg hl] at h
  rw [put, putNode_of_lookup h]

theorem filter_putNode {keep : Location × FileNode → Bool} {n : FileNode} (hn : keep (l, n) = false)
    : ∀ {nodes : List (Location × FileNode)}, (∀ o, (l, o) ∈ nodes → keep (l, o) = false) →
    (putNode l n nodes).filter keep = nodes.filter keep
  | [], _ => by simp [putNode, hn]
  | (j, o) :: nodes, h => by
    by_cases hj : j = l
    · subst hj
      have ho := h o List.mem_cons_self
      simp [putNode, hn, ho]
    · have ih := filter_putNode hn fun o ho => h o (List.mem_cons_of_mem _ ho)
      simp [putNode, hj, List.filter_cons, ih]

/-! ### Trees that only gain directories -/

/-- Nothing was lost or changed, and only directories were added. -/
structure Extends (t t' : FileTree) : Prop where
  current_eq : t'.current = t.current
  get?_eq : ∀ k, t'.get? k = t.get? k ∨ (t.get? k = none ∧ t'.get? k = some .directory)
  files_eq : t'.nodes.filter (·.2 ≠ .directory) = t.nodes.filter (·.2 ≠ .directory)

theorem Extends.refl (t : FileTree) : Extends t t := ⟨rfl, fun _ => .inl rfl, rfl⟩

theorem Extends.trans (h : Extends t t') (h' : Extends t' t'') : Extends t t'' where
  current_eq := h'.current_eq.trans h.current_eq
  files_eq := h'.files_eq.trans h.files_eq
  get?_eq k := by
    rcases h.get?_eq k with hk | ⟨hnone, hdir⟩
    · rcases h'.get?_eq k with hk' | ⟨hnone', hdir'⟩
      · exact .inl (hk'.trans hk)
      · exact .inr ⟨hk.symm.trans hnone', hdir'⟩
    · rcases h'.get?_eq k with hk' | ⟨hnone', -⟩
      · exact .inr ⟨hnone, hk'.trans hdir⟩
      · cases hdir.symm.trans hnone'

theorem Extends.put_directory (h : t.get? l = none) : Extends t (t.put l .directory) where
  current_eq := rfl
  get?_eq k := by
    have hl : l ≠ [] := by rintro rfl; cases h
    rw [get?_put hl]
    split
    · rename_i hk
      exact .inr ⟨hk ▸ h, rfl⟩
    · exact .inl rfl
  files_eq := by
    have hl : l ≠ [] := by rintro rfl; cases h
    rw [get?, if_neg hl, List.lookup_eq_none_iff] at h
    exact filter_putNode (by simp) fun o ho => by simpa using h (l, o) ho

/-- Where directories remain, paths lead where they led. -/
theorem locate_mono (hcurrent : t'.current = t.current)
    (hdirectory : ∀ k, t.get? k = some .directory → t'.get? k = some .directory)
    (h : t.locate p = .ok l) : t'.locate p = .ok l := by
  have hfollow : ∀ (ps : List (List Char)) (k : Location), t.followAll k ps = .ok l →
      t'.followAll k ps = .ok l := by
    intro ps
    induction ps with
    | nil => exact fun _ hk => hk
    | cons piece ps ih =>
      intro k hk
      rw [followAll] at hk ⊢
      cases hstep : t.follow k piece with
      | error e => rw [hstep] at hk; cases hk
      | ok m =>
        rw [hstep] at hk
        have hdir := (follow_ok hstep).1
        have hsame : t'.follow k piece = t.follow k piece := by
          rw [follow, follow, hdir, hdirectory k hdir]
        rw [hsame, hstep]
        exact ih m hk
  have hne := ne_empty_of_locate h
  rw [locate_of_ne hne] at h ⊢
  rw [startOf, hcurrent]
  exact hfollow _ _ h

theorem Extends.directory (h : Extends t t') (hk : t.get? k = some .directory) :
    t'.get? k = some .directory := by
  rcases h.get?_eq k with hk' | ⟨-, hk'⟩
  · rw [hk', hk]
  · exact hk'

theorem Extends.locate (h : Extends t t') (hp : t.locate p = .ok l) : t'.locate p = .ok l :=
  locate_mono h.current_eq (fun _ hk => h.directory hk) hp

/-- What is at a path remains there. -/
theorem Extends.find?_eq (h : Extends t t') {n : FileNode} (hn : t.find? p = some n) :
    t'.find? p = some n := by
  rw [find?] at hn
  cases hl : t.locate p with
  | error e => rw [hl] at hn; cases hn
  | ok l =>
    simp only [hl] at hn
    rw [find?_of_locate (h.locate hl)]
    rcases h.get?_eq l with hsame | ⟨hnone, -⟩
    · rw [hsame, hn]
    · cases hnone.symm.trans hn

/-! ### Slashes at the end -/

theorem splitSlash_slashes (cs : List Char) (n : Nat) :
    Path.splitSlash (cs ++ List.replicate n '/') = Path.splitSlash cs ++ List.replicate n [] := by
  have hslashes : ∀ n : Nat, Path.splitSlash (List.replicate n '/') = List.replicate (n + 1) [] := by
    intro n
    induction n with
    | zero => rfl
    | succ n ih => rw [List.replicate_succ, Path.splitSlash, if_pos rfl, ih]; rfl
  cases n with
  | zero => simp
  | succ n => rw [List.replicate_succ, Path.splitSlash_append, hslashes]

theorem toList_eq_append_slashes (cs : List Char) : ∃ n,
    cs = (cs.reverse.dropWhile (· = '/')).reverse ++ List.replicate n '/' := by
  refine ⟨(cs.reverse.takeWhile (· = '/')).length, ?_⟩
  have htake : cs.reverse.takeWhile (· = '/') =
      List.replicate (cs.reverse.takeWhile (· = '/')).length '/' :=
    List.eq_replicate_iff.mpr
      ⟨rfl, fun c hc => of_decide_eq_true (List.all_eq_true.mp List.all_takeWhile c hc)⟩
  conv_lhs => rw [← List.reverse_reverse cs, ← List.takeWhile_append_dropWhile (p := (· = '/'))
    (l := cs.reverse), List.reverse_append, htake, List.reverse_replicate]

/-- A path without the slashes at its end makes the same moves. -/
theorem dropSlashes_sameMoves (p : Path) : Path.SameMoves (dropSlashes p) p := by
  unfold dropSlashes
  split
  · exact ⟨rfl, rfl⟩
  · rename_i hroot
    obtain ⟨n, hn⟩ := toList_eq_append_slashes p.toList
    generalize (p.toList.reverse.dropWhile (· = '/')).reverse = cs at hn
    have hmoves : Path.moves (String.ofList cs) = Path.moves p := by
      simp [Path.moves, hn, splitSlash_slashes, Path.isIdle]
    refine ⟨hmoves, ?_⟩
    cases cs with
    | nil =>
      cases n with
      | zero =>
        have hp : p = String.ofList [] := String.toList_inj.mp (by rw [hn]; rfl)
        rw [hp]
      | succ n =>
        refine absurd ?_ hroot
        rw [Path.steps, hn, splitSlash_slashes]
        simp [Path.splitSlash, Path.stepsOf, Path.firstStep?, Path.stepOf?, Path.isIdle]
    | cons c cs => simp [Path.isAbsolute, hn]

theorem dropSlashes_ne (hp : p ≠ "") : dropSlashes p ≠ "" := by
  unfold dropSlashes
  split
  · exact hp
  · rename_i hroot
    obtain ⟨n, hn⟩ := toList_eq_append_slashes p.toList
    intro hempty
    rw [String.ofList_eq_empty_iff] at hempty
    rw [hempty, List.nil_append] at hn
    cases n with
    | zero => exact hp (String.toList_inj.mp (by rw [hn]; rfl))
    | succ n =>
      refine hroot ?_
      have hsplit := splitSlash_slashes [] (n + 1)
      rw [List.nil_append] at hsplit
      rw [Path.steps, hn, hsplit]
      simp [Path.splitSlash, Path.stepsOf, Path.firstStep?, Path.stepOf?, Path.isIdle]

/-- A path that could lead to a file has no slash at its end. -/
theorem dropSlashes_of_not_namesDirectory (h : namesDirectory p = false) : dropSlashes p = p := by
  have hlast : p.toList.getLast? ≠ some '/' := by
    intro hslash
    obtain ⟨cs, hcs⟩ := List.getLast?_eq_some_iff.mp hslash
    rw [namesDirectory, hcs, Path.splitSlash_append] at h
    simp [Path.splitSlash, Path.isIdle] at h
  unfold dropSlashes
  split
  · rfl
  · have hdrop : p.toList.reverse.dropWhile (· = '/') = p.toList.reverse := by
      cases hr : p.toList.reverse with
      | nil => rfl
      | cons c cs =>
        refine List.dropWhile_cons_of_neg ?_
        rw [← List.head?_reverse, hr] at hlast
        simpa using hlast
    rw [hdrop, List.reverse_reverse, String.ofList_toList]

/-! ### Making directories -/

theorem isDirectory_iff : t.isDirectory p = true ↔
    ∃ l, t.locate p = .ok l ∧ t.get? l = some .directory := by
  rw [isDirectory, decide_eq_true_iff, find?]
  cases t.locate p <;> simp

theorem makeDirectory_ok (h : t.makeDirectory p = .ok t') :
    ∃ l, t.locate (dropSlashes p) = .ok l ∧ t.get? l = none ∧ t' = t.put l .directory := by
  unfold makeDirectory at h
  cases hl : t.locate (dropSlashes p) with
  | error e => rw [hl] at h; cases h
  | ok l =>
    rw [hl] at h
    cases hn : t.get? l with
    | some n => simp only [hn] at h; cases h
    | none =>
      simp only [hn] at h
      exact ⟨l, rfl, hn, (Except.ok.inj h).symm⟩

/-- A directory that is there need not be made. -/
theorem ensureDirectory_of_isDirectory (h : t.isDirectory p = true) : t.ensureDirectory p = .ok t := by
  obtain ⟨l, hl, hdir⟩ := isDirectory_iff.mp h
  have hdrop : t.locate (dropSlashes p) = .ok l :=
    ((Leads.of_locate hl).of_sameMoves (dropSlashes_sameMoves p)).locate hdir
      (dropSlashes_ne (ne_empty_of_locate hl))
  simp only [ensureDirectory, makeDirectory, hdrop, hdir, h, if_true]

/-- Only directories were added, each where a path leads or that of a directory around it. -/
structure Makes (p : Path) (t t' : FileTree) : Prop extends Extends t t' where
  leads : ∀ k, t'.get? k ≠ t.get? k →
    ∃ q, Relation.ReflTransGen Path.InDirectory p q ∧ t'.locate q = .ok k

namespace Makes

theorem refl (p : Path) (t : FileTree) : Makes p t t := ⟨.refl t, fun _ hk => absurd rfl hk⟩

theorem trans (h : Makes p t t') (h' : Makes p t' t'') : Makes p t t'' where
  toExtends := h.toExtends.trans h'.toExtends
  leads k hk := by
    by_cases hsame : t''.get? k = t'.get? k
    · obtain ⟨q, hq, hlocate⟩ := h.leads k fun hbefore => hk (hsame.trans hbefore)
      exact ⟨q, hq, h'.locate hlocate⟩
    · exact h'.leads k hsame

theorem of_inDirectory {directory : Path} (h : Makes directory t t') (hp : Path.InDirectory p directory) :
    Makes p t t' where
  toExtends := h.toExtends
  leads k hk := by
    obtain ⟨q, hq, hlocate⟩ := h.leads k hk
    exact ⟨q, .head hp hq, hlocate⟩

end Makes

theorem ensureDirectory_ok (hp : p ≠ "") (h : t.ensureDirectory p = .ok t') :
    Makes p t t' ∧ t'.isDirectory p = true := by
  unfold ensureDirectory at h
  cases hmake : t.makeDirectory p with
  | error e =>
    rw [hmake] at h
    simp only at h
    split at h
    · rename_i hdir
      obtain rfl := Except.ok.inj h
      exact ⟨.refl p t, hdir⟩
    · cases h
  | ok made =>
    rw [hmake] at h
    obtain rfl := Except.ok.inj h
    obtain ⟨l, hl, hnone, rfl⟩ := makeDirectory_ok hmake
    have hne : l ≠ [] := by rintro rfl; cases hnone
    have hext := Extends.put_directory hnone
    have hdir : (t.put l .directory).get? l = some .directory := by rw [get?_put hne, if_pos rfl]
    have hlead : (t.put l .directory).Leads p l := by
      have hsame := dropSlashes_sameMoves p
      have h := Leads.of_locate (hext.locate hl)
      exact h.of_sameMoves ⟨hsame.moves_eq.symm, hsame.isAbsolute_eq.symm⟩
    have hlocate := hlead.locate hdir hp
    refine ⟨⟨hext, fun k hk => ⟨p, .refl, ?_⟩⟩, isDirectory_iff.mpr ⟨l, hlocate, hdir⟩⟩
    by_cases hkl : k = l
    · exact hkl ▸ hlocate
    · rw [get?_put hne, if_neg hkl] at hk
      exact absurd rfl hk

/-- Making directories only adds those that the path is in, and when it succeeds the last one is there. -/
theorem makeDirectories_makes : ∀ (n : Nat) {t t' : FileTree} {p : Path} {e : Option FileFault},
    makeDirectories n t p = (t', e) → Makes p t t' ∧ (e = none → p = "" ∨ t'.isDirectory p = true)
  | 0, t, t', p, e, h => by
    obtain ⟨rfl, rfl⟩ := Prod.mk.inj h
    exact ⟨.refl p t, fun he => by cases he⟩
  | n + 1, t, t', p, e, h => by
    unfold makeDirectories at h
    split at h
    · rename_i hp
      obtain ⟨rfl, rfl⟩ := Prod.mk.inj h
      exact ⟨.refl p t, fun _ => .inl hp⟩
    · rename_i hp
      split at h
      · rename_i made hmade
        obtain ⟨rfl, rfl⟩ := Prod.mk.inj h
        obtain ⟨hmakes, hdir⟩ := ensureDirectory_ok hp hmade
        exact ⟨hmakes, fun _ => .inr hdir⟩
      · split at h
        · obtain ⟨rfl, rfl⟩ := Prod.mk.inj h
          exact ⟨.refl p t, fun he => by cases he⟩
        · rename_i parent hparent
          split at h
          · rename_i between fault hbetween
            obtain ⟨rfl, rfl⟩ := Prod.mk.inj h
            exact ⟨(makeDirectories_makes n hbetween).1.of_inDirectory hparent, fun he => by cases he⟩
          · rename_i between hbetween
            have hfirst := (makeDirectories_makes n hbetween).1.of_inDirectory hparent
            split at h
            · rename_i made hmade
              obtain ⟨rfl, rfl⟩ := Prod.mk.inj h
              obtain ⟨hmakes, hdir⟩ := ensureDirectory_ok hp hmade
              exact ⟨hfirst.trans hmakes, fun _ => .inr hdir⟩
            · obtain ⟨rfl, rfl⟩ := Prod.mk.inj h
              exact ⟨hfirst, fun he => by cases he⟩
      · obtain ⟨rfl, rfl⟩ := Prod.mk.inj h
        exact ⟨.refl p t, fun he => by cases he⟩

theorem makePath_of_isDirectory (h : p = "" ∨ t.isDirectory p = true) : t.makePath p = (t, none) := by
  rw [makePath, makeDirectories]
  split
  · rfl
  · rename_i hp
    rw [ensureDirectory_of_isDirectory (h.resolve_left hp)]

/-- Only directories that a path is in were added. -/
structure MakesAround (p : Path) (t t' : FileTree) : Prop extends Extends t t' where
  leads : ∀ k, t'.get? k ≠ t.get? k →
    ∃ q, Relation.TransGen Path.InDirectory p q ∧ t'.locate q = .ok k

theorem MakesAround.refl (p : Path) (t : FileTree) : MakesAround p t t :=
  ⟨.refl t, fun _ hk => absurd rfl hk⟩

theorem Makes.around {directory : Path} (h : Makes directory t t') (hp : Path.InDirectory p directory) :
    MakesAround p t t' where
  toExtends := h.toExtends
  leads k hk := by
    obtain ⟨q, hq, hlocate⟩ := h.leads k hk
    exact ⟨q, .head' hp hq, hlocate⟩

/-- Making what a path is in adds nothing else, and when it succeeds the directory is there. -/
theorem makePath_parent {e : Option FileFault} (h : t.makePath ((Path.parent? p).getD "") = (t', e)) :
    MakesAround p t t' ∧
      (e = none → (Path.parent? p).getD "" = "" ∨ t'.isDirectory ((Path.parent? p).getD "") = true) := by
  obtain ⟨hmakes, hdir⟩ := makeDirectories_makes _ h
  refine ⟨?_, hdir⟩
  cases hparent : Path.parent? p with
  | none =>
    rw [hparent, Option.getD_none, makePath_of_isDirectory (.inl rfl)] at h
    exact (Prod.mk.inj h).1 ▸ .refl p t
  | some directory =>
    rw [hparent, Option.getD_some] at hmakes
    exact hmakes.around hparent

/-! ### Trees that differ by one file -/

/-- Nothing was lost, and nothing differs but added directories and what is at one location. -/
structure Gains (l : Location) (t t' : FileTree) : Prop where
  current_eq : t'.current = t.current
  not_directory : t.get? l ≠ some .directory
  get?_eq : ∀ k, k ≠ l → t'.get? k = t.get? k ∨ (t.get? k = none ∧ t'.get? k = some .directory)
  files_eq : t'.nodes.filter (fun e => e.2 ≠ .directory && e.1 ≠ l) =
    t.nodes.filter fun e => e.2 ≠ .directory && e.1 ≠ l

theorem ne_nil_of_not_directory (h : t.get? l ≠ some .directory) : l ≠ [] := by
  rintro rfl
  exact h rfl

theorem Extends.gains (h : Extends t t') (hl : t'.get? l ≠ some .directory) (content : Content) :
    Gains l t (t'.put l (.file content)) where
  current_eq := h.current_eq
  not_directory := fun hdir => hl (h.directory hdir)
  get?_eq k hk := by
    rw [get?_put (ne_nil_of_not_directory hl), if_neg hk]
    exact h.get?_eq k
  files_eq := by
    rw [put, filter_putNode (by simp) fun o _ => by simp]
    have hfiles := congrArg (List.filter (·.1 ≠ l)) h.files_eq
    simp only [List.filter_filter] at hfiles
    simpa only [Bool.and_comm] using hfiles

namespace Gains

variable (h : Gains l t t')

include h

theorem directory (hk : t.get? k = some .directory) : t'.get? k = some .directory := by
  have hne : k ≠ l := by
    rintro rfl
    exact h.not_directory hk
  rcases h.get?_eq k hne with hk' | ⟨-, hk'⟩
  · rw [hk', hk]
  · exact hk'

theorem locate (hp : t.locate p = .ok m) : t'.locate p = .ok m :=
  locate_mono h.current_eq (fun _ hk => h.directory hk) hp

/-- What is read elsewhere is what was there. -/
theorem intactText?_eq (hk : k ≠ l) : t'.intactText? k = t.intactText? k := by
  rcases h.get?_eq k hk with hk | ⟨hnone, hdir⟩
  · rw [intactText?, intactText?, hk]
  · rw [intactText?, intactText?, hnone, hdir]

theorem isFile_eq (hp : t.locate p = .ok k) (hk : k ≠ l) : t'.isFile p = t.isFile p := by
  rcases h.get?_eq k hk with hk | ⟨hnone, hdir⟩
  · simp only [isFile, find?, hp, h.locate hp, hk]
  · simp only [isFile, find?, hp, h.locate hp, hnone, hdir]

theorem readText_eq (hp : t.locate p = .ok k) (hk : k ≠ l) (hthere : t.get? k ≠ none) :
    t'.readText p = t.readText p := by
  rcases h.get?_eq k hk with hk | ⟨hnone, -⟩
  · simp only [readText, hp, h.locate hp, hk]
  · exact absurd hnone hthere

/-- The files below a directory are the same but for the one that differs. -/
theorem filter_filesBelow {base : Location} {f : List String → Bool}
    (hf : base.isPrefixOf l = true → f (l.drop base.length) = false) :
    (Ignore.filesBelow t' base).filter f = (Ignore.filesBelow t base).filter f := by
  have hkeep : ∀ t : FileTree, (Ignore.filesBelow t base).filter f =
      (Ignore.filesBelow { t with nodes := t.nodes.filter fun e => e.2 ≠ .directory && e.1 ≠ l } base).filter
        f := by
    intro t
    simp only [Ignore.filesBelow, List.filter_filterMap, List.filterMap_filter]
    refine congrArg (List.filterMap · t.nodes) (funext fun e => ?_)
    obtain ⟨k, n⟩ := e
    cases n with
    | directory => simp
    | file content =>
      by_cases hk : k = l
      · subst hk
        by_cases hbase : base.isPrefixOf k = true
        · simp [hbase, hf hbase, Option.filter]
        · simp [hbase]
      · simp [hk]
  rw [hkeep t', hkeep t, h.files_eq]
  rfl

end Gains

/-! ### Writing a file -/

theorem writeText_ok {text : String} (h : t.writeText p text = .ok t') :
    ∃ l, t.locate p = .ok l ∧ namesDirectory p = false ∧ t.get? l ≠ some .directory ∧
      t' = t.put l (.file (.text text)) := by
  unfold writeText at h
  cases hl : t.locate (dropSlashes p) with
  | error e => rw [hl] at h; cases h
  | ok l =>
    rw [hl] at h
    simp only at h
    split at h
    · cases h
    · rename_i hname
      rw [Bool.not_eq_true] at hname
      rw [dropSlashes_of_not_namesDirectory hname] at hl
      split at h
      · cases h
      · rename_i hdir
        exact ⟨l, hl, hname, fun hd => hdir hd, (Except.ok.inj h).symm⟩

/-- A path that could be that of a file leads to its place from a directory. -/
theorem isDirectory_parent (h : t.locate p = .ok l) (hname : namesDirectory p = false) :
    (Path.parent? p).getD "" = "" ∨ t.isDirectory ((Path.parent? p).getD "") = true := by
  obtain ⟨before, piece, hsplit, hidle⟩ : ∃ before piece,
      Path.splitSlash p.toList = before ++ [piece] ∧ Path.isIdle piece = false := by
    unfold namesDirectory at hname
    split at hname
    · rename_i piece hlast
      obtain ⟨before, hsplit⟩ := List.getLast?_eq_some_iff.mp hlast
      exact ⟨before, piece, hsplit, (Bool.or_eq_false_iff.mp hname).1⟩
    · cases hname
  rw [locate_of_ne (ne_empty_of_locate h), hsplit, followAll_append] at h
  cases hbefore : t.followAll (t.startOf p) before with
  | error e => rw [hbefore] at h; cases h
  | ok d =>
    have hdir : t.get? d = some .directory := by
      rw [hbefore] at h
      cases hstep : t.follow d piece with
      | error e => simp only [followAll, hstep] at h; cases h
      | ok m => exact (follow_ok hstep).1
    cases hparent : Path.parent? p with
    | none => exact .inl rfl
    | some q =>
      rw [Option.getD_some]
      refine or_iff_not_imp_left.mpr fun hq => ?_
      obtain ⟨habsolute, hmoves⟩ := Path.moves_parent? hparent
      have hlast : [piece].filter (!Path.isIdle ·) = [piece] := List.filter_cons_of_pos (by simp [hidle])
      rw [Path.moves, Path.moves, hsplit, List.filter_append, hlast, List.dropLast_concat] at hmoves
      have hlead : t.Leads q d := by
        rw [Leads, startOf, habsolute, Path.moves, hmoves]
        exact followAll_filter hbefore
      exact isDirectory_iff.mpr ⟨d, hlead.locate hdir hq, hdir⟩

/-- Writing the text that a file has changes nothing. -/
theorem writeText_again {text : String} (hl : t.locate p = .ok l) (hname : namesDirectory p = false)
    (htext : t.get? l = some (.file (.text text))) : t.writeText p text = .ok t := by
  have hdir : t.get? l ≠ some .directory := by simp [htext]
  have hne := ne_nil_of_not_directory hdir
  have hput := put_of_get? hne htext
  simp only [writeText, dropSlashes_of_not_namesDirectory hname, hl, hname, htext, hput,
    Bool.false_eq_true, if_false]

end StoryManifest.FileTree
