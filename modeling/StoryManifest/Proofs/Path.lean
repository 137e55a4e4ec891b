import Mathlib.Data.List.Induction
import StoryManifest.Path

/-!
Which moves a path makes. Slashes at the end, repeated slashes and single dots move nowhere, so a path
and its tidy form make the same moves; a path inside a directory makes one move more, and the path of
what it is in makes one less.
-/

namespace StoryManifest.Path

/-- A text that names something in a directory. -/
structure IsName (name : String) : Prop where
  noSlash : '/' ∉ name.toList
  notIdle : isIdle name.toList = false
  notUp : name.toList ≠ ['.', '.']

instance (name : String) : Decidable (IsName name) :=
  decidable_of_iff
    ('/' ∉ name.toList ∧ isIdle name.toList = false ∧ name.toList ≠ ['.', '.'])
    ⟨fun ⟨h, h', h''⟩ => ⟨h, h', h''⟩, fun ⟨h, h', h''⟩ => ⟨h, h', h''⟩⟩

/-- The pieces of a path that move somewhere. -/
def moves (p : Path) : List (List Char) := (splitSlash p.toList).filter (!isIdle ·)

/-! ### Pieces -/

theorem splitSlash_nil : splitSlash [] = [[]] := rfl

theorem splitSlash_slash (cs : List Char) : splitSlash ('/' :: cs) = [] :: splitSlash cs := rfl

theorem splitSlash_ne_nil : ∀ cs : List Char, splitSlash cs ≠ []
  | [] => by simp [splitSlash_nil]
  | c :: cs => by
    rw [splitSlash]
    split
    · simp
    · split <;> simp

theorem splitSlash_cons_of_ne {c : Char} {cs piece : List Char} {pieces : List (List Char)}
    (hc : c ≠ '/') (h : splitSlash cs = piece :: pieces) :
    splitSlash (c :: cs) = (c :: piece) :: pieces := by
  rw [splitSlash, if_neg hc, h]

theorem splitSlash_cons {c : Char} (hc : c ≠ '/') (cs : List Char) : ∃ piece pieces,
    splitSlash cs = piece :: pieces ∧ splitSlash (c :: cs) = (c :: piece) :: pieces := by
  obtain ⟨piece, pieces, h⟩ := List.exists_cons_of_ne_nil (splitSlash_ne_nil cs)
  exact ⟨piece, pieces, h, splitSlash_cons_of_ne hc h⟩

theorem splitSlash_append : ∀ cs ds : List Char,
    splitSlash (cs ++ '/' :: ds) = splitSlash cs ++ splitSlash ds
  | [], ds => by simp [splitSlash_nil, splitSlash_slash]
  | c :: cs, ds => by
    have ih := splitSlash_append cs ds
    by_cases hc : c = '/'
    · simp [splitSlash_slash, hc, ih]
    · obtain ⟨piece, pieces, h, hcons⟩ := splitSlash_cons hc cs
      rw [h, List.cons_append] at ih
      rw [List.cons_append, splitSlash_cons_of_ne hc ih, hcons, List.cons_append]

theorem splitSlash_of_noSlash : ∀ {cs : List Char}, '/' ∉ cs → splitSlash cs = [cs]
  | [], _ => rfl
  | c :: cs, h => by
    rw [List.mem_cons, not_or] at h
    exact splitSlash_cons_of_ne (fun h' => h.1 h'.symm) (splitSlash_of_noSlash h.2)

theorem noSlash_of_mem_splitSlash : ∀ {cs piece : List Char}, piece ∈ splitSlash cs → '/' ∉ piece
  | [], piece, h => by
    obtain rfl := List.mem_singleton.mp h
    simp
  | c :: cs, piece, h => by
    by_cases hc : c = '/'
    · rw [hc, splitSlash_slash] at h
      rcases List.mem_cons.mp h with rfl | h
      · simp
      · exact noSlash_of_mem_splitSlash h
    · obtain ⟨first, pieces, hs, hcons⟩ := splitSlash_cons hc cs
      rw [hcons] at h
      rcases List.mem_cons.mp h with rfl | h
      · have hfirst : '/' ∉ first := noSlash_of_mem_splitSlash (hs ▸ List.mem_cons_self)
        simp only [List.mem_cons, not_or]
        exact ⟨fun h' => hc h'.symm, hfirst⟩
      · exact noSlash_of_mem_splitSlash (hs ▸ List.mem_cons_of_mem _ h)

/-- Splitting undoes putting slashes between pieces. -/
theorem splitSlash_intercalate : ∀ {piece : List Char} {pieces : List (List Char)},
    (∀ q ∈ piece :: pieces, '/' ∉ q) →
    splitSlash (List.intercalate ['/'] (piece :: pieces)) = piece :: pieces
  | piece, [], h => by
    simpa [List.intercalate] using splitSlash_of_noSlash (h piece (by simp))
  | piece, second :: pieces, h => by
    have ih := splitSlash_intercalate fun q hq => h q (List.mem_cons_of_mem _ hq)
    have hpiece := splitSlash_of_noSlash (h piece (by simp))
    rw [List.intercalate_cons_cons, List.append_assoc, List.singleton_append, splitSlash_append, ih,
      hpiece]
    rfl

theorem isAbsolute_iff (p : Path) : isAbsolute p = true ↔ ∃ piece pieces,
    splitSlash p.toList = [] :: piece :: pieces := by
  unfold isAbsolute
  cases p.toList with
  | nil => simp [splitSlash_nil]
  | cons c cs =>
    obtain ⟨piece, pieces, h⟩ := List.exists_cons_of_ne_nil (splitSlash_ne_nil cs)
    by_cases hc : c = '/'
    · simp [splitSlash_slash, hc, h]
    · simp [splitSlash_cons_of_ne hc h, hc]

/-! ### Paths with the same moves -/

/-- Both paths make the same moves from the same start. -/
structure SameMoves (p q : Path) : Prop where
  moves_eq : moves p = moves q
  isAbsolute_eq : isAbsolute p = isAbsolute q

theorem SameMoves.trans {p q r : Path} (h : SameMoves p q) (h' : SameMoves q r) : SameMoves p r :=
  ⟨h.moves_eq.trans h'.moves_eq, h.isAbsolute_eq.trans h'.isAbsolute_eq⟩

theorem filter_dropWhile_idle {d : List Char → Bool} (hd : ∀ q, d q = true → isIdle q = true) :
    ∀ ps : List (List Char), (ps.dropWhile d).filter (!isIdle ·) = ps.filter (!isIdle ·)
  | [] => rfl
  | q :: ps => by
    by_cases h : d q = true
    · rw [List.dropWhile_cons_of_pos h, filter_dropWhile_idle hd ps,
        List.filter_cons_of_neg (by simp [hd q h])]
    · rw [List.dropWhile_cons_of_neg h]

theorem filter_trimPieces : ∀ ps : List (List Char),
    (trimPieces ps).filter (!isIdle ·) = ps.filter (!isIdle ·)
  | [] => rfl
  | q :: ps => by
    have h := filter_dropWhile_idle (fun _ h => h) ps.reverse
    simp only [List.filter_reverse] at h
    rw [trimPieces, List.filter_cons, List.filter_cons, List.filter_reverse, h, List.reverse_reverse]

theorem trimPieces_concat {name : List Char} (hname : isIdle name = false) (ps : List (List Char)) :
    trimPieces (ps ++ [name]) = ps ++ [name] := by
  cases ps with
  | nil => rfl
  | cons q ps =>
    simp [trimPieces, List.dropWhile_cons_of_neg (p := isIdle) (a := name) (by simp [hname])]

theorem mem_of_mem_trimPieces {piece : List Char} : ∀ {ps : List (List Char)}, piece ∈ trimPieces ps →
    piece ∈ ps
  | q :: ps, h => by
    rcases List.mem_cons.mp h with rfl | h
    · exact List.mem_cons_self
    · rw [List.mem_reverse] at h
      exact List.mem_cons_of_mem _ (List.mem_reverse.mp (List.dropWhile_subset _ h))

/-- After the first one, pieces are left up to one that counts, if there is one. -/
theorem trimPieces_cons (q : List Char) (ps : List (List Char)) : trimPieces (q :: ps) = [q] ∨
    ∃ before name, isIdle name = false ∧ trimPieces (q :: ps) = q :: (before ++ [name]) := by
  have hlast := List.head?_dropWhile_not isIdle ps.reverse
  cases hleft : ps.reverse.dropWhile isIdle with
  | nil => simp [trimPieces, hleft]
  | cons name before =>
    rw [hleft] at hlast
    exact .inr ⟨before.reverse, name, by simpa using hlast, by simp [trimPieces, hleft]⟩

section

variable {q : List Char} {qs : List (List Char)}

/-- A path that is put together from pieces is split into them, but for a single empty one. -/
theorem splitSlash_joinPieces (hslash : ∀ r ∈ q :: qs, '/' ∉ r) (hroot : q :: qs ≠ [[]]) :
    splitSlash (joinPieces (q :: qs)).toList = q :: qs := by
  rw [joinPieces, if_neg hroot, String.toList_ofList, splitSlash_intercalate hslash]

theorem moves_joinPieces (hslash : ∀ r ∈ q :: qs, '/' ∉ r) :
    moves (joinPieces (q :: qs)) = (q :: qs).filter (!isIdle ·) := by
  by_cases hroot : q :: qs = [[]]
  · rw [hroot]
    rfl
  · rw [moves, splitSlash_joinPieces hslash hroot]

theorem isAbsolute_joinPieces (hslash : ∀ r ∈ q :: qs, '/' ∉ r) :
    isAbsolute (joinPieces (q :: qs)) = true ↔ q = [] := by
  by_cases hroot : q :: qs = [[]]
  · obtain ⟨rfl, rfl⟩ := List.cons.inj hroot
    simp [joinPieces, isAbsolute]
  · rw [isAbsolute_iff, splitSlash_joinPieces hslash hroot]
    constructor
    · rintro ⟨piece, pieces, h⟩
      exact (List.cons.inj h).1
    · rintro rfl
      cases qs with
      | nil => exact absurd rfl hroot
      | cons r rs => exact ⟨r, rs, rfl⟩

end

/-- The path of what a path is in starts where that one starts, and makes one move less. -/
theorem moves_parent? {p q : Path} (h : parent? p = some q) :
    isAbsolute q = isAbsolute p ∧ moves q = (moves p).dropLast := by
  obtain ⟨first, rest, hsplit⟩ := List.exists_cons_of_ne_nil (splitSlash_ne_nil p.toList)
  have habsolute : isAbsolute p = true ↔ first = [] ∧ rest ≠ [] := by
    rw [isAbsolute_iff, hsplit]
    cases rest <;> simp
  have hmoves : moves p = (trimPieces (first :: rest)).filter (!isIdle ·) := by
    rw [moves, hsplit, filter_trimPieces]
  rw [parent?, hsplit] at h
  rcases trimPieces_cons first rest with hone | ⟨before, name, hname, hmore⟩
  · -- Nothing counts but the first piece, and only an empty path is around that.
    rw [hone] at h hmoves
    simp only at h
    split at h
    · cases h
    · rename_i hfirst
      obtain rfl := Option.some.inj h
      have hrelative : isAbsolute p = false := by
        rw [← Bool.not_eq_true, habsolute]
        exact fun h => hfirst h.1
      refine ⟨hrelative.symm, ?_⟩
      rw [hmoves, List.filter_cons]
      split <;> rfl
  · have hrest : rest ≠ [] := by
      rintro rfl
      simp [trimPieces] at hmore
    have hslash : ∀ r ∈ trimPieces (first :: before), '/' ∉ r := by
      intro r hr
      have hmem : r ∈ trimPieces (first :: rest) := by
        rw [hmore, ← List.cons_append]
        exact List.mem_append_left _ (mem_of_mem_trimPieces hr)
      exact noSlash_of_mem_splitSlash (hsplit ▸ mem_of_mem_trimPieces hmem)
    have hdrop : (first :: (before ++ [name])).dropLast = first :: before := by
      rw [← List.cons_append, List.dropLast_concat]
    obtain ⟨second, others, hothers⟩ : ∃ second others, before ++ [name] = second :: others :=
      List.exists_cons_of_ne_nil (by simp)
    rw [hmore, hothers] at h
    obtain rfl := Option.some.inj h
    rw [← hothers, hdrop]
    refine ⟨?_, ?_⟩
    · rw [Bool.eq_iff_iff, habsolute, trimPieces, isAbsolute_joinPieces hslash]
      simp [hrest]
    · have hlast : [name].filter (!isIdle ·) = [name] := List.filter_cons_of_pos (by simp [hname])
      rw [hmoves, hmore, ← List.cons_append, List.filter_append, hlast, List.dropLast_concat, trimPieces,
        moves_joinPieces hslash]
      exact filter_trimPieces (first :: before)

/-- The tidy form of a path makes the same moves. -/
theorem tidy_sameMoves (p : Path) : SameMoves (tidy p) p := by
  have hmoves : ((splitSlash p.toList).filter (· ≠ [])).filter (!isIdle ·) = moves p := by
    rw [moves, List.filter_filter]
    refine List.filter_congr fun q _ => ?_
    by_cases hq : q = [] <;> simp [isIdle, hq]
  have hslash : ∀ q ∈ (splitSlash p.toList).filter (· ≠ []), q ≠ [] ∧ '/' ∉ q := by
    intro q hq
    rw [List.mem_filter] at hq
    exact ⟨of_decide_eq_true hq.2, noSlash_of_mem_splitSlash hq.1⟩
  unfold tidy
  by_cases habs : isAbsolute p = true
  · simp only [habs, if_true]
    generalize (splitSlash p.toList).filter (· ≠ []) = pieces at hmoves hslash
    refine ⟨?_, by rw [habs]; simp [isAbsolute]⟩
    rw [moves, String.toList_ofList, splitSlash_slash, ← hmoves]
    cases pieces with
    | nil => rfl
    | cons q qs => rw [splitSlash_intercalate fun r hr => (hslash r hr).2]; rfl
  · simp only [habs, Bool.false_eq_true, if_false]
    have hdrop := filter_dropWhile_idle (d := (· = ['.'])) (by simp [isIdle])
      ((splitSlash p.toList).filter (· ≠ []))
    have hmem : ∀ q ∈ ((splitSlash p.toList).filter (· ≠ [])).dropWhile (· = ['.']), q ≠ [] ∧ '/' ∉ q :=
      fun q hq => hslash q (List.dropWhile_subset _ hq)
    rw [hmoves] at hdrop
    generalize ((splitSlash p.toList).filter (· ≠ [])).dropWhile (· = ['.']) = pieces at hdrop hmem
    rw [Bool.not_eq_true] at habs
    cases pieces with
    | nil => exact ⟨by rw [← hdrop]; rfl, by rw [habs]; rfl⟩
    | cons q qs =>
      have hsplit := splitSlash_intercalate fun r hr => (hmem r hr).2
      refine ⟨by rw [moves, String.toList_ofList, hsplit, hdrop], ?_⟩
      rw [habs, ← Bool.not_eq_true, isAbsolute_iff, String.toList_ofList, hsplit]
      rintro ⟨piece, pieces, h⟩
      exact (hmem q (by simp)).1 (List.cons.inj h).1

/-! ### A name inside a directory -/

/-- A path inside another one has the pieces of that one, but for an empty one at the end, and one piece
more. -/
theorem splitSlash_join {name : String} (hname : IsName name) (base : Path) : ∃ ps,
    splitSlash (join base name).toList = ps ++ [name.toList] ∧
      ps.filter (!isIdle ·) = moves base ∧
      (isAbsolute base = true ↔ ∃ qs, ps = [] :: qs) := by
  have hpiece := splitSlash_of_noSlash hname.noSlash
  have hrelative : isAbsolute name = false := by
    rw [← Bool.not_eq_true, isAbsolute_iff, hpiece]
    rintro ⟨piece, pieces, h⟩
    exact List.cons_ne_nil _ _ (List.cons.inj h).2.symm
  by_cases hempty : base = ""
  · subst hempty
    exact ⟨[], by simp [join, hrelative, hpiece], rfl, by simp [isAbsolute]⟩
  · by_cases hslash : base.toList.getLast? = some '/'
    · obtain ⟨cs, hcs⟩ := List.getLast?_eq_some_iff.mp hslash
      have hbase : splitSlash base.toList = splitSlash cs ++ [[]] := by rw [hcs, splitSlash_append]; rfl
      refine ⟨splitSlash cs, ?_, ?_, ?_⟩
      · simp [join, hrelative, hcs, splitSlash_append, hpiece]
      · simp [moves, hbase, isIdle]
      · obtain ⟨q, qs, hq⟩ := List.exists_cons_of_ne_nil (splitSlash_ne_nil cs)
        rw [isAbsolute_iff, hbase, hq]
        cases qs <;> simp
    · refine ⟨splitSlash base.toList, ?_, rfl, ?_⟩
      · simp [join, hrelative, hempty, hslash, splitSlash_append, hpiece]
      · obtain ⟨q, qs, hq⟩ := List.exists_cons_of_ne_nil (splitSlash_ne_nil base.toList)
        rw [isAbsolute_iff, hq]
        constructor
        · rintro ⟨piece, pieces, h⟩
          exact ⟨qs, by rw [(List.cons.inj h).1]⟩
        · rintro ⟨rs, h⟩
          obtain ⟨rfl, rfl⟩ := List.cons.inj h
          cases qs with
          | cons r rs => exact ⟨r, rs, rfl⟩
          | nil =>
            cases hb : base.toList with
            | nil => exact absurd (String.toList_inj.mp (by simpa using hb)) hempty
            | cons c cs =>
              rw [hb] at hq
              by_cases hc : c = '/'
              · simp [splitSlash_slash, hc, splitSlash_ne_nil] at hq
              · obtain ⟨piece, pieces, -, h⟩ := splitSlash_cons hc cs
                cases h.symm.trans hq

theorem isAbsolute_join {name : String} (hname : IsName name) (base : Path) :
    isAbsolute (join base name) = isAbsolute base := by
  obtain ⟨ps, hsplit, -, habs⟩ := splitSlash_join hname base
  rw [Bool.eq_iff_iff, habs, isAbsolute_iff, hsplit]
  have hne : name.toList ≠ [] := fun h => by
    have := hname.notIdle
    simp [isIdle, h] at this
  cases ps with
  | nil => simp [hne]
  | cons q qs => cases qs <;> simp

/-- The path of what a name is in makes the moves of the directory. -/
theorem parent?_join {name : String} (hname : IsName name) (base : Path) :
    ∃ q, parent? (join base name) = some q ∧ SameMoves q base := by
  obtain ⟨ps, hsplit, hmoves, -⟩ := splitSlash_join hname base
  obtain ⟨q, hq⟩ : ∃ q, parent? (join base name) = some q := by
    have hne : name.toList ≠ [] := fun h => by simpa [isIdle, h] using hname.notIdle
    rw [parent?, hsplit, trimPieces_concat hname.notIdle]
    cases ps with
    | nil => simp [hne]
    | cons first rest => cases rest <;> simp
  obtain ⟨habsolute, hbefore⟩ := moves_parent? hq
  have hlast : [name.toList].filter (!isIdle ·) = [name.toList] :=
    List.filter_cons_of_pos (by simp [hname.notIdle])
  refine ⟨q, hq, ?_, habsolute.trans (isAbsolute_join hname base)⟩
  rw [hbefore, moves, hsplit, List.filter_append, hmoves, hlast, List.dropLast_concat]

/-! ### The last name -/

theorem last_of_filterMap {n : String} (ps : List (List Char))
    (h : (ps.filterMap stepOf?).getLast? = some (.name n)) :
    ∃ before, ps.filter (!isIdle ·) = before ++ [n.toList] ∧ n.toList ≠ ['.', '.'] := by
  induction ps using List.reverseRecOn with
  | nil => simp at h
  | append_singleton ps q ih =>
    by_cases hq : isIdle q = true
    · have hstep : stepOf? q = none := by simp [stepOf?, hq]
      simp only [List.filterMap_append, List.filterMap_cons_none hstep, List.filterMap_nil,
        List.append_nil] at h
      obtain ⟨before, hb, hup⟩ := ih h
      exact ⟨before, by simp [List.filter_append, hb, hq], hup⟩
    · have hup : q ≠ ['.', '.'] := by
        rintro rfl
        simp [stepOf?, isIdle] at h
      have hn : n.toList = q := by
        simp only [List.filterMap_append, List.filterMap_cons, List.filterMap_nil, stepOf?, hq, hup,
          Bool.false_eq_true, if_false, List.getLast?_append, List.getLast?_singleton, Option.some_or,
          Option.some.injEq, Step.name.injEq] at h
        rw [← h, String.toList_ofList]
      refine ⟨ps.filter (!isIdle ·), ?_, hn ▸ hup⟩
      simp [List.filter_append, hn, hq]

/-- A path that ends in a name makes its last move to the name. -/
theorem moves_of_fileName? {p : Path} {n : String} (h : fileName? p = some n) :
    ∃ before, moves p = before ++ [n.toList] ∧ n.toList ≠ ['.', '.'] := by
  obtain ⟨q, qs, hq⟩ := List.exists_cons_of_ne_nil (splitSlash_ne_nil p.toList)
  have hlast : (steps p).getLast? = some (.name n) := by
    unfold fileName? at h
    split at h
    · rename_i m hm
      rw [hm, Option.some.inj h]
    · cases h
  have hsteps : (q :: qs).filterMap stepOf? = (stepOf? q).toList ++ qs.filterMap stepOf? := by
    cases hstep : stepOf? q <;> simp [hstep]
  rw [moves, hq]
  refine last_of_filterMap (q :: qs) ?_
  rw [steps, hq, stepsOf, List.getLast?_append] at hlast
  rw [hsteps, List.getLast?_append]
  cases hrest : (qs.filterMap stepOf?).getLast? with
  | some step => rwa [hrest] at hlast
  | none =>
    rw [hrest, Option.none_or] at hlast
    have hfirst : firstStep? q (!qs.isEmpty) = some (.name n) := by
      cases hf : firstStep? q (!qs.isEmpty) <;> simp_all
    have hname : stepOf? q = some (.name n) := by
      unfold firstStep? at hfirst
      split at hfirst
      · split at hfirst <;> cases hfirst
      · split at hfirst
        · cases hfirst
        · exact hfirst
    simp [hname]

theorem isName_of_fileName? {p : Path} {n : String} (h : fileName? p = some n) : IsName n := by
  obtain ⟨before, hb, hup⟩ := moves_of_fileName? h
  have hmem : n.toList ∈ moves p := by simp [hb]
  rw [moves, List.mem_filter] at hmem
  exact ⟨noSlash_of_mem_splitSlash hmem.1, by simpa using hmem.2, hup⟩

/-- A path that moves up has a step that does. -/
theorem up_mem_steps {p : Path} (h : ['.', '.'] ∈ moves p) : .up ∈ steps p := by
  obtain ⟨q, qs, hq⟩ := List.exists_cons_of_ne_nil (splitSlash_ne_nil p.toList)
  rw [moves, List.mem_filter, hq, List.mem_cons] at h
  rw [steps, hq, stepsOf, List.mem_append]
  rcases h.1 with rfl | hmem
  · exact .inl (by simp [firstStep?, stepOf?, isIdle])
  · exact .inr (List.mem_filterMap.mpr ⟨_, hmem, by simp [stepOf?, isIdle]⟩)

end StoryManifest.Path
