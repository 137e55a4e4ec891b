import Mathlib.Data.List.DropRight
import StoryManifest.Proofs.Path.Order
import StoryManifest.Proofs.Watch.Run

/-!
What waits after a run of events. Each file that a change which matters was reported of waits once, with
a change that only the reports of this file decide: it is deleted if it was deleted last, created if
nothing but modifications came after it was created last, and modified otherwise. Building anew tells of
each of the files once, in order, and leaves nothing waiting.
-/

namespace StoryManifest.Watch

variable {f : Filter} {w : Pending} {p q : Path} {change : Change} {e : Event} {es : List Event}

/-! ### What is said of a file -/

/-- An event tells of a change to a file that matters. -/
def Event.mentions (f : Filter) (e : Event) (p : Path) : Bool :=
  e.change.isSome && e.paths.any fun q => f.isRelevant q && Path.same q p

/-- The changes to a file that events tell of, in order. -/
def changesOf (f : Filter) (es : List Event) (p : Path) : List Change :=
  (es.filter (·.mentions f p)).filterMap (·.change)

/-- What changes come to. A file that was deleted last is deleted; one that was created last, modifications
apart, is created; any other is modified. -/
def Change.settled (cs : List Change) : Change :=
  if cs.getLast? = some .deleted then .deleted
  else if (cs.rdropWhile (· = .modified)).getLast? = some .created then .created
  else .modified

/-- The files that wait. -/
def Pending.paths (w : Pending) : List Path := w.map Prod.fst

/-- The change of a file that waits. -/
def Pending.change? (w : Pending) (p : Path) : Option Change :=
  (w.find? fun e => Path.same e.1 p).map Prod.snd

/-- No file waits twice. -/
def Pending.Distinct (w : Pending) : Prop := w.paths.Pairwise fun p q => Path.same p q = false

theorem Event.mentions_iff : e.mentions f p = true ↔
    e.change.isSome = true ∧ ∃ q ∈ e.paths, f.isRelevant q = true ∧ Path.same q p = true := by
  simp [mentions]

/-! ### Changes -/

@[simp] theorem Change.after_self (c : Change) : c.after c = c := by
  cases c <;> rfl

@[simp] theorem Change.after_after (b c : Change) : (b.after c).after c = b.after c := by
  cases b <;> cases c <;> rfl

theorem Change.settled_deleted (cs : List Change) : settled (cs ++ [.deleted]) = .deleted := by
  rw [settled, List.getLast?_concat, if_pos rfl]

theorem Change.settled_created (cs : List Change) : settled (cs ++ [.created]) = .created := by
  rw [settled, List.getLast?_concat, if_neg (by decide), List.rdropWhile_concat_neg _ _ _ (by decide),
    List.getLast?_concat, if_pos rfl]

theorem Change.settled_modified (cs : List Change) : settled (cs ++ [.modified]) =
    if (cs.rdropWhile (· = .modified)).getLast? = some .created then .created else .modified := by
  rw [settled, List.getLast?_concat, if_neg (by decide), List.rdropWhile_concat_pos _ _ _ (by decide)]

/-- One more change comes after what those before it come to. -/
theorem Change.settled_concat (cs : List Change) (c : Change) :
    settled (cs ++ [c]) = if cs = [] then c else (settled cs).after c := by
  cases c with
  | deleted => cases hcs : settled cs <;> simp [settled_deleted, after]
  | created => cases hcs : settled cs <;> simp [settled_created, after]
  | modified =>
    rcases List.eq_nil_or_concat' cs with rfl | ⟨bs, b, rfl⟩
    · rfl
    · have hne : bs ++ [b] ≠ [] := by simp
      rw [if_neg hne, settled_modified]
      cases b with
      | deleted =>
        rw [settled_deleted, List.rdropWhile_concat_neg _ _ _ (by decide), List.getLast?_concat]
        rfl
      | created =>
        rw [settled_created, List.rdropWhile_concat_neg _ _ _ (by decide), List.getLast?_concat]
        rfl
      | modified =>
        rw [settled_modified, List.rdropWhile_concat_pos _ _ _ (by decide)]
        split <;> rfl

/-! ### One change -/

theorem Path.same_iff {p q : Path} : Path.same p q = true ↔ Path.steps p = Path.steps q := by
  simp [Path.same]

/-- A change to a file comes after the one that waits for it, if any. -/
theorem Pending.change?_record (c : Change) (p q : Path) : ∀ w : Pending, (w.record c p).change? q =
    if Path.same p q then some (((w.change? q).map (·.after c)).getD c) else w.change? q
  | [] => by by_cases h : Path.same p q = true <;> simp [record, change?, h]
  | (k, earlier) :: w => by
    have ih := change?_record c p q w
    rw [change?] at ih
    rw [record]
    by_cases hkp : Path.same k p = true
    · have hkq : Path.same k q = Path.same p q := by
        rw [Path.same, Path.same, Path.same_iff.mp hkp]
      rw [if_pos hkp]
      by_cases hpq : Path.same p q = true <;> simp [change?, hkq, hpq]
    · rw [if_neg hkp]
      by_cases hkq : Path.same k q = true
      · have hpq : ¬Path.same p q = true := fun h =>
          hkp (Path.same_iff.mpr ((Path.same_iff.mp hkq).trans (Path.same_iff.mp h).symm))
        simp [change?, hkq, hpq]
      · simpa [change?, hkq] using ih

/-- A change adds at most its own file, and that only if it does not wait yet. -/
theorem Pending.paths_record (c : Change) (p : Path) : ∀ w : Pending, (w.record c p).paths =
    if ∃ k ∈ w.paths, Path.same k p = true then w.paths else w.paths ++ [p]
  | [] => by simp [record, paths]
  | (k, earlier) :: w => by
    have ih := paths_record c p w
    rw [record]
    by_cases hkp : Path.same k p = true
    · simp [paths, hkp]
    · rw [if_neg hkp]
      show k :: Pending.paths (Pending.record c p w) = _
      rw [ih]
      by_cases hw : ∃ k ∈ Pending.paths w, Path.same k p = true
      · rw [if_pos hw, if_pos (by simpa [paths, hkp] using hw)]
        rfl
      · rw [if_neg hw, if_neg (by simpa [paths, hkp] using hw)]
        rfl

theorem Pending.Distinct.record (h : w.Distinct) (c : Change) (p : Path) : (w.record c p).Distinct := by
  rw [Distinct, paths_record]
  split
  · exact h
  · rename_i hnew
    refine List.pairwise_append.mpr ⟨h, List.pairwise_singleton _ _, fun k hk q hq => ?_⟩
    rw [List.mem_singleton.mp hq]
    exact Bool.eq_false_iff.mpr fun hkp => hnew ⟨k, hk, hkp⟩

/-- In what waits once, a file has the change that is found for it. -/
theorem Pending.Distinct.change?_of_mem : ∀ {w : Pending}, w.Distinct → ∀ {e : Path × Change}, e ∈ w →
    w.change? e.1 = some e.2
  | (k, c) :: w, h, e, he => by
    obtain ⟨hk, hw⟩ := List.pairwise_cons.mp h
    rcases List.mem_cons.mp he with rfl | he
    · simp [change?, Path.same]
    · have hke : Path.same k e.1 = false := hk e.1 (List.mem_map_of_mem he)
      have hfind := Distinct.change?_of_mem (w := w) hw he
      simpa [change?, hke] using hfind

/-! ### One event -/

theorem Pending.change?_recordAll (c : Change) (q : Path) : ∀ (ps : List Path) (w : Pending),
    (ps.foldl (fun w p => w.record c p) w).change? q =
      if ∃ p ∈ ps, Path.same p q = true then some (((w.change? q).map (·.after c)).getD c) else w.change? q
  | [], w => by simp
  | p :: ps, w => by
    rw [List.foldl_cons, change?_recordAll c q ps, change?_record]
    by_cases hp : Path.same p q = true
    · cases w.change? q <;> simp [hp]
    · simp [hp]

theorem Pending.Distinct.recordAll (c : Change) : ∀ (ps : List Path) {w : Pending}, w.Distinct →
    (ps.foldl (fun w p => w.record c p) w).Distinct
  | [], _, h => h
  | p :: ps, _, h => recordAll c ps (h.record c p)

theorem Pending.mem_paths_recordAll (c : Change) {k : Path} : ∀ (ps : List Path) {w : Pending},
    k ∈ (ps.foldl (fun w p => w.record c p) w).paths → k ∈ w.paths ∨ k ∈ ps
  | [], _, h => .inl h
  | p :: ps, w, h => by
    rcases mem_paths_recordAll c ps h with h | h
    · rw [paths_record] at h
      split at h
      · exact .inl h
      · rcases List.mem_append.mp h with h | h
        · exact .inl h
        · exact .inr (List.mem_singleton.mp h ▸ List.mem_cons_self)
    · exact .inr (List.mem_cons_of_mem _ h)

/-- An event changes what waits for the files that it mentions, and for no other ones. -/
theorem Pending.change?_add (f : Filter) (w : Pending) (e : Event) (q : Path) : (w.add f e).change? q =
    if e.mentions f q then e.change.map fun c =>
      ((w.change? q).map (·.after c)).getD c else w.change? q := by
  rw [add]
  cases hchange : e.change with
  | none => simp [Event.mentions, hchange]
  | some c =>
    have hiff : (∃ p ∈ e.paths.filter f.isRelevant, Path.same p q = true) ↔ e.mentions f q = true := by
      simp [Event.mentions, hchange, and_assoc]
    simp only [change?_recordAll, hiff, Option.map_some]

/-! ### Runs -/

/-- What waits is what events told of. -/
structure Pending.Collects (f : Filter) (es : List Event) (w : Pending) : Prop where
  distinct : w.Distinct
  told : ∀ k ∈ w.paths, f.isRelevant k = true ∧ ∃ e ∈ es, e.change.isSome = true ∧ k ∈ e.paths
  change?_eq : ∀ q, w.change? q =
    if changesOf f es q = [] then none else some (Change.settled (changesOf f es q))

theorem changesOf_concat (f : Filter) (es : List Event) (e : Event) (q : Path) : changesOf f (es ++ [e]) q =
    if e.mentions f q then changesOf f es q ++ e.change.toList else changesOf f es q := by
  rw [changesOf, List.filter_append, List.filterMap_append]
  by_cases h : e.mentions f q = true
  · cases hchange : e.change <;> simp [changesOf, h, hchange]
  · simp [changesOf, h]

/-- One more event is told of too. -/
theorem Pending.Collects.add (h : w.Collects f es) (e : Event) : (w.add f e).Collects f (es ++ [e]) where
  distinct := by
    rw [Pending.add]
    cases e.change with
    | none => exact h.distinct
    | some c => exact h.distinct.recordAll c _
  told := by
    intro k hk
    have hearlier (hk : k ∈ w.paths) :
        f.isRelevant k = true ∧ ∃ e' ∈ es ++ [e], e'.change.isSome = true ∧ k ∈ e'.paths := by
      obtain ⟨hrelevant, e', he', htold⟩ := h.told k hk
      exact ⟨hrelevant, e', List.mem_append_left _ he', htold⟩
    rw [Pending.add] at hk
    cases hchange : e.change with
    | none => exact hearlier (by simpa [hchange] using hk)
    | some c =>
      rw [hchange] at hk
      rcases mem_paths_recordAll c _ hk with hk | hk
      · exact hearlier hk
      · obtain ⟨hmem, hrelevant⟩ := List.mem_filter.mp hk
        exact ⟨hrelevant, e, by simp, by simp [hchange], hmem⟩
  change?_eq := by
    intro q
    rw [change?_add, changesOf_concat, h.change?_eq]
    by_cases hmentions : e.mentions f q = true
    · obtain ⟨c, hc⟩ := Option.isSome_iff_exists.mp (Event.mentions_iff.mp hmentions).1
      have hne : changesOf f es q ++ [c] ≠ [] := by simp
      rw [if_pos hmentions, if_pos hmentions, hc, Option.toList_some, if_neg hne, Change.settled_concat]
      split <;> rfl
    · rw [if_neg hmentions, if_neg hmentions]

theorem collects_foldl_add (f : Filter) (es : List Event) : (es.foldl (Pending.add f) []).Collects f es := by
  induction es using List.reverseRecOn with
  | nil => exact ⟨List.Pairwise.nil, fun _ hk => absurd hk List.not_mem_nil, fun _ => rfl⟩
  | append_singleton es e ih =>
    rw [List.foldl_concat]
    exact ih.add e

/-- The files that wait are those that events mention. -/
theorem Pending.Collects.exists_paths_iff (h : w.Collects f es) (p : Path) :
    (∃ k ∈ w.paths, Path.same k p = true) ↔ ∃ e ∈ es, e.mentions f p = true := by
  have hwaits : (∃ k ∈ w.paths, Path.same k p = true) ↔ w.change? p ≠ none := by
    simp [change?, paths]
  have hmentioned : (∃ e ∈ es, e.mentions f p = true) ↔ changesOf f es p ≠ [] := by
    rw [changesOf, ne_eq, List.filterMap_eq_nil_iff]
    push Not
    constructor
    · rintro ⟨e, he, hmentions⟩
      refine ⟨e, List.mem_filter.mpr ⟨he, hmentions⟩, ?_⟩
      exact Option.isSome_iff_ne_none.mp (Event.mentions_iff.mp hmentions).1
    · rintro ⟨e, he, -⟩
      exact ⟨e, List.mem_filter.mp he⟩
  rw [hwaits, hmentioned, h.change?_eq]
  by_cases hnone : changesOf f es p = [] <;> simp [hnone]

/-- An event that matters is one that mentions a file. -/
theorem Event.matters_iff : e.matters f = true ↔ ∃ p, e.mentions f p = true := by
  simp only [matters, mentions_iff, Bool.and_eq_true, List.any_eq_true]
  constructor
  · rintro ⟨hchange, p, hp, hrelevant⟩
    exact ⟨p, hchange, p, hp, hrelevant, by simp [Path.same]⟩
  · rintro ⟨-, hchange, p, hp, hrelevant, -⟩
    exact ⟨hchange, p, hp, hrelevant⟩

/-- An event matters when something waits after it, though nothing did before. -/
theorem Event.matters_iff_add_ne_nil : e.matters f = true ↔ Pending.add f [] e ≠ [] := by
  have hcollects : (Pending.add f [] e).Collects f [e] := collects_foldl_add f [e]
  rw [matters_iff, ne_eq, ← List.map_eq_nil_iff (f := Prod.fst), ← ne_eq, List.ne_nil_iff_exists_cons]
  constructor
  · rintro ⟨p, hp⟩
    obtain ⟨k, hk, -⟩ := (hcollects.exists_paths_iff p).mpr ⟨e, by simp, hp⟩
    exact List.ne_nil_iff_exists_cons.mp (List.ne_nil_of_mem hk)
  · rintro ⟨k, ks, hks⟩
    have hk : k ∈ (Pending.add f [] e).paths := by rw [Pending.paths, hks]; exact List.mem_cons_self
    obtain ⟨e', he', hmentions⟩ := (hcollects.exists_paths_iff k).mp ⟨k, hk, by simp [Path.same]⟩
    exact ⟨k, List.mem_singleton.mp he' ▸ hmentions⟩

/-- What waits is told of in order, each file once. -/
theorem Pending.Distinct.pairwise_sorted (h : w.Distinct) :
    w.sorted.Pairwise fun a b => Path.le a.1 b.1 = true ∧ Path.same a.1 b.1 = false := by
  have hsorted : w.sorted.Pairwise fun a b => Path.le a.1 b.1 = true :=
    @List.pairwise_mergeSort (Path × Change) (fun a b => Path.le a.1 b.1) (fun _ _ _ => Path.le_trans)
      (fun a b => Path.le_total a.1 b.1) w
  have hdistinct : w.sorted.Pairwise fun a b => Path.same a.1 b.1 = false := by
    refine ((List.mergeSort_perm w _).pairwise_iff fun {a b} hab => ?_).mpr (List.pairwise_map.mp h)
    rw [← hab, Path.same, Path.same, decide_eq_decide]
    exact eq_comm
  exact hsorted.and hdistinct

theorem printed_rebuild (t : FileTree) (root : Path) (o : CommandLine.CommonOptions) (w : Pending) :
    (rebuild t root o w).printed = String.join (w.sorted.map fun e => changeLine root e.1 e.2) ++
      (Command.generate t root false false o).printed := rfl

/-- What waits after a run of events. The files that wait are those with a change that matters, each
of them once; what waits for a file is what the changes to it come to, in the order of the events
that mention it, and events that do not mention it make no difference. An event matters when it
tells of a change and names a file that matters, that is, when it leaves something waiting where
nothing was. Building anew tells of each file that waits once, in the order of the paths, and leaves
nothing waiting. -/
theorem events_coalesced (s : Session) (es : List Event) :
    let w := es.foldl (Pending.add s.filter) []
    let waiting : Session := { s with pending := w }
    (∀ p, (∃ k ∈ w.paths, Path.same k p = true) ↔ ∃ e ∈ es, e.mentions s.filter p = true) ∧
    (∀ k ∈ w.paths, s.filter.isRelevant k = true ∧ ∃ e ∈ es, e.change.isSome = true ∧ k ∈ e.paths) ∧
    w.Distinct ∧
    (∀ e ∈ w, e.2 = Change.settled (changesOf s.filter es e.1)) ∧
    (∀ p, w.change? p = ((es.filter (·.mentions s.filter p)).foldl (Pending.add s.filter) []).change? p) ∧
    (∀ e : Event, (e.matters s.filter = true ↔
        e.change.isSome = true ∧ ∃ p ∈ e.paths, s.filter.isRelevant p = true) ∧
      (e.matters s.filter = true ↔ Pending.add s.filter [] e ≠ [])) ∧
    (∃ told : Pending, told.Perm w ∧
      told.Pairwise (fun a b => Path.le a.1 b.1 = true ∧ Path.same a.1 b.1 = false) ∧
      waiting.rebuild.printed = String.join (told.map fun e => changeLine s.root e.1 e.2) ++
        (Command.generate s.tree s.root false false s.options).printed) ∧
    waiting.rebuilt.pending = [] := by
  intro w waiting
  have hcollects : w.Collects s.filter es := collects_foldl_add s.filter es
  refine ⟨hcollects.exists_paths_iff, hcollects.told, hcollects.distinct, fun e he => ?_, fun p => ?_,
    fun e => ?_,
    ⟨w.sorted, List.mergeSort_perm _ _, hcollects.distinct.pairwise_sorted, printed_rebuild ..⟩, rfl⟩
  · have hchange := hcollects.change?_eq e.1
    rw [hcollects.distinct.change?_of_mem he] at hchange
    split at hchange
    · cases hchange
    · exact Option.some.inj hchange
  · have hsame : changesOf s.filter (es.filter (·.mentions s.filter p)) p = changesOf s.filter es p := by
      rw [changesOf, changesOf, List.filter_filter]
      simp only [Bool.and_self]
    rw [hcollects.change?_eq, (collects_foldl_add s.filter _).change?_eq, hsame]
  · exact ⟨by simp [Event.matters], Event.matters_iff_add_ne_nil⟩

/-- A component is made anew under two spellings of its path, while its directory goes and
settings change. -/
def tagEvents : List Event :=
  [⟨some .deleted, ["/app/components/Tag/Tag.tsx", "/app/components/Tag", "/app/notes.txt"]⟩,
    ⟨some .created, ["/app/components/Tag//Tag.tsx"]⟩, ⟨none, ["/app/prefab.toml"]⟩,
    ⟨some .modified, ["/app/components/Tag/Tag.tsx", "/app/prefab.toml", "/app/components/Tag/Tag.tsx"]⟩]

theorem events_coalesced_tagEvents :
    let w := tagEvents.foldl (Pending.add bareWatch.filter) []
    w = [("/app/components/Tag/Tag.tsx", .created), ("/app/components/Tag", .deleted),
      ("/app/prefab.toml", .modified)] ∧
    Change.settled (changesOf bareWatch.filter tagEvents "/app/components/Tag/Tag.tsx") = .created ∧
    (⟨some .deleted, ["/app/notes.txt"]⟩ : Event).matters bareWatch.filter = false ∧
    ∃ told : Pending, told.Perm w ∧
      told.Pairwise (fun a b => Path.le a.1 b.1 = true ∧ Path.same a.1 b.1 = false) ∧
      ({ bareWatch with pending := w } : Session).rebuild.printed =
        String.join (told.map fun e => changeLine bareWatch.root e.1 e.2) ++
          (Command.generate bareWatch.tree bareWatch.root false false bareWatch.options).printed := by
  intro w
  have hw : w = [("/app/components/Tag/Tag.tsx", .created), ("/app/components/Tag", .deleted),
      ("/app/prefab.toml", .modified)] := by decide +kernel
  obtain ⟨-, -, -, hsettled, -, hmatters, htold, -⟩ := events_coalesced bareWatch tagEvents
  refine ⟨hw, (hsettled ("/app/components/Tag/Tag.tsx", .created) ?_).symm, ?_, htold⟩
  · show _ ∈ w
    rw [hw]
    exact List.mem_cons_self
  · rw [Bool.eq_false_iff, ne_eq, (hmatters _).1]
    decide +kernel

end StoryManifest.Watch
