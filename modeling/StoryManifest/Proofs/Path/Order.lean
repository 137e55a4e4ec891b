import Mathlib.Data.List.Sort
import StoryManifest.Path

/-!
The order of paths. It is the order of their rows of steps, so only paths with the same steps stand at
the same place, and sorting depends on which paths there are alone.
-/

namespace StoryManifest.Path

variable {p q : Path} {ps qs : List Path}

/-- The text by which steps of one kind are ordered. -/
def Step.sortText : Step → String
  | .name text => text
  | _ => ""

theorem Step.compare_eq : Step.compare = compareLex (compareOn rank) (compareOn sortText) := by
  funext a b
  cases a <;> cases b <;> simp [Step.compare, compareLex, compareOn, rank, sortText] <;> rfl

instance : Std.TransCmp Step.compare := Step.compare_eq ▸ inferInstance

instance : Std.LawfulEqCmp Step.compare where
  eq_of_compare {a b} h := by
    cases a <;> cases b <;> simp_all [Step.compare, Step.rank]

theorem compareSteps_eq : compareSteps = List.compareLex Step.compare := by
  funext as bs
  induction as generalizing bs with
  | nil => cases bs <;> rfl
  | cons a as ih =>
    cases bs with
    | nil => rfl
    | cons b bs =>
      rw [compareSteps, List.compareLex_cons_cons, ih]

instance : Std.TransCmp compareSteps := compareSteps_eq ▸ inferInstance

instance : Std.LawfulEqCmp compareSteps := compareSteps_eq ▸ inferInstance

theorem le_trans {r : Path} (h : le p q = true) (h' : le q r = true) : le p r = true :=
  Std.TransCmp.isLE_trans h h'

theorem le_total (p q : Path) : (le p q || le q p) = true := by
  have hswap : compareSteps (steps q) (steps p) = (compareSteps (steps p) (steps q)).swap :=
    Std.OrientedCmp.eq_swap
  rw [le, le, hswap]
  cases compareSteps (steps p) (steps q) <;> rfl

theorem le_antisymm (h : le p q = true) (h' : le q p = true) : steps p = steps q :=
  Std.LawfulEqCmp.eq_of_compare (Std.OrientedCmp.isLE_antisymm h h')

theorem pairwise_sort (ps : List Path) : (sort ps).Pairwise (le · · = true) :=
  @List.pairwise_mergeSort Path le (fun _ _ _ => le_trans) le_total ps

theorem mem_sort : p ∈ sort ps ↔ p ∈ ps := List.mem_mergeSort

/-- Rows of paths in order with the same paths are one row, where none has the steps of another. -/
theorem eq_of_perm (h : ps.Perm qs) (hps : ps.Pairwise (le · · = true)) (hqs : qs.Pairwise (le · · = true))
    (hsteps : ∀ p ∈ ps, ∀ q ∈ ps, steps p = steps q → p = q) : ps = qs :=
  h.eq_of_pairwise (fun p q hp hq hpq hqp => hsteps p hp q (h.mem_iff.mpr hq) (le_antisymm hpq hqp)) hps hqs

/-- Sorting does not depend on the order in which paths come, where none has the steps of another. -/
theorem sort_eq_of_perm (h : ps.Perm qs) (hsteps : ∀ p ∈ ps, ∀ q ∈ ps, steps p = steps q → p = q) :
    sort ps = sort qs :=
  eq_of_perm ((List.mergeSort_perm ps le).trans (h.trans (List.mergeSort_perm qs le).symm))
    (pairwise_sort ps) (pairwise_sort qs) fun p hp q hq => hsteps p (mem_sort.mp hp) q (mem_sort.mp hq)

end StoryManifest.Path
