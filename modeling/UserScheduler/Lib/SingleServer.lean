/-
Work on a single server that never idles while there is work.

Jobs are numbered in the order of their arrival.  After job `k` has arrived the
server is busy until `completion (k + 1)` if no further job comes, in whatever
order it serves the jobs.  If it serves them in order, that is also the time at
which job `k` completes.

Nothing here names a particular program.
-/

import Mathlib.Algebra.Order.Monoid.Defs
import Mathlib.Algebra.BigOperators.Group.List.Basic
import Mathlib.Order.MinMax
import Mathlib.Algebra.Group.Hom.Defs

namespace SingleServer

variable {time : Type} [AddCommMonoid time] [LinearOrder time] {arrival work : Nat → time}

/-- When the first so many jobs are done. -/
def completion (arrival work : Nat → time) : Nat → time
  | 0 => 0
  | jobs + 1 => max (completion arrival work jobs) (arrival jobs) + work jobs

/-- When the next job begins, if jobs are served in order. -/
def begins (arrival work : Nat → time) (job : Nat) : time :=
  max (completion arrival work job) (arrival job)

theorem completion_succ (arrival work : Nat → time) (job : Nat) :
    completion arrival work (job + 1) = begins arrival work job + work job := rfl

/-- Another unit of time changes every time alike. -/
theorem completion_map {other : Type} [AddCommMonoid other] [LinearOrder other]
    (convert : time →+ other) (monotone : Monotone convert) (jobs : Nat) :
    completion (fun job => convert (arrival job)) (fun job => convert (work job)) jobs =
      convert (completion arrival work jobs) := by
  induction jobs with
  | zero => exact convert.map_zero.symm
  | succ jobs ih =>
      rw [completion, ih, ← monotone.map_max, ← convert.map_add]
      rfl

section Ordered

variable [IsOrderedAddMonoid time]

theorem begins_le_completion {job : Nat} (nonnegative : 0 ≤ work job) :
    begins arrival work job ≤ completion arrival work (job + 1) :=
  le_add_of_nonneg_right nonnegative

theorem completion_le_succ {job : Nat} (nonnegative : 0 ≤ work job) :
    completion arrival work job ≤ completion arrival work (job + 1) :=
  le_trans (le_max_left _ _) (begins_le_completion nonnegative)

theorem completion_mono (nonnegative : ∀ job, 0 ≤ work job) {fewer more : Nat}
    (le : fewer ≤ more) : completion arrival work fewer ≤ completion arrival work more := by
  induction le with
  | refl => exact le_refl _
  | step _ ih => exact le_trans ih (completion_le_succ (nonnegative _))

theorem arrival_le_completion {job : Nat} (nonnegative : 0 ≤ work job) :
    arrival job ≤ completion arrival work (job + 1) :=
  le_trans (le_max_right _ _) (begins_le_completion nonnegative)

/-- Jobs that arrive together add their work to what is left by then. -/
theorem completion_group (nonnegative : ∀ job, 0 ≤ work job) (first count : Nat) {together : time}
    (same : ∀ job, first ≤ job → job < first + (count + 1) → arrival job = together) :
    completion arrival work (first + (count + 1)) =
      max (completion arrival work first) together +
        ((List.range' first (count + 1)).map work).sum := by
  induction count with
  | zero =>
      rw [Nat.zero_add, completion_succ, begins, same first (Nat.le_refl _) (Nat.lt_succ_self _)]
      simp
  | succ count ih =>
      have earlier := ih fun job lower upper => same job lower (by omega)
      have late : together ≤ completion arrival work (first + (count + 1)) := by
        have arrived := same (first + count) (Nat.le_add_right _ _) (by omega)
        rw [← arrived]
        exact arrival_le_completion (nonnegative _)
      rw [← Nat.add_assoc, completion_succ, begins,
        same (first + (count + 1)) (Nat.le_add_right _ _) (by omega), max_eq_left late, earlier,
        List.range'_1_concat (n := count + 1), List.map_append, List.sum_append, add_assoc]
      simp

end Ordered

end SingleServer
