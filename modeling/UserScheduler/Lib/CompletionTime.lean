/-
Completion times of jobs that run one after the other.

The sum of the completion times is least when shorter jobs run first.  The
proof moves a shortest job to the front, one exchange at a time.

Nothing here names a particular program.
-/

import Mathlib.Algebra.Order.Monoid.Defs
import Mathlib.Data.List.Perm.Basic

namespace CompletionTime

variable {job time : Type} {work : job → time}

/-- The sum of the completion times of a list of jobs, the first of which
starts at `elapsed`. -/
def totalCompletion [Add time] [Zero time] (work : job → time) : time → List job → time
  | _, [] => 0
  | elapsed, first :: rest =>
      (elapsed + work first) + totalCompletion work (elapsed + work first) rest

variable [AddCommMonoid time] [Preorder time] [IsOrderedAddMonoid time]

theorem totalCompletion_swap {elapsed : time} {first second : job} {rest : List job}
    (shorter : work first ≤ work second) :
    totalCompletion work elapsed (first :: second :: rest) ≤
      totalCompletion work elapsed (second :: first :: rest) := by
  simp only [totalCompletion]
  rw [add_right_comm elapsed (work second) (work first)]
  apply add_le_add_left
  apply add_le_add_right
  exact shorter

theorem totalCompletion_cons_mono {elapsed : time} {first : job} {rest other : List job}
    (less : totalCompletion work (elapsed + work first) rest ≤
      totalCompletion work (elapsed + work first) other) :
    totalCompletion work elapsed (first :: rest) ≤
      totalCompletion work elapsed (first :: other) :=
  add_le_add_right less _

/-- Running a shortest job first never costs anything. -/
theorem totalCompletion_move {elapsed : time} {shortest : job} {before after : List job}
    (least : ∀ other ∈ before, work shortest ≤ work other) :
    totalCompletion work elapsed (shortest :: (before ++ after)) ≤
      totalCompletion work elapsed (before ++ shortest :: after) := by
  induction before generalizing elapsed with
  | nil => exact le_refl _
  | cons first rest ih =>
      calc totalCompletion work elapsed (shortest :: (first :: rest ++ after))
          ≤ totalCompletion work elapsed (first :: shortest :: (rest ++ after)) :=
            totalCompletion_swap (least first List.mem_cons_self)
        _ ≤ totalCompletion work elapsed (first :: (rest ++ shortest :: after)) :=
            totalCompletion_cons_mono
              (ih fun other inRest => least other (List.mem_cons_of_mem first inRest))

/-- Shortest first is best among all orders of the same jobs. -/
theorem totalCompletion_le_of_sorted {elapsed : time} {order other : List job}
    (sorted : order.Pairwise fun first second => work first ≤ work second)
    (isPerm : other.Perm order) :
    totalCompletion work elapsed order ≤ totalCompletion work elapsed other := by
  induction order generalizing elapsed other with
  | nil =>
      rw [isPerm.eq_nil]
  | cons shortest rest ih =>
      obtain ⟨least, sortedRest⟩ := List.pairwise_cons.mp sorted
      have member : shortest ∈ other := isPerm.mem_iff.mpr List.mem_cons_self
      obtain ⟨before, after, rfl⟩ := List.append_of_mem member
      have others : (before ++ after).Perm rest :=
        (List.perm_middle.symm.trans isPerm).cons_inv
      calc totalCompletion work elapsed (shortest :: rest)
          ≤ totalCompletion work elapsed (shortest :: (before ++ after)) :=
            totalCompletion_cons_mono (ih sortedRest others)
        _ ≤ totalCompletion work elapsed (before ++ shortest :: after) :=
            totalCompletion_move fun other inBefore =>
              least other (others.mem_iff.mp (List.mem_append_left after inBefore))

end CompletionTime
