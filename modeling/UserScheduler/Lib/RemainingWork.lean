/-
Least remaining work first keeps ahead.

Two ways of working on the same jobs are compared by the work outside a set of
jobs.  One is ahead of the other if, whatever jobs the other leaves aside, it
can leave aside no more jobs and has no more work in the rest.  A unit of
service keeps this if the one that is ahead serves a job with least work; the
other may serve what it likes.  New jobs keep it as well.  In the end only the
unfinished jobs are counted.

Nothing here names a particular program.
-/

import Mathlib.Algebra.BigOperators.Group.Finset.Piecewise
import Mathlib.Algebra.Order.BigOperators.Group.Finset

namespace RemainingWork

variable {job : Type} [DecidableEq job] {jobs removed : Finset job} {left other : job → Int}

/-- The work in the jobs that are not left aside. -/
def outside (jobs : Finset job) (left : job → Int) (removed : Finset job) : Int :=
  ∑ item ∈ jobs \ removed, left item

def Ahead (jobs : Finset job) (left other : job → Int) : Prop :=
  ∀ removed, ∃ fewer : Finset job, fewer.card ≤ removed.card ∧
    outside jobs left fewer ≤ outside jobs other removed

/-- One unit less for the job that is served. -/
def drop (left : job → Int) (served : Option job) (item : job) : Int :=
  left item - if served = some item then 1 else 0

theorem Ahead.refl (jobs : Finset job) (left : job → Int) : Ahead jobs left left :=
  fun removed => ⟨removed, Nat.le_refl _, le_refl _⟩

/-! ### A unit of service -/

theorem outside_drop (jobs removed : Finset job) (left : job → Int) (served : Option job) :
    outside jobs (drop left served) removed =
      outside jobs left removed - ∑ item ∈ jobs \ removed, if served = some item then 1 else 0 :=
  Finset.sum_sub_distrib _ _

theorem outside_drop_some (jobs removed : Finset job) (left : job → Int) (item : job) :
    outside jobs (drop left (some item)) removed =
      outside jobs left removed - if item ∈ jobs \ removed then 1 else 0 := by
  rw [outside_drop]
  simp only [Option.some.injEq, Finset.sum_ite_eq]

theorem outside_drop_le (jobs removed : Finset job) (left : job → Int) (served : Option job) :
    outside jobs (drop left served) removed ≤ outside jobs left removed := by
  cases served with
  | none => simp [outside_drop]
  | some item =>
      rw [outside_drop_some]
      split <;> omega

theorem le_outside_drop (jobs removed : Finset job) (left : job → Int) (served : Option job) :
    outside jobs left removed - 1 ≤ outside jobs (drop left served) removed := by
  cases served with
  | none => simp [outside_drop]
  | some item =>
      rw [outside_drop_some]
      split <;> omega

/-- A job with more work is left aside in place of one with less. -/
theorem outside_exchange {less more : job} (lessIn : less ∈ jobs) (aside : less ∈ removed)
    (moreIn : more ∈ jobs \ removed) (ordered : left less ≤ left more) :
    outside jobs left (insert more (removed.erase less)) ≤ outside jobs left removed := by
  have isMore := Finset.mem_sdiff.mp moreIn
  have exchanged : jobs \ insert more (removed.erase less) =
      insert less ((jobs \ removed).erase more) := by
    ext item
    simp only [Finset.mem_sdiff, Finset.mem_insert, Finset.mem_erase]
    constructor
    · rintro ⟨isJob, apart⟩
      by_cases isLess : item = less
      · exact Or.inl isLess
      · exact Or.inr ⟨fun isMore => apart (Or.inl isMore), isJob,
          fun inRemoved => apart (Or.inr ⟨isLess, inRemoved⟩)⟩
    · rintro (rfl | ⟨notMore, isJob, notRemoved⟩)
      · refine ⟨lessIn, ?_⟩
        rintro (rfl | ⟨different, _⟩)
        · exact isMore.2 aside
        · exact different rfl
      · refine ⟨isJob, ?_⟩
        rintro (isMore | ⟨_, inRemoved⟩)
        · exact notMore isMore
        · exact notRemoved inRemoved
  have notInside : less ∉ (jobs \ removed).erase more := by
    intro inside
    exact (Finset.mem_sdiff.mp (Finset.mem_of_mem_erase inside)).2 aside
  have split := Finset.add_sum_erase (jobs \ removed) left moreIn
  rw [outside, outside, exchanged, Finset.sum_insert notInside]
  omega

/-- Work outside a set is the work of some job. -/
theorem exists_busy (busy : 0 < outside jobs left removed) :
    ∃ item ∈ jobs, item ∉ removed ∧ 0 < left item := by
  by_contra nobody
  refine Int.not_le.mpr busy (Finset.sum_nonpos ?_)
  intro item member
  obtain ⟨isJob, notAside⟩ := Finset.mem_sdiff.mp member
  exact Int.not_lt.mp fun positive => nobody ⟨item, isJob, notAside, positive⟩

/-- What may be left aside need not hold the job that is served. -/
theorem exists_outside_served {served : job} (isJob : served ∈ jobs)
    (least : ∀ item ∈ jobs, 0 < left item → left served ≤ left item)
    (busy : 0 < outside jobs left removed) :
    ∃ fewer : Finset job, fewer.card ≤ removed.card ∧
      outside jobs left fewer ≤ outside jobs left removed ∧ served ∈ jobs \ fewer := by
  by_cases aside : served ∈ removed
  · obtain ⟨more, moreJob, notAside, positive⟩ := exists_busy busy
    have moreIn : more ∈ jobs \ removed := Finset.mem_sdiff.mpr ⟨moreJob, notAside⟩
    refine ⟨insert more (removed.erase served), ?_,
      outside_exchange isJob aside moreIn (least more moreJob positive), ?_⟩
    · have smaller := Finset.card_erase_add_one aside
      have bounded := Finset.card_insert_le more (removed.erase served)
      omega
    · refine Finset.mem_sdiff.mpr ⟨isJob, ?_⟩
      intro inside
      rcases Finset.mem_insert.mp inside with isMore | erased
      · exact notAside (isMore ▸ aside)
      · exact Finset.notMem_erase served removed erased
  · exact ⟨removed, Nat.le_refl _, le_refl _, Finset.mem_sdiff.mpr ⟨isJob, aside⟩⟩

/-- A unit for a job with least work, against a unit for any job or none. -/
theorem Ahead.serve (ahead : Ahead jobs left other) {served : Option job}
    (least : ∀ item ∈ jobs, 0 < left item → ∃ first ∈ jobs, served = some first ∧
      ∀ item ∈ jobs, 0 < left item → left first ≤ left item)
    {served' : Option job} (nonnegative' : ∀ item ∈ jobs, 0 ≤ drop other served' item) :
    Ahead jobs (drop left served) (drop other served') := by
  intro removed
  obtain ⟨fewer, small, less⟩ := ahead removed
  have slow := le_outside_drop jobs removed other served'
  have remains : 0 ≤ outside jobs (drop other served') removed :=
    Finset.sum_nonneg fun item member => nonnegative' item (Finset.mem_sdiff.mp member).1
  by_cases busy : 0 < outside jobs left fewer
  · obtain ⟨item, isItem, _, positive⟩ := exists_busy busy
    obtain ⟨first, isJob, rfl, isLeast⟩ := least item isItem positive
    obtain ⟨fewest, smaller, lesser, inside⟩ := exists_outside_served isJob isLeast busy
    refine ⟨fewest, Nat.le_trans smaller small, ?_⟩
    rw [outside_drop_some, if_pos inside]
    omega
  · have fast := outside_drop_le jobs fewer left served
    exact ⟨fewer, small, by omega⟩

/-! ### New jobs -/

/-- Jobs that were not there before bring the same work to both. -/
theorem Ahead.release (ahead : Ahead jobs left other) (arriving : Finset job)
    {left' other' : job → Int} (fresh : ∀ item ∈ arriving, other item = 0)
    (same : ∀ item ∈ arriving, left' item = other' item)
    (kept : ∀ item ∈ jobs, item ∉ arriving → left' item = left item ∧ other' item = other item)
    (nonnegative : ∀ item ∈ jobs, 0 ≤ left item)
    (nonnegative' : ∀ item ∈ arriving, 0 ≤ other' item) : Ahead jobs left' other' := by
  intro removed
  obtain ⟨fewer, small, less⟩ := ahead (removed \ arriving)
  refine ⟨fewer ∪ removed ∩ arriving, ?_, ?_⟩
  · have bounded := Finset.card_union_le fewer (removed ∩ arriving)
    have parts := Finset.card_sdiff_add_card_inter removed arriving
    omega
  · have arrived : ∑ item ∈ (jobs \ (fewer ∪ removed ∩ arriving)) ∩ arriving, left' item ≤
        ∑ item ∈ (jobs \ removed) ∩ arriving, other' item := by
      rw [Finset.sum_congr rfl fun item member => same item (Finset.mem_inter.mp member).2]
      apply Finset.sum_le_sum_of_subset_of_nonneg
      · intro item
        simp only [Finset.mem_inter, Finset.mem_sdiff, Finset.mem_union]
        tauto
      · intro item member _
        exact nonnegative' item (Finset.mem_inter.mp member).2
    have before : ∑ item ∈ (jobs \ (fewer ∪ removed ∩ arriving)) \ arriving, left' item ≤
        outside jobs left fewer := by
      have untouched : ∀ item ∈ (jobs \ (fewer ∪ removed ∩ arriving)) \ arriving,
          left' item = left item := by
        intro item member
        obtain ⟨inside, notArriving⟩ := Finset.mem_sdiff.mp member
        exact (kept item (Finset.mem_sdiff.mp inside).1 notArriving).1
      rw [Finset.sum_congr rfl untouched]
      apply Finset.sum_le_sum_of_subset_of_nonneg
      · intro item
        simp only [Finset.mem_sdiff, Finset.mem_union]
        tauto
      · intro item member _
        exact nonnegative item (Finset.mem_sdiff.mp member).1
    have after : outside jobs other (removed \ arriving) =
        ∑ item ∈ (jobs \ removed) \ arriving, other' item := by
      have untouched : ∀ item ∈ (jobs \ removed) \ arriving, other' item = other item := by
        intro item member
        obtain ⟨inside, notArriving⟩ := Finset.mem_sdiff.mp member
        exact (kept item (Finset.mem_sdiff.mp inside).1 notArriving).2
      rw [Finset.sum_congr rfl untouched]
      symm
      apply Finset.sum_subset
      · intro item
        simp only [Finset.mem_sdiff]
        tauto
      · intro item member notKept
        apply fresh
        simp only [Finset.mem_sdiff] at member notKept
        tauto
    rw [outside, outside, ← Finset.sum_inter_add_sum_sdiff _ arriving left',
      ← Finset.sum_inter_add_sum_sdiff _ arriving other']
    omega

/-! ### Counting -/

/-- The one that is ahead has no more unfinished jobs. -/
theorem Ahead.unfinished_le (ahead : Ahead jobs left other)
    (nonnegative : ∀ item ∈ jobs, 0 ≤ left item) :
    (jobs.filter fun item => 0 < left item).card ≤
      (jobs.filter fun item => 0 < other item).card := by
  obtain ⟨fewer, small, less⟩ := ahead (jobs.filter fun item => 0 < other item)
  have nothing : outside jobs other (jobs.filter fun item => 0 < other item) ≤ 0 := by
    apply Finset.sum_nonpos
    intro item member
    obtain ⟨isJob, notBusy⟩ := Finset.mem_sdiff.mp member
    exact Int.not_lt.mp fun busy => notBusy (Finset.mem_filter.mpr ⟨isJob, busy⟩)
  refine Nat.le_trans (Finset.card_le_card ?_) small
  intro item member
  obtain ⟨isJob, busy⟩ := Finset.mem_filter.mp member
  by_contra notAside
  have atMost : left item ≤ outside jobs left fewer :=
    Finset.single_le_sum (fun other member => nonnegative other (Finset.mem_sdiff.mp member).1)
      (Finset.mem_sdiff.mpr ⟨isJob, notAside⟩)
  omega

end RemainingWork
