/-
No schedule finishes more than preemptive shortest-job-first.

A plan gives each unit of time to some released job that still has work, or to
nobody; it may know the whole workload in advance.  At every time the
shortest-job-first schedule has finished at least as many jobs as any plan, and
so the sum of its completion times is least.

Nothing here names a particular program.
-/

import UserScheduler.Lib.PreemptiveSchedule
import UserScheduler.Lib.RemainingWork
import Mathlib.Algebra.BigOperators.Intervals
import Mathlib.Order.Interval.Finset.Nat

namespace PreemptiveSchedule

open RemainingWork

variable {job : Type} [DecidableEq job] {load : Workload job} {plan : Nat → Option job}
  {item : job} {time : Nat}

/-- The units a plan gives to a job before a time. -/
def given (plan : Nat → Option job) : Nat → job → Nat
  | 0, _ => 0
  | time + 1, item => given plan time item + if plan time = some item then 1 else 0

/-- A plan serves no job early and none for longer than its work. -/
def Workload.Feasible (load : Workload job) (plan : Nat → Option job) : Prop :=
  ∀ time item, plan time = some item →
    item ∈ load.jobs ∧ load.release item ≤ time ∧ (given plan time item : Int) < load.work item

def Workload.finishedBy (load : Workload job) (plan : Nat → Option job) (time : Nat) :
    Finset job :=
  load.jobs.toFinset.filter fun item => load.work item ≤ given plan time item

/-- The work of the released jobs that a plan has not done yet. -/
def Workload.leftBy (load : Workload job) (plan : Nat → Option job) (time : Nat) (item : job) :
    Int :=
  if load.release item ≤ time then load.work item - given plan time item else 0

theorem given_mono (plan : Nat → Option job) (item : job) {earlier later : Nat}
    (le : earlier ≤ later) : given plan earlier item ≤ given plan later item := by
  induction le with
  | refl => exact Nat.le_refl _
  | step _ ih => exact Nat.le_trans ih (Nat.le_add_right _ _)

/-! ### The schedule as a plan -/

theorem Workload.served_eq_given (load : Workload job) (time : Nat) (item : job) :
    load.served time item = given load.chosen time item := by
  induction time with
  | zero => rfl
  | succ time ih =>
      rw [Workload.served, given, ih]
      rfl

theorem Workload.mem_candidates : item ∈ load.jobs.filter (fun item =>
      load.release item ≤ time ∧ (load.served time item : Int) < load.work item) ↔
    item ∈ load.jobs ∧ load.release item ≤ time ∧ 0 < load.remaining time item := by
  rw [List.mem_filter, decide_eq_true_eq, Workload.remaining, Int.sub_pos]

/-- The job that is served has least work. -/
theorem Workload.chosen_least (isChosen : load.chosen time = some item) :
    (item ∈ load.jobs ∧ load.release item ≤ time ∧ 0 < load.remaining time item) ∧
      ∀ other ∈ load.jobs, load.release other ≤ time → 0 < load.remaining time other →
        load.remaining time item ≤ load.remaining time other := by
  obtain ⟨candidate, least, _⟩ := List.argmin_eq_some_iff.mp isChosen
  refine ⟨Workload.mem_candidates.mp candidate, ?_⟩
  intro other isJob released unfinished
  have ordered := least other (Workload.mem_candidates.mpr ⟨isJob, released, unfinished⟩)
  rcases Prod.Lex.toLex_le_toLex.mp ordered with less | ⟨same, _⟩
  · exact Int.le_of_lt less
  · exact Int.le_of_eq same

theorem Workload.remaining_antitone (load : Workload job) (item : job) {earlier later : Nat}
    (le : earlier ≤ later) : load.remaining later item ≤ load.remaining earlier item := by
  have served := given_mono load.chosen item le
  rw [Workload.remaining, Workload.remaining, load.served_eq_given, load.served_eq_given]
  omega

/-- Nobody is served only if there is no work. -/
theorem Workload.exists_chosen (isJob : item ∈ load.jobs) (released : load.release item ≤ time)
    (unfinished : 0 < load.remaining time item) : ∃ first, load.chosen time = some first := by
  rw [← Option.ne_none_iff_exists']
  intro nobody
  have empty := List.argmin_eq_none.mp nobody
  have candidate := Workload.mem_candidates.mpr ⟨isJob, released, unfinished⟩
  rw [empty] at candidate
  exact List.not_mem_nil candidate

theorem Workload.chosen_feasible (load : Workload job) : load.Feasible load.chosen := by
  intro time item isChosen
  obtain ⟨⟨isJob, released, unfinished⟩, _⟩ := Workload.chosen_least isChosen
  refine ⟨isJob, released, ?_⟩
  rw [← load.served_eq_given]
  exact Int.sub_pos.mp unfinished

theorem Workload.leftBy_chosen (released : load.release item ≤ time) :
    load.leftBy load.chosen time item = load.remaining time item := by
  rw [Workload.leftBy, if_pos released, ← load.served_eq_given, Workload.remaining]

/-! ### Any plan -/

theorem Workload.Feasible.given_unreleased (feasible : load.Feasible plan)
    (early : time ≤ load.release item) : given plan time item = 0 := by
  induction time with
  | zero => rfl
  | succ time ih =>
      have notServed : plan time ≠ some item := by
        intro isServed
        have released := (feasible time item isServed).2.1
        omega
      rw [given, if_neg notServed, ih (Nat.le_of_succ_le early)]

theorem Workload.Feasible.given_le (feasible : load.Feasible plan)
    (nonnegative : 0 ≤ load.work item) (time : Nat) :
    (given plan time item : Int) ≤ load.work item := by
  induction time with
  | zero => exact nonnegative
  | succ time ih =>
      by_cases isServed : plan time = some item
      · have less := (feasible time item isServed).2.2
        rw [given, if_pos isServed]
        push_cast
        omega
      · rw [given, if_neg isServed]
        exact ih

theorem Workload.remaining_nonneg (nonnegative : 0 ≤ load.work item) (time : Nat) :
    0 ≤ load.remaining time item := by
  rw [Workload.remaining, load.served_eq_given]
  exact Int.sub_nonneg.mpr (load.chosen_feasible.given_le nonnegative time)

theorem Workload.Feasible.leftBy_nonneg (feasible : load.Feasible plan)
    (nonnegative : 0 ≤ load.work item) : 0 ≤ load.leftBy plan time item := by
  rw [Workload.leftBy]
  split
  · exact Int.sub_nonneg.mpr (feasible.given_le nonnegative time)
  · exact le_refl _

/-- A unit of service, before anything new is released. -/
theorem Workload.leftBy_drop (plan : Nat → Option job) (released : load.release item ≤ time) :
    drop (load.leftBy plan time) (plan time) item = load.leftBy plan (time + 1) item := by
  rw [drop, Workload.leftBy, Workload.leftBy, if_pos released,
    if_pos (Nat.le_succ_of_le released), given]
  split
  · push_cast
    omega
  · push_cast
    omega

theorem Workload.Feasible.leftBy_unreleased (feasible : load.Feasible plan)
    (early : time < load.release item) :
    drop (load.leftBy plan time) (plan time) item = 0 := by
  have notServed : plan time ≠ some item := by
    intro isServed
    have released := (feasible time item isServed).2.1
    omega
  rw [drop, Workload.leftBy, if_neg (Nat.not_le.mpr early), if_neg notServed, Int.sub_zero]

/-- Nothing changes for a job that is not released at the next time. -/
theorem Workload.Feasible.leftBy_next (feasible : load.Feasible plan)
    (notNow : load.release item ≠ time + 1) :
    load.leftBy plan (time + 1) item = drop (load.leftBy plan time) (plan time) item := by
  by_cases released : load.release item ≤ time
  · rw [Workload.leftBy_drop plan released]
  · have early : ¬ load.release item ≤ time + 1 := by omega
    rw [feasible.leftBy_unreleased (Nat.not_le.mp released), Workload.leftBy, if_neg early]

theorem Workload.Feasible.leftBy_released (feasible : load.Feasible plan)
    (now : load.release item = time) : load.leftBy plan time item = load.work item := by
  rw [Workload.leftBy, if_pos (Nat.le_of_eq now),
    feasible.given_unreleased (Nat.le_of_eq now.symm), Int.natCast_zero, Int.sub_zero]

theorem Workload.Feasible.drop_nonneg (feasible : load.Feasible plan)
    (nonnegative : 0 ≤ load.work item) (time : Nat) :
    0 ≤ drop (load.leftBy plan time) (plan time) item := by
  by_cases released : load.release item ≤ time
  · rw [Workload.leftBy_drop plan released]
    exact feasible.leftBy_nonneg nonnegative
  · exact Int.le_of_eq (feasible.leftBy_unreleased (Nat.not_le.mp released)).symm

/-! ### The comparison -/

theorem Workload.unfinished_of_leftBy (positive : 0 < load.leftBy load.chosen time item) :
    load.release item ≤ time ∧ 0 < load.remaining time item := by
  by_cases released : load.release item ≤ time
  · rw [Workload.leftBy_chosen released] at positive
    exact ⟨released, positive⟩
  · rw [Workload.leftBy, if_neg released] at positive
    exact absurd positive (Int.lt_irrefl 0)

/-- Where there is work, a job with least work is served. -/
theorem Workload.chosen_serves_least (isJob : item ∈ load.jobs.toFinset)
    (positive : 0 < load.leftBy load.chosen time item) :
    ∃ first ∈ load.jobs.toFinset, load.chosen time = some first ∧
      ∀ other ∈ load.jobs.toFinset, 0 < load.leftBy load.chosen time other →
        load.leftBy load.chosen time first ≤ load.leftBy load.chosen time other := by
  obtain ⟨released, unfinished⟩ := Workload.unfinished_of_leftBy positive
  obtain ⟨first, isChosen⟩ :=
    Workload.exists_chosen (List.mem_toFinset.mp isJob) released unfinished
  obtain ⟨⟨firstJob, firstReleased, _⟩, least⟩ := Workload.chosen_least isChosen
  refine ⟨first, List.mem_toFinset.mpr firstJob, isChosen, ?_⟩
  intro other otherJob otherPositive
  obtain ⟨otherReleased, otherUnfinished⟩ := Workload.unfinished_of_leftBy otherPositive
  rw [Workload.leftBy_chosen firstReleased, Workload.leftBy_chosen otherReleased]
  exact least other (List.mem_toFinset.mp otherJob) otherReleased otherUnfinished

/-- The schedule is ahead of every plan. -/
theorem Workload.Feasible.ahead (feasible : load.Feasible plan)
    (nonnegative : ∀ item ∈ load.jobs, 0 ≤ load.work item) (time : Nat) :
    Ahead load.jobs.toFinset (load.leftBy load.chosen time) (load.leftBy plan time) := by
  have ours := load.chosen_feasible
  have works : ∀ item ∈ load.jobs.toFinset, 0 ≤ load.work item :=
    fun item member => nonnegative item (List.mem_toFinset.mp member)
  induction time with
  | zero => exact Ahead.refl _ _
  | succ time ih =>
      -- a unit of service first, then what is released at its end
      have served : Ahead load.jobs.toFinset
          (drop (load.leftBy load.chosen time) (load.chosen time))
          (drop (load.leftBy plan time) (plan time)) :=
        ih.serve (fun item member => Workload.chosen_serves_least member)
          fun item member => feasible.drop_nonneg (works item member) time
      have isNow : ∀ item ∈ load.jobs.toFinset.filter (load.release · = time + 1),
          item ∈ load.jobs.toFinset ∧ load.release item = time + 1 :=
        fun item member => Finset.mem_filter.mp member
      apply served.release (load.jobs.toFinset.filter (load.release · = time + 1))
      · intro item member
        apply feasible.leftBy_unreleased
        rw [(isNow item member).2]
        exact Nat.lt_succ_self time
      · intro item member
        have now := (isNow item member).2
        rw [ours.leftBy_released now, feasible.leftBy_released now]
      · intro item member notNow
        have apart : load.release item ≠ time + 1 :=
          fun now => notNow (Finset.mem_filter.mpr ⟨member, now⟩)
        exact ⟨ours.leftBy_next apart, feasible.leftBy_next apart⟩
      · intro item member
        exact ours.drop_nonneg (works item member) time
      · intro item member
        exact feasible.leftBy_nonneg (works item (isNow item member).1)

/-- The released jobs are the finished ones and those with work left. -/
theorem Workload.Feasible.card_released (feasible : load.Feasible plan)
    (positive : ∀ item ∈ load.jobs, 0 < load.work item) (time : Nat) :
    (load.jobs.toFinset.filter fun item => 0 < load.leftBy plan time item).card +
        (load.finishedBy plan time).card =
      (load.jobs.toFinset.filter fun item => load.release item ≤ time).card := by
  rw [← Finset.card_filter_add_card_filter_not (s := load.jobs.toFinset.filter
    fun item => load.release item ≤ time) fun item => 0 < load.leftBy plan time item,
    Finset.filter_filter, Finset.filter_filter]
  congr 2
  · apply Finset.filter_congr
    intro item _
    by_cases released : load.release item ≤ time
    · simp only [released, true_and]
    · simp only [Workload.leftBy, released, if_false, false_and, Int.lt_irrefl]
  · apply Finset.filter_congr
    intro item member
    have works := positive item (List.mem_toFinset.mp member)
    by_cases released : load.release item ≤ time
    · rw [Workload.leftBy, if_pos released]
      omega
    · rw [feasible.given_unreleased (Nat.le_of_not_le released)]
      omega

/-- No plan has finished more jobs at any time. -/
theorem Workload.Feasible.finished_le (feasible : load.Feasible plan)
    (positive : ∀ item ∈ load.jobs, 0 < load.work item) (time : Nat) :
    (load.finishedBy plan time).card ≤ (load.finishedBy load.chosen time).card := by
  have nonnegative : ∀ item ∈ load.jobs, 0 ≤ load.work item :=
    fun item member => Int.le_of_lt (positive item member)
  have unfinished := (feasible.ahead nonnegative time).unfinished_le fun item member =>
    load.chosen_feasible.leftBy_nonneg (nonnegative item (List.mem_toFinset.mp member))
  have ours := load.chosen_feasible.card_released positive time
  have theirs := feasible.card_released positive time
  omega

/-! ### From counts to sums -/

theorem sum_add_countP (horizon : Nat) (times : List Nat)
    (bounded : ∀ time ∈ times, time ≤ horizon) :
    times.sum + ∑ time ∈ Finset.range horizon, times.countP (· ≤ time) =
      times.length * horizon := by
  induction times with
  | nil => simp
  | cons first rest ih =>
      have atMost := bounded first List.mem_cons_self
      have rest' := ih fun time member => bounded time (List.mem_cons_of_mem first member)
      have after : ∑ time ∈ Finset.range horizon, (if first ≤ time then 1 else 0) =
          horizon - first := by
        rw [← Finset.card_filter, ← Nat.card_Ico first horizon]
        congr 1
        ext time
        simp only [Finset.mem_filter, Finset.mem_range, Finset.mem_Ico]
        tauto
      simp only [List.countP_cons, decide_eq_true_eq, Finset.sum_add_distrib, after,
        List.sum_cons, List.length_cons, Nat.add_mul]
      omega

/-- What is never behind in the count has the smaller sum. -/
theorem sum_le_of_countP_le {first second : List Nat} (length : first.length = second.length)
    (counts : ∀ time, second.countP (· ≤ time) ≤ first.countP (· ≤ time)) :
    first.sum ≤ second.sum := by
  have bounded {times : List Nat} (atMost : times.sum ≤ first.sum + second.sum) :
      ∀ time ∈ times, time ≤ first.sum + second.sum :=
    fun time member => Nat.le_trans (List.le_sum_of_mem member) atMost
  have ours := sum_add_countP _ first (bounded (Nat.le_add_right _ _))
  have theirs := sum_add_countP _ second (bounded (Nat.le_add_left _ _))
  have counted := Finset.sum_le_sum fun time (_ : time ∈ Finset.range (first.sum + second.sum)) =>
    counts time
  rw [length] at ours
  omega

end PreemptiveSchedule
