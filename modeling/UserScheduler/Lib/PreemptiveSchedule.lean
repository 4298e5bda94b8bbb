/-
Preemptive shortest-job-first with a unit clock.

A workload says when each job is released, how much work it brings and how ties
are broken.  In every unit of time the released, unfinished job with the least
remaining work is served for that unit.  The schedule is a function of the
workload alone.

Nothing here names a particular program.
-/

import Mathlib.Data.List.MinMax
import Mathlib.Data.Prod.Lex
import Mathlib.Order.Basic

namespace PreemptiveSchedule

variable {job : Type} [DecidableEq job]

structure Workload (job : Type) where
  jobs : List job
  release : job → Nat
  work : job → Int
  rank : job → Int

/-- The least job by remaining work, then by rank. -/
def Workload.pick (load : Workload job) (served : job → Nat) (time : Nat) : Option job :=
  -- The order on `Int` that computes, whatever else is imported.
  letI : Preorder Int := Int.instLinearOrder.toPreorder
  (load.jobs.filter fun item =>
    load.release item ≤ time ∧ (served item : Int) < load.work item).argmin fun item =>
      toLex (load.work item - served item, load.rank item)

/-- The units a job was served before a time. -/
def Workload.served (load : Workload job) : Nat → job → Nat
  | 0, _ => 0
  | time + 1, item =>
      load.served time item + if load.pick (load.served time) time = some item then 1 else 0

def Workload.remaining (load : Workload job) (time : Nat) (item : job) : Int :=
  load.work item - load.served time item

/-- The job served in the unit that starts at a time. -/
def Workload.chosen (load : Workload job) (time : Nat) : Option job :=
  load.pick (load.served time) time

def Workload.key (load : Workload job) (time : Nat) (item : job) : Int ×ₗ Int :=
  toLex (load.remaining time item, load.rank item)

variable {load : Workload job} {item : job} {time : Nat}

@[simp] theorem Workload.remaining_zero : load.remaining 0 item = load.work item := by
  simp only [Workload.remaining, Workload.served, Int.natCast_zero, Int.sub_zero]

theorem Workload.remaining_chosen (isChosen : load.chosen time = some item) :
    load.remaining (time + 1) item = load.remaining time item - 1 := by
  have picked : load.pick (load.served time) time = some item := isChosen
  simp only [Workload.remaining, Workload.served, picked, if_true, Int.natCast_add]
  omega

theorem Workload.remaining_other (notChosen : load.chosen time ≠ some item) :
    load.remaining (time + 1) item = load.remaining time item := by
  have notPicked : ¬ load.pick (load.served time) time = some item := notChosen
  simp only [Workload.remaining, Workload.served, if_neg notPicked, Nat.add_zero]

/-- Ranks break every tie. -/
def Workload.Ranked (load : Workload job) : Prop :=
  ∀ first ∈ load.jobs, ∀ second ∈ load.jobs, load.rank first = load.rank second → first = second

theorem Workload.chosen_eq (ranked : load.Ranked) (member : item ∈ load.jobs)
    (released : load.release item ≤ time) (unfinished : 0 < load.remaining time item)
    (least : ∀ other ∈ load.jobs, load.release other ≤ time → 0 < load.remaining time other →
      load.key time item ≤ load.key time other) :
    load.chosen time = some item := by
  have candidate : ∀ other, other ∈ load.jobs.filter (fun other =>
      load.release other ≤ time ∧ (load.served time other : Int) < load.work other) ↔
      other ∈ load.jobs ∧ load.release other ≤ time ∧ 0 < load.remaining time other := by
    intro other
    rw [List.mem_filter, decide_eq_true_eq, Workload.remaining, Int.sub_pos]
  apply List.argmin_eq_some_iff.mpr
  refine ⟨(candidate item).mpr ⟨member, released, unfinished⟩, ?_, ?_⟩
  · intro other isCandidate
    obtain ⟨isJob, isReleased, isUnfinished⟩ := (candidate other).mp isCandidate
    exact least other isJob isReleased isUnfinished
  · intro other isCandidate notLarger
    obtain ⟨isJob, isReleased, isUnfinished⟩ := (candidate other).mp isCandidate
    have sameKey : load.key time other = load.key time item :=
      le_antisymm notLarger (least other isJob isReleased isUnfinished)
    have sameRank : load.rank other = load.rank item :=
      congrArg (fun key => (ofLex key).2) sameKey
    rw [ranked other isJob item member sameRank]

/-- A job that is least when it starts keeps being served until it is finished
or another job is released. -/
theorem Workload.remaining_of_least (ranked : load.Ranked) (member : item ∈ load.jobs)
    {first : Nat} (released : load.release item ≤ first)
    (nonnegative : 0 ≤ load.remaining first item) (units : Nat)
    (unfinished : ∀ time, first ≤ time → time < first + units → load.remaining time item ≠ 0)
    (least : ∀ other ∈ load.jobs, load.release other < first + units →
      0 < load.remaining first other → load.key first item ≤ load.key first other) :
    load.remaining (first + units) item = load.remaining first item - units ∧
      0 ≤ load.remaining (first + units) item ∧
      ∀ other, other ≠ item →
        load.remaining (first + units) other = load.remaining first other := by
  induction units with
  | zero =>
      refine ⟨?_, nonnegative, fun _ _ => rfl⟩
      simp only [Nat.add_zero, Int.natCast_zero, Int.sub_zero]
  | succ units ih =>
      obtain ⟨lowered, stillNonnegative, others⟩ := ih
        (fun time lower upper => unfinished time lower (by omega))
        (fun other isJob early => least other isJob (by omega))
      have positive : 0 < load.remaining (first + units) item := by
        have notZero := unfinished (first + units) (by omega) (by omega)
        omega
      have isChosen : load.chosen (first + units) = some item := by
        apply Workload.chosen_eq ranked member (by omega) positive
        intro other isJob isReleased isUnfinished
        by_cases same : other = item
        · rw [same]
        · have wasUnfinished : 0 < load.remaining first other := by
            rw [← others other same]
            exact isUnfinished
          have atFirst := least other isJob (by omega) wasUnfinished
          refine le_trans ?_ (le_trans atFirst (le_of_eq ?_))
          · apply Prod.Lex.toLex_le_toLex.mpr
            rcases Nat.eq_zero_or_pos units with isZero | isPositive
            · right
              constructor
              · rw [lowered, isZero]
                omega
              · exact le_refl _
            · left
              change load.remaining (first + units) item < load.remaining first item
              omega
          · rw [Workload.key, Workload.key, others other same]
      refine ⟨?_, ?_, ?_⟩
      · rw [← Nat.add_assoc, Workload.remaining_chosen isChosen, lowered]
        omega
      · rw [← Nat.add_assoc, Workload.remaining_chosen isChosen]
        omega
      · intro other different
        rw [← Nat.add_assoc, Workload.remaining_other, others other different]
        rw [isChosen]
        intro same
        exact different (Option.some.inj same).symm

end PreemptiveSchedule
