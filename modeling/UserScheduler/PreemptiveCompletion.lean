/-
No schedule of the same processes finishes earlier than PSJF.

The runs are those in the order of the virtual clock.  A competitor may divide
the processor as it likes, one unit of time after the other, and may know all
arrivals and all work in advance.
-/

import UserScheduler.Lib.PreemptiveOptimality
import UserScheduler.PreemptiveRuns

namespace UserScheduler.PSJF

open Machines
open PreemptiveSchedule (Workload given given_mono sum_le_of_countP_le)

variable {scenario : Scenario} {now later : Timed} {live finished : Multiset ProcessPtr}
  {active : ProcessPtr} {history : List TimedEvent}

def TimedEvent.ending : TimedEvent → Option Nat
  | .arrival => none
  | .termination elapsed => some elapsed

/-- The times at which processes terminated, counted from the start of the
scenario. -/
def completions (history : List TimedEvent) : List Nat := history.filterMap TimedEvent.ending

theorem Scenario.work_pos (scenario : Scenario) :
    ∀ process ∈ scenario.workload.jobs, 0 < scenario.workload.work process := by
  intro process isJob
  rcases List.mem_append.mp isJob with isLive | isLater
  · exact scenario.unfinished process isLive
  · exact (scenario.whole process isLater).2

theorem Scenario.remaining_pos (scenario : Scenario) {process : ProcessPtr} {time bound : Nat}
    (unfinished : 0 < scenario.workload.remaining bound process) (before : time ≤ bound) :
    0 < scenario.workload.remaining time process :=
  Int.lt_of_lt_of_le unfinished (scenario.workload.remaining_antitone process before)

/-! ### The terminations of a run -/

/-- Processes terminated when the reference finished them and not later; those
that are there were unfinished until now. -/
structure Recorded (scenario : Scenario) (history : List TimedEvent) (now : Timed)
    (live finished : Multiset ProcessPtr) : Prop
    extends Simulates scenario now live finished where
  unfinished : ∀ process ∈ live, ∀ time, time < now.elapsed →
    0 < scenario.workload.remaining time process
  recorded : ∃ record : List (ProcessPtr × Nat),
    (record.map Prod.fst : Multiset ProcessPtr) = finished ∧
      record.map Prod.snd = completions history ∧
      ∀ entry ∈ record, ∀ time, time < entry.2 →
        0 < scenario.workload.remaining time entry.1

theorem recorded_start (scenario : Scenario) :
    Recorded scenario [] scenario.start scenario.live 0 :=
  { toSimulates := start_simulates scenario
    unfinished := by
      intro _ _ time before
      cases before
    recorded := ⟨[], rfl, rfl, fun _ impossible => absurd impossible List.not_mem_nil⟩ }

/-- The active process is unfinished as long as it is busy. -/
theorem Recorded.active_unfinished (recorded : Recorded scenario history now live finished)
    (running : Running now.mem now.psjf live active) {deadline : Nat}
    (busy : Busy scenario now deadline) :
    ∀ time, time < deadline → 0 < scenario.workload.remaining time active := by
  intro time before
  rcases Nat.lt_or_ge time now.elapsed with early | late
  · exact recorded.unfinished active running.member time early
  · have isJob := (recorded.mem_jobs active).mpr (Or.inl running.member)
    have nonnegative := Workload.remaining_nonneg
      (Int.le_of_lt (scenario.work_pos active isJob)) time
    have notZero := busy active running.isActive time late before
    omega

theorem Recorded.arrival (recorded : Recorded scenario history now live finished)
    (running : Running now.mem now.psjf live active) {process : ProcessPtr}
    {rest : List ProcessPtr} (next : now.waiting = process :: rest)
    (busy : Busy scenario now (scenario.due process))
    (stepped : timedStep scenario now .arrival = .ok later) :
    Recorded scenario (history ++ [.arrival]) later (process ::ₘ live) finished := by
  obtain ⟨found, stepped', simulates⟩ := arrival_simulates recorded.toSimulates running next busy
  cases Except.ok.inj (stepped.symm.trans stepped')
  obtain ⟨_, _, _, others⟩ := arrival_accounted recorded.toSimulates running next busy
  have atArrival : later.elapsed = scenario.due process := by
    rw [timedStep, next] at stepped
    obtain ⟨_, _, stepped⟩ := bind_eq_ok stepped
    obtain ⟨_, _, stepped⟩ := bind_eq_ok stepped
    cases Except.ok.inj stepped
    rfl
  obtain ⟨record, isFinished, times, ended⟩ := recorded.recorded
  refine { toSimulates := simulates, unfinished := ?_, recorded := ⟨record, isFinished, ?_, ended⟩ }
  · intro other member time before
    rw [atArrival] at before
    by_cases isActive : other = active
    · rw [isActive]
      exact recorded.active_unfinished running busy time before
    · exact scenario.remaining_pos (others other member isActive) (Nat.le_of_lt before)
  · rw [times, completions, completions, List.filterMap_append]
    exact (List.append_nil _).symm

theorem Recorded.termination (recorded : Recorded scenario history now live finished)
    (running : Running now.mem now.psjf live active) {elapsed : Nat}
    (forward : now.elapsed ≤ elapsed) (busy : Busy scenario now elapsed)
    (ended : scenario.workload.remaining elapsed active = 0)
    (noArrival : ∀ process ∈ now.waiting, elapsed ≤ scenario.due process)
    (stepped : timedStep scenario now (.termination elapsed) = .ok later) :
    Recorded scenario (history ++ [.termination elapsed]) later (live.erase active)
      (active ::ₘ finished) := by
  obtain ⟨found, stepped', simulates⟩ :=
    termination_simulates recorded.toSimulates running forward busy ended noArrival
  cases Except.ok.inj (stepped.symm.trans stepped')
  obtain ⟨_, _, _, others⟩ :=
    termination_accounted recorded.toSimulates running forward busy ended noArrival
  have atEnd : later.elapsed = elapsed := by
    rw [timedStep] at stepped
    obtain ⟨_, _, stepped⟩ := bind_eq_ok stepped
    obtain ⟨_, _, stepped⟩ := bind_eq_ok stepped
    cases Except.ok.inj stepped
    rfl
  obtain ⟨record, isFinished, times, before⟩ := recorded.recorded
  refine
    { toSimulates := simulates
      unfinished := ?_
      recorded := ⟨record ++ [(active, elapsed)], ?_, ?_, ?_⟩ }
  · intro other member time before
    rw [atEnd] at before
    have different := (recorded.live_nodup.mem_erase_iff.mp member).1
    exact scenario.remaining_pos (others other member different) (Nat.le_of_lt before)
  · rw [List.map_append, ← Multiset.coe_add, isFinished, add_comm]
    rfl
  · rw [List.map_append, times, completions, completions, List.filterMap_append]
    rfl
  · intro entry member
    rcases List.mem_append.mp member with isOld | isNew
    · exact before entry isOld
    · cases List.mem_singleton.mp isNew
      exact recorded.active_unfinished running busy

theorem Recorded.step (recorded : Recorded scenario history now live finished)
    {event : TimedEvent} (allowed : (timedMachine scenario).enabled now event)
    (stepped : timedStep scenario now event = .ok later) :
    ∃ live' finished', Recorded scenario (history ++ [event]) later live' finished' := by
  cases event with
  | arrival =>
      obtain ⟨notEmpty, process, rest, next, busy⟩ := allowed
      rcases recorded.active with ⟨isEmpty, _⟩ | ⟨active, running⟩
      · rw [(heapEmpty_iff recorded.stores).mpr isEmpty] at notEmpty
        cases notEmpty
      · exact ⟨_, _, recorded.arrival running next busy stepped⟩
  | termination elapsed =>
      obtain ⟨forward, busy, ⟨active, isActive, ended⟩, noArrival⟩ := allowed
      rcases recorded.active with ⟨_, idle⟩ | ⟨found, running⟩
      · rw [idle] at isActive
        cases isActive
      · cases running.isActive.symm.trans isActive
        exact ⟨_, _, recorded.termination running forward busy ended noArrival stepped⟩

theorem run_recorded (run : (timedMachine scenario).Run scenario.start history now) :
    ∃ live finished, Recorded scenario history now live finished :=
  run.history_invariant (fun history now => ∃ live finished,
      Recorded scenario history now live finished)
    ⟨_, _, recorded_start scenario⟩
    (by
      rintro _ _ _ _ ⟨_, _, recorded⟩ allowed stepped
      exact recorded.step allowed stepped)

/-! ### A run goes on -/

/-- With nobody to arrive, the active process is busy for as long as it has
work. -/
theorem Simulates.busy_until (simulates : Simulates scenario now live finished)
    (running : Running now.mem now.psjf live active) (units : Nat)
    (enough : (units : Int) ≤ scenario.workload.remaining now.elapsed active)
    (noArrival : ∀ process ∈ now.waiting, now.elapsed + units ≤ scenario.due process) :
    Busy scenario now (now.elapsed + units) := by
  induction units with
  | zero =>
      intro _ _ time after before
      exact absurd before (Nat.not_lt.mpr after)
  | succ units ih =>
      have earlier : ∀ process ∈ now.waiting, now.elapsed + units ≤ scenario.due process :=
        fun process member => Nat.le_of_succ_le (noArrival process member)
      have busy := ih (by omega) earlier
      intro found isActive time after before
      cases running.isActive.symm.trans isActive
      rcases Nat.lt_or_ge time (now.elapsed + units) with soon | last
      · exact busy active isActive time after soon
      · have isLast : time = now.elapsed + units := by omega
        obtain ⟨lowered, _, _⟩ :=
          simulates.advance running (Nat.le_add_right _ units) busy earlier
        rw [isLast, lowered]
        omega

/-- While a process is there, it ends or another one arrives. -/
theorem Simulates.exists_event (simulates : Simulates scenario now live finished)
    (notEmpty : heapEmpty now.psjf.pq = false) :
    ∃ event, (timedMachine scenario).enabled now event := by
  rcases simulates.active with ⟨isEmpty, _⟩ | ⟨active, running⟩
  · rw [(heapEmpty_iff simulates.stores).mpr isEmpty] at notEmpty
    cases notEmpty
  · obtain ⟨units, isUnits⟩ := Int.eq_ofNat_of_zero_le
      (simulates.nonnegative active running.member)
    have ends (noArrival : ∀ process ∈ now.waiting, now.elapsed + units ≤ scenario.due process) :
        (timedMachine scenario).enabled now (.termination (now.elapsed + units)) := by
      have busy := simulates.busy_until running units (Int.le_of_eq isUnits.symm) noArrival
      obtain ⟨lowered, _, _⟩ :=
        simulates.advance running (Nat.le_add_right _ units) busy noArrival
      refine ⟨Nat.le_add_right _ _, busy, ⟨active, running.isActive, ?_⟩, noArrival⟩
      rw [lowered, isUnits]
      omega
    cases next : now.waiting with
    | nil =>
        refine ⟨_, ends ?_⟩
        intro process impossible
        rw [next] at impossible
        cases impossible
    | cons process rest =>
        have isWaiting : process ∈ now.waiting := by
          rw [next]
          exact List.mem_cons_self
        have firstDue := (simulates.first_due next).2
        rcases Nat.le_total (now.elapsed + units) (scenario.due process) with before | after
        · exact ⟨_, ends fun other member => Nat.le_trans before (firstDue other member)⟩
        · obtain ⟨wait, isDue⟩ := Nat.exists_eq_add_of_le (simulates.pending process isWaiting).1
          refine ⟨.arrival, notEmpty, process, rest, next, ?_⟩
          rw [isDue]
          apply simulates.busy_until running wait (by omega)
          intro other member
          rw [← isDue]
          exact firstDue other member

/-! ### Against another schedule -/

/-- Whoever the reference has finished has terminated. -/
theorem Recorded.finished_le (recorded : Recorded scenario history now live finished) {time : Nat}
    (past : time < now.elapsed ∨ live = 0 ∧ now.waiting = []) :
    (scenario.workload.finishedBy scenario.workload.chosen time).card ≤
      (completions history).countP (· ≤ time) := by
  obtain ⟨record, isFinished, times, unfinished⟩ := recorded.recorded
  let ended : List ProcessPtr := (record.filter fun entry => entry.2 ≤ time).map Prod.fst
  have counted : (completions history).countP (· ≤ time) = ended.length := by
    rw [← times, List.countP_map, List.countP_eq_length_filter, List.length_map]
    rfl
  rw [counted]
  refine Nat.le_trans (Finset.card_le_card ?_) (List.toFinset_card_le ended)
  intro process member
  obtain ⟨isJob, served⟩ := Finset.mem_filter.mp member
  rw [← scenario.workload.served_eq_given] at served
  have done : ¬ 0 < scenario.workload.remaining time process :=
    Int.not_lt.mpr (Int.sub_nonpos_of_le served)
  have isRecorded : process ∈ finished := by
    rcases (recorded.mem_jobs process).mp (List.mem_toFinset.mp isJob) with
      isLive | isWaiting | isDone
    · rcases past with before | ⟨nobody, _⟩
      · exact absurd (recorded.unfinished process isLive time before) done
      · rw [nobody] at isLive
        exact absurd isLive (Multiset.notMem_zero process)
    · rcases past with before | ⟨_, nobody⟩
      · have whole := (scenario.whole process (recorded.waitingLater isWaiting)).2
        have unserved := (recorded.pending process isWaiting).2.2
        exact absurd (scenario.remaining_pos (by omega) (Nat.le_of_lt before)) done
      · rw [nobody] at isWaiting
        exact absurd isWaiting List.not_mem_nil
    · exact isDone
  rw [← isFinished, Multiset.mem_coe] at isRecorded
  obtain ⟨entry, inRecord, rfl⟩ := List.mem_map.mp isRecorded
  rw [List.mem_toFinset]
  refine List.mem_map_of_mem (List.mem_filter.mpr ⟨inRecord, decide_eq_true ?_⟩)
  exact Nat.not_lt.mp fun early => done (unfinished entry inRecord time early)

/-- A schedule that has ended a process by a time has ended it later. -/
theorem countP_ends_le {plan : Nat → Option ProcessPtr} {ends : ProcessPtr → Nat}
    (finishes : ∀ process ∈ scenario.workload.jobs,
      process ∈ scenario.workload.finishedBy plan (ends process)) (time : Nat) :
    (scenario.workload.jobs.map ends).countP (· ≤ time) ≤
      (scenario.workload.finishedBy plan time).card := by
  have distinct : scenario.workload.jobs.Nodup := scenario.jobs_nodup
  rw [List.countP_map, List.countP_eq_length_filter,
    ← List.toFinset_card_of_nodup (distinct.filter _)]
  apply Finset.card_le_card
  intro process member
  obtain ⟨isJob, early⟩ := List.mem_filter.mp (List.mem_toFinset.mp member)
  have served := (Finset.mem_filter.mp (finishes process isJob)).2
  have more := given_mono plan process (of_decide_eq_true early)
  refine Finset.mem_filter.mpr ⟨List.mem_toFinset.mpr isJob, ?_⟩
  omega

/-- At every moment PSJF has terminated at least as many processes as any other
schedule could have finished, and once it is done the sum of its completion
times is least.  It is done as soon as no event is possible, unless the heap
runs empty before the last arrival. -/
theorem psjf_minimises_completion (scenario : Scenario) {history : List TimedEvent} {now : Timed}
    (run : (timedMachine scenario).Run scenario.start history now) :
    (heapEmpty now.psjf.pq = false → ∃ event, (timedMachine scenario).enabled now event) ∧
      ∀ plan, scenario.workload.Feasible plan →
        (∀ time, time < now.elapsed →
          (scenario.workload.finishedBy plan time).card ≤
            (completions history).countP (· ≤ time)) ∧
        (heapEmpty now.psjf.pq = true → now.waiting = [] →
          (∀ time, (scenario.workload.finishedBy plan time).card ≤
            (completions history).countP (· ≤ time)) ∧
          ∀ ends : ProcessPtr → Nat,
            (∀ process ∈ scenario.workload.jobs,
              process ∈ scenario.workload.finishedBy plan (ends process)) →
            (completions history).sum ≤ (scenario.workload.jobs.map ends).sum) := by
  obtain ⟨live, finished, recorded⟩ := run_recorded run
  refine ⟨recorded.exists_event, ?_⟩
  intro plan feasible
  have optimal (time : Nat) := feasible.finished_le scenario.work_pos time
  refine ⟨fun time before => Nat.le_trans (optimal time) (recorded.finished_le (Or.inl before)), ?_⟩
  intro isEmpty nobody
  have drained : live = 0 := (heapEmpty_iff recorded.stores).mp isEmpty
  have counts (time : Nat) : (scenario.workload.finishedBy plan time).card ≤
      (completions history).countP (· ≤ time) :=
    Nat.le_trans (optimal time) (recorded.finished_le (Or.inr ⟨drained, nobody⟩))
  refine ⟨counts, ?_⟩
  intro ends finishes
  apply sum_le_of_countP_le
  · obtain ⟨record, isFinished, times, _⟩ := recorded.recorded
    have everybody := congrArg Multiset.card recorded.accounted
    rw [drained, nobody, ← isFinished, Multiset.coe_nil, zero_add, zero_add, Multiset.coe_card,
      Multiset.coe_card, List.length_map] at everybody
    rw [← times, List.length_map, List.length_map, everybody]
    rfl
  · exact fun time => Nat.le_trans (countP_ends_le finishes time) (counts time)

/-- The first process to the end, then the other one. -/
def firstComeFirst (time : Nat) : Option ProcessPtr :=
  if time < 3 then some 0 else if time = 3 then some 1 else none

theorem firstComeFirst_feasible : preempted.workload.Feasible firstComeFirst := by
  intro time process isServed
  match time, isServed with
  | 0, isServed | 1, isServed | 2, isServed | 3, isServed =>
      cases Option.some.inj isServed
      decide
  | later + 4, isServed =>
      rw [firstComeFirst, if_neg (by omega), if_neg (by omega)] at isServed
      cases isServed

/-- The job of one unit ends at 2 and the one of three units at 4, against 4 and
3. -/
theorem psjf_minimises_completion_preempted :
    ∃ now, (timedMachine preempted).Run preempted.start
        [.arrival, .termination 2, .termination 4] now ∧
      (completions [.arrival, .termination 2, .termination 4]).sum ≤
        (preempted.workload.jobs.map fun process => if process = 0 then 3 else 4).sum := by
  have arrives : (timedMachine preempted).enabled preempted.start .arrival := by
    refine ⟨rfl, 1, [], rfl, ?_⟩
    intro active isActive time _ before
    cases Option.some.inj isActive
    cases Nat.lt_one_iff.mp before
    decide
  obtain ⟨second, now, run, isActive, atTwo, alone, stepped, isEmpty, nobody⟩ :
      ∃ second now, (timedMachine preempted).Run preempted.start [.arrival, .termination 2] second ∧
        second.psjf.activeProcess = some 0 ∧ second.elapsed = 2 ∧ second.waiting = [] ∧
        timedStep preempted second (.termination 4) = .ok now ∧
        heapEmpty now.psjf.pq = true ∧ now.waiting = [] := by
    refine ⟨_, _, (Machine.Run.start.next arrives rfl).next
      ⟨by decide, ?_, ⟨1, rfl, by decide⟩, ?_⟩ rfl, rfl, rfl, rfl, rfl, rfl, rfl⟩
    · intro active isActive time after before
      cases Option.some.inj isActive
      cases Nat.le_antisymm (Nat.le_of_lt_succ before) after
      decide
    · intro process impossible
      exact absurd impossible List.not_mem_nil
  have ends : (timedMachine preempted).enabled second (.termination 4) := by
    refine ⟨by omega, ?_, ⟨0, isActive, by decide⟩, ?_⟩
    · intro active isActive' time after before
      cases isActive.symm.trans isActive'
      rw [atTwo] at after
      match time, after, before with
      | 2, _, _ | 3, _, _ => decide
    · intro process impossible
      rw [alone] at impossible
      cases impossible
  have finished := run.next ends stepped
  refine ⟨now, finished, ?_⟩
  exact (((psjf_minimises_completion preempted finished).2 _ firstComeFirst_feasible).2
    isEmpty nobody).2 _ (by decide)

end UserScheduler.PSJF
