/-
How long a dispatched process runs under RR.

Nothing restarts the slice countdown when a process is dispatched.  Slices end
at the multiples of `RR_TIMES_OF_UNIT`, whoever is running: a process that a
slice end dispatched has a whole slice, and one that a termination or an arrival
dispatched has what is left of the slice under way.
-/

import UserScheduler.RoundRobinClock

namespace UserScheduler.RR

open Machines

/-- The process at `current_process_id`. -/
def runningProcess (c : Core) : Option ProcessPtr :=
  match c.rr.pq.read c.rr.currentProcessId with
  | .ok process => process
  | .error _ => none

/-- How often TIMESLICE_OVER was handled. -/
def slicesEnded (s : Clocked) : Nat :=
  s.log.countP fun event => event.reason = .timesliceOver

/-- The event between the two states made `process` the running one. -/
def Dispatches (s later : Clocked) (process : ProcessPtr) : Prop :=
  runningProcess later.loop.core = some process ∧ runningProcess s.loop.core ≠ some process

/-- As long as `process` does not terminate, it runs until a slice ends at
exactly the time `ending`. -/
def RunsUntil (fork : Core → ProcessPtr → Int) (s : Clocked) (process : ProcessPtr)
    (ending : Int) : Prop :=
  ∀ more later, (clockedMachine fork).Run s more later → (∀ time, .child process time ∉ more) →
    (runningProcess later.loop.core = some process ∧ later.now ≤ ending) ∨
      { time := ending, reason := .timesliceOver, added := [] } ∈ later.log

/-- Whoever is dispatched has `RR_TIMES_OF_UNIT` units from the time of the
dispatch. -/
def FullSlices (fork : Core → ProcessPtr → Int) (entries : List Entry)
    (garbage : Nat → Option ProcessPtr) (timeUnit : Timespec) : Prop :=
  ∀ initial history s event later process, clockedStart entries garbage timeUnit = .ok initial →
    (clockedMachine fork).Run initial history s → (clockedMachine fork).enabled s event →
    (clockedMachine fork).step s event = .ok later → Dispatches s later process →
    RunsUntil fork later process (later.now + RR_TIMES_OF_UNIT * nanoseconds timeUnit)

/-! ### The head of the queue -/

variable {entries : List Entry} {timeUnit : Timespec} {fork : Core → ProcessPtr → Int}
  {c : Core} {queue : List ProcessPtr} {units : Int} {slices : Nat} {process : ProcessPtr}

theorem Queued.runningProcess_eq (queued : Queued c queue) : runningProcess c = queue.head? := by
  cases queue with
  | nil =>
      rw [runningProcess, queued.cursor_unset]
      rfl
  | cons head tail =>
      rw [runningProcess, queued.read_cursor]
      rfl

theorem runningProcess_of_runsUnder (isRR : c.currentStrategy = .RR)
    (runs : c.RunsUnder process c.currentStrategy) : runningProcess c = some process := by
  rw [isRR] at runs
  change c.rr.pq.read c.rr.currentProcessId = .ok (some process) at runs
  rw [runningProcess, runs]

/-- Under RR an expiry is taken for an arrival only while one is pending. -/
theorem getExpireReason_pending {ti : TimerInfo} (queued : Queued c queue)
    (isArrival : getExpireReason c ti = .processArrival) : c.arrivalPtr < c.numProcess := by
  rw [getExpireReason, if_neg (fun notRR => notRR queued.strategy)] at isArrival
  split at isArrival
  · cases isArrival
  · rename_i notEmpty
    have notAll : c.arrivalPtr ≠ c.numProcess := by
      simpa [arrivalQueueEmpty] using notEmpty
    exact Nat.lt_of_le_of_ne queued.within notAll

/-- An arrival only adds to the end of the queue. -/
theorem loopBody_joins {s later : LoopState} {breaks : Bool} (queued : Queued s.core queue)
    (expired : s.eventType = .timerExpired) (ran : loopBody fork s = .ok (later, breaks))
    (isArrival : later.eventType = .processArrival) :
    ∃ group, Queued later.core (queue ++ group) := by
  obtain ⟨handled, branch, rest⟩ := bind_eq_ok ran
  obtain ⟨ended, ending, result⟩ := bind_eq_ok rest
  cases Except.ok.inj result
  rw [dispatchEvent, expired] at branch
  obtain ⟨admitted, expiring, setting⟩ := bind_eq_ok branch
  obtain ⟨armed, _, isHandled⟩ := bind_eq_ok setting
  cases Except.ok.inj isHandled
  let noted : Core := { s.core with calls := s.core.calls ++ [.timerExpired] }
  have queuedNoted : Queued noted queue := queued.with_calls _
  have reason : getExpireReason noted s.timer = .processArrival := isArrival
  obtain ⟨joined, untilNext, _, arriving, queued', _⟩ :=
    processArrival_queued fork queuedNoted (getExpireReason_pending queuedNoted reason)
  change handleExpiry fork noted (subtractTimePassed noted s.timer)
    (getExpireReason noted s.timer) = _ at expiring
  rw [reason, handleExpiry, arriving, ok_bind] at expiring
  obtain ⟨ti, _, isAdmitted⟩ := bind_eq_ok expiring
  cases Except.ok.inj isAdmitted
  obtain ⟨made, ended'⟩ := endIteration_queued queued'
  rw [ended'] at ending
  cases Except.ok.inj ending
  exact ⟨_, queued'.with_calls _⟩

/-! ### One event -/

variable {s later : Clocked}

theorem OnTime.slicesEnded_eq (onTime : OnTime entries timeUnit s units slices) :
    slicesEnded s = slices := onTime.counted

theorem clockedStep_slicesEnded {event : ClockEvent}
    (stepped : clockedStep fork s event = .ok later) : slicesEnded s ≤ slicesEnded later := by
  cases event with
  | timer =>
      rw [clockedStep] at stepped
      split at stepped
      · cases Except.ok.inj stepped
        exact Nat.le_refl _
      · obtain ⟨ended, _, result⟩ := bind_eq_ok stepped
        cases Except.ok.inj result
        rw [slicesEnded, slicesEnded, List.countP_append]
        exact Nat.le_add_right _ _
  | child other time =>
      obtain ⟨ended, _, result⟩ := bind_eq_ok stepped
      cases Except.ok.inj result
      exact Nat.le_refl _

/-- A timer event ends a slice, at the time of the slice end, or is an arrival. -/
theorem timer_ends_slice_or_adds (order : ArrivalOrder entries) (free : OffSlices entries)
    (unit : UsableUnit timeUnit) (onTime : OnTime entries timeUnit s units slices)
    (stepped : clockedStep fork s .timer = .ok later) :
    (slicesEnded later = slices + 1 ∧
        later.now = RR_TIMES_OF_UNIT * (slices + 1) * nanoseconds timeUnit) ∨
      (slicesEnded later = slices ∧ later.loop.eventType = .processArrival) := by
  obtain ⟨next, slices', made, stepped', onTime', fired, _⟩ := timer_onTime fork order unit
    onTime (fun pending => free.arrivalOf_ne pending slices)
  have isNext : next = later := Except.ok.inj (stepped'.symm.trans stepped)
  subst isNext
  have expired : next.now = nextUnits entries s.loop.core slices * nanoseconds timeUnit := by
    simp only [clockedStep, onTime.deadline] at stepped
    obtain ⟨_, _, result⟩ := bind_eq_ok stepped
    cases Except.ok.inj result
    rfl
  rw [onTime'.slicesEnded_eq, expired]
  generalize next.loop.eventType = reason at fired
  generalize nextUnits entries s.loop.core slices = due at fired
  cases fired with
  | slice _ _ => exact Or.inl ⟨rfl, rfl⟩
  | arrival _ _ _ _ _ _ => exact Or.inr ⟨rfl, rfl⟩

/-- An arrival leaves the running process where it is. -/
theorem timer_keeps_running (onTime : OnTime entries timeUnit s units slices)
    (stepped : clockedStep fork s .timer = .ok later)
    (isArrival : later.loop.eventType = .processArrival)
    (running : runningProcess s.loop.core = some process) :
    runningProcess later.loop.core = some process := by
  obtain ⟨queue, queued⟩ := onTime.ticking.queued
  rw [queued.runningProcess_eq] at running
  simp only [clockedStep, onTime.deadline] at stepped
  obtain ⟨ended, ran, result⟩ := bind_eq_ok stepped
  cases Except.ok.inj result
  obtain ⟨group, queued'⟩ :=
    loopBody_joins (s := { s.loop with eventType := .timerExpired }) queued rfl ran isArrival
  rw [queued'.runningProcess_eq, List.head?_append, running]
  rfl

/-- An event that is neither a slice end nor the termination of the running
process leaves it running. -/
theorem clockedStep_keeps_running (order : ArrivalOrder entries) (free : OffSlices entries)
    (unit : UsableUnit timeUnit) (onTime : OnTime entries timeUnit s units slices)
    {event : ClockEvent} (allowed : (clockedMachine fork).enabled s event)
    (stepped : clockedStep fork s event = .ok later)
    (sameSlice : slicesEnded later = slices)
    (running : runningProcess s.loop.core = some process)
    (survives : ∀ time, event ≠ .child process time) :
    runningProcess later.loop.core = some process := by
  cases event with
  | timer =>
      rcases timer_ends_slice_or_adds order free unit onTime stepped with
        ⟨ended, _⟩ | ⟨_, isArrival⟩
      · omega
      · exact timer_keeps_running onTime stepped isArrival running
  | child other time =>
      obtain ⟨queue, queued⟩ := onTime.ticking.queued
      have isOther := runningProcess_of_runsUnder queued.strategy allowed.2.1
      rw [running] at isOther
      cases Option.some.inj isOther
      exact absurd rfl (survives time)

/-! ### Until the slice ends -/

/-- In the slice in which it is seen running, a process is only stopped by its
own termination. -/
theorem run_keeps_running (order : ArrivalOrder entries) (free : OffSlices entries)
    (unit : UsableUnit timeUnit) (onTime : OnTime entries timeUnit s units slices)
    (running : runningProcess s.loop.core = some process) {more : List ClockEvent}
    (run : (clockedMachine fork).Run s more later) (survives : ∀ time, .child process time ∉ more) :
    ∃ units' slices', OnTime entries timeUnit later units' slices' ∧ slices ≤ slices' ∧
      (slices' = slices → runningProcess later.loop.core = some process) := by
  induction run with
  | start => exact ⟨units, slices, onTime, Nat.le_refl _, fun _ => running⟩
  | @next history now later event _ allowed stepped ih =>
      obtain ⟨units₁, slices₁, onTime₁, grown, kept⟩ := ih fun time member =>
        survives time (List.mem_append_left _ member)
      obtain ⟨next, units₂, slices₂, stepped', onTime₂⟩ :=
        clockedStep_onTime order free unit onTime₁ allowed
      have isNext : next = later := Except.ok.inj (stepped'.symm.trans stepped)
      subst isNext
      have grows := clockedStep_slicesEnded stepped'
      rw [onTime₁.slicesEnded_eq, onTime₂.slicesEnded_eq] at grows
      refine ⟨units₂, slices₂, onTime₂, Nat.le_trans grown grows, ?_⟩
      intro same
      have same₁ : slices₁ = slices := by omega
      have sameSlice : slicesEnded next = slices₁ := by
        rw [onTime₂.slicesEnded_eq, same, same₁]
      exact clockedStep_keeps_running order free unit onTime₁ allowed stepped' sameSlice
        (kept same₁) fun time isChild => survives time (by simp [isChild])

/-- From a state in its slice number `slices`, a process runs until the end of
that slice. -/
theorem OnTime.runsUntil (fork : Core → ProcessPtr → Int) (order : ArrivalOrder entries)
    (free : OffSlices entries) (unit : UsableUnit timeUnit)
    (onTime : OnTime entries timeUnit s units slices)
    (running : runningProcess s.loop.core = some process) :
    RunsUntil fork s process (RR_TIMES_OF_UNIT * (slices + 1) * nanoseconds timeUnit) := by
  intro more later run survives
  obtain ⟨units', slices', onTime', grown, kept⟩ :=
    run_keeps_running order free unit onTime running run survives
  rcases Nat.eq_or_lt_of_le grown with same | past
  · left
    subst same
    refine ⟨kept rfl, Int.le_trans onTime'.before ?_⟩
    exact Int.mul_le_mul_of_nonneg_right nextUnits_le_slice (Int.le_of_lt unit.positive)
  · right
    exact (onTime'.log _).mpr (Or.inl ⟨slices + 1, Nat.succ_pos _, past, rfl⟩)

/-- A slice end is handled at the time of the slice end. -/
theorem slice_end_now (order : ArrivalOrder entries) (free : OffSlices entries)
    (unit : UsableUnit timeUnit) (onTime : OnTime entries timeUnit s units slices)
    {event : ClockEvent} (stepped : clockedStep fork s event = .ok later)
    (ended : slicesEnded s < slicesEnded later) :
    later.now = RR_TIMES_OF_UNIT * slicesEnded later * nanoseconds timeUnit := by
  cases event with
  | timer =>
      rw [onTime.slicesEnded_eq] at ended
      rcases timer_ends_slice_or_adds order free unit onTime stepped with
        ⟨after, time⟩ | ⟨after, _⟩
      · rw [time, after]
        rfl
      · omega
  | child other time =>
      obtain ⟨_, _, result⟩ := bind_eq_ok stepped
      cases Except.ok.inj result
      exact absurd ended (Nat.lt_irrefl _)

/-- What a dispatch gives: the rest of the slice under way, which is a whole
slice when a slice end dispatched. -/
structure RestOfSlice (fork : Core → ProcessPtr → Int) (timeUnit : Timespec) (s later : Clocked)
    (process : ProcessPtr) : Prop where
  during : RR_TIMES_OF_UNIT * slicesEnded later * nanoseconds timeUnit ≤ later.now ∧
    later.now ≤ RR_TIMES_OF_UNIT * (slicesEnded later + 1) * nanoseconds timeUnit
  rest : RunsUntil fork later process
    (RR_TIMES_OF_UNIT * (slicesEnded later + 1) * nanoseconds timeUnit)
  whole : slicesEnded s < slicesEnded later →
    RunsUntil fork later process (later.now + RR_TIMES_OF_UNIT * nanoseconds timeUnit)

/-- In every run, a process that was dispatched runs until it terminates or the
slice under way ends. -/
theorem dispatch_runs_to_slice_end (fork : Core → ProcessPtr → Int)
    (garbage : Nat → Option ProcessPtr) (order : ArrivalOrder entries)
    (free : OffSlices entries) (unit : UsableUnit timeUnit) {initial : Clocked}
    {history : List ClockEvent} {event : ClockEvent}
    (created : clockedStart entries garbage timeUnit = .ok initial)
    (run : (clockedMachine fork).Run initial history s)
    (allowed : (clockedMachine fork).enabled s event)
    (stepped : (clockedMachine fork).step s event = .ok later)
    (dispatched : Dispatches s later process) :
    RestOfSlice fork timeUnit s later process := by
  have initially := started_onTime order unit created
  obtain ⟨units, slices, onTime⟩ := run_onTime order free unit initially run
  obtain ⟨units', slices', onTime'⟩ :=
    run_onTime order free unit initially (run.next allowed stepped)
  have positive := Int.le_of_lt unit.positive
  have rest := onTime'.runsUntil fork order free unit dispatched.1
  rw [← onTime'.slicesEnded_eq] at rest
  have during : RR_TIMES_OF_UNIT * slicesEnded later * nanoseconds timeUnit ≤ later.now := by
    rw [onTime'.slicesEnded_eq]
    exact Int.le_trans
      (Int.mul_le_mul_of_nonneg_right onTime'.ticking.countdowns.slicesDone positive)
      onTime'.after
  have notPast :
      later.now ≤ RR_TIMES_OF_UNIT * (slicesEnded later + 1) * nanoseconds timeUnit := by
    rw [onTime'.slicesEnded_eq]
    exact Int.le_trans onTime'.before
      (Int.mul_le_mul_of_nonneg_right nextUnits_le_slice positive)
  refine ⟨⟨during, notPast⟩, rest, ?_⟩
  intro ended
  have whole : later.now + RR_TIMES_OF_UNIT * nanoseconds timeUnit =
      RR_TIMES_OF_UNIT * (slicesEnded later + 1) * nanoseconds timeUnit := by
    rw [slice_end_now order free unit onTime stepped ended, Int.mul_add, Int.mul_one, Int.add_mul]
  rw [whole]
  exact rest

/-- Three processes at time zero, the first of which ends in mid-slice. -/
def shortEntries : List Entry := [⟨0, 300⟩, ⟨0, 1000⟩, ⟨0, 1000⟩]

theorem shortEntries_order : ArrivalOrder shortEntries := ⟨by decide, by decide, by decide⟩

theorem dispatch_runs_to_slice_end_shortEntries :
    ∃ initial s later, clockedStart shortEntries (fun _ => none) millisecond = .ok initial ∧
      (clockedMachine fun _ process => 100 + process).Run initial
        [.timer, .child 0 300000000] s ∧
      (clockedMachine fun _ process => 100 + process).step s .timer = .ok later ∧
      later.now = 500000000 ∧ Dispatches s later 2 ∧
      RestOfSlice (fun _ process => 100 + process) millisecond s later 2 := by
  obtain ⟨initial, created, _⟩ :=
    clockedStart_onTime shortEntries_order millisecond_usable (fun _ => none)
  obtain ⟨s, later, _, run, allowed, stepped, _, seen⟩ : ∃ s later final,
      (clockedMachine fun _ process => 100 + process).Run initial
        [.timer, .child 0 300000000] s ∧
      (clockedMachine fun _ process => 100 + process).enabled s .timer ∧
      (clockedMachine fun _ process => 100 + process).step s .timer = .ok later ∧
      (clockedMachine fun _ process => 100 + process).Run later [] final ∧
      (runningProcess s.loop.core, runningProcess later.loop.core, later.now) =
        (some 1, some 2, 500000000) := by
    cases Except.ok.inj created
    exact Machine.step_of_replay_map _ _ _ (fun s later _ : Clocked =>
      (runningProcess s.loop.core, runningProcess later.loop.core, later.now)) (by decide +kernel)
  obtain ⟨before, after, time⟩ := Prod.mk.inj seen |>.imp_right Prod.mk.inj
  have dispatched : Dispatches s later 2 := ⟨after, by rw [before]; decide⟩
  exact ⟨initial, s, later, created, run, stepped, time, dispatched,
    dispatch_runs_to_slice_end (fun _ process => 100 + process) (fun _ => none)
      shortEntries_order (by decide) millisecond_usable created run allowed stepped dispatched⟩

/-- The process that is dispatched at 300 has to leave at 500, not at 800. -/
theorem mid_slice_dispatch_cut_short :
    ArrivalOrder shortEntries ∧ OffSlices shortEntries ∧ UsableUnit millisecond ∧
      ¬ FullSlices (fun _ process => 100 + process) shortEntries (fun _ => none)
        millisecond := by
  refine ⟨shortEntries_order, by decide, millisecond_usable, ?_⟩
  intro full
  obtain ⟨initial, created, _⟩ :=
    clockedStart_onTime shortEntries_order millisecond_usable (fun _ => none)
  obtain ⟨s, later, final, run, allowed, stepped, continued, seen⟩ : ∃ s later final,
      (clockedMachine fun _ process => 100 + process).Run initial [.timer] s ∧
      (clockedMachine fun _ process => 100 + process).enabled s (.child 0 300000000) ∧
      (clockedMachine fun _ process => 100 + process).step s (.child 0 300000000) = .ok later ∧
      (clockedMachine fun _ process => 100 + process).Run later [.timer] final ∧
      ((runningProcess s.loop.core, runningProcess later.loop.core, later.now),
          runningProcess final.loop.core, final.log) =
        ((some 0, some 1, 300000000),
          some 2, [⟨0, .processArrival, [0, 1, 2]⟩, ⟨500000000, .timesliceOver, []⟩]) := by
    cases Except.ok.inj created
    exact Machine.step_of_replay_map _ _ _ (fun s later final : Clocked =>
      ((runningProcess s.loop.core, runningProcess later.loop.core, later.now),
        runningProcess final.loop.core, final.log)) (by decide +kernel)
  obtain ⟨dispatch, cut⟩ := Prod.mk.inj seen
  obtain ⟨before, after, time⟩ := Prod.mk.inj dispatch |>.imp_right Prod.mk.inj
  obtain ⟨replaced, logged⟩ := Prod.mk.inj cut
  have dispatched : Dispatches s later 1 := ⟨after, by rw [before]; decide⟩
  rcases full initial _ s _ later 1 created run allowed stepped dispatched _ final continued
      (by simp) with ⟨running, _⟩ | atEnd
  · rw [replaced] at running
    cases running
  · rw [logged, time] at atEnd
    revert atEnd
    decide

end UserScheduler.RR
