/-
The timer under every strategy.

Off RR the timer waits for the next arrival and is disarmed after the last one.
Under RR it waits for the next arrival or slice end, whichever comes first.  An
iteration of the loop is taken apart here into what happens to the schedulers
and what happens to the timer, so that the two can be followed separately.
-/

import UserScheduler.ScheduledProcesses
import UserScheduler.RoundRobinClock
import UserScheduler.ArrivalDelivery

namespace UserScheduler

open Machines
open RR (UsableUnit arrivalOf Reads ArrivalOrder OffSlices nextUnits Ticking expiresAt)

/-- The deadline is that of the next timer event. -/
def Timed (entries : List Entry) (timeUnit : Timespec) (loop : LoopState)
    (deadline : Option Int) : Prop :=
  if loop.core.currentStrategy = .RR then
    ∃ units slices, Ticking entries timeUnit loop units slices ∧
      deadline = some (nextUnits entries loop.core slices * nanoseconds timeUnit)
  else
    loop.timer.timeUnit = timeUnit ∧
      if loop.core.arrivalPtr < entries.length then
        assertNonnegetiveRemaining loop.timer.arrivalRemaining = .ok () ∧
          deadline = some (arrivalOf entries loop.core.arrivalPtr * nanoseconds timeUnit)
      else deadline = none

variable {entries : List Entry} {timeUnit : Timespec} {fork : Core → ProcessPtr → Int}
  {loop : LoopState} {deadline : Option Int} {c later : Core} {queue : List ProcessPtr}

theorem timed_rr (isRR : loop.core.currentStrategy = .RR) :
    Timed entries timeUnit loop deadline ↔
      ∃ units slices, Ticking entries timeUnit loop units slices ∧
        deadline = some (nextUnits entries loop.core slices * nanoseconds timeUnit) := by
  rw [Timed, if_pos isRR]

theorem timed_other (notRR : loop.core.currentStrategy ≠ .RR) :
    Timed entries timeUnit loop deadline ↔ loop.timer.timeUnit = timeUnit ∧
      if loop.core.arrivalPtr < entries.length then
        assertNonnegetiveRemaining loop.timer.arrivalRemaining = .ok () ∧
          deadline = some (arrivalOf entries loop.core.arrivalPtr * nanoseconds timeUnit)
      else deadline = none := by
  rw [Timed, if_neg notRR]

/-- No arrival is later than the deadline. -/
theorem Timed.deadline_le (timed : Timed entries timeUnit loop deadline)
    (unit : UsableUnit timeUnit) (pending : loop.core.arrivalPtr < entries.length) :
    ∃ time ∈ deadline, time ≤ arrivalOf entries loop.core.arrivalPtr * nanoseconds timeUnit := by
  by_cases isRR : loop.core.currentStrategy = .RR
  · obtain ⟨units, slices, _, isDeadline⟩ := (timed_rr isRR).mp timed
    refine ⟨_, isDeadline, ?_⟩
    exact Int.mul_le_mul_of_nonneg_right (RR.nextUnits_le_arrival pending)
      (Int.le_of_lt unit.positive)
  · obtain ⟨_, outcome⟩ := (timed_other isRR).mp timed
    rw [if_pos pending] at outcome
    exact ⟨_, outcome.2, Int.le_refl _⟩

/-! ### Iterations taken apart -/

/-- The core that a timer event works on. -/
def expired (c : Core) : Core := { c with calls := c.calls ++ [.timerExpired] }

/-- What a timer event does to the schedulers. -/
inductive Expiry (fork : Core → ProcessPtr → Int) (c : Core) : EventType → Core → Int → Prop where
  | arrival {handled : Core} {untilNext : Int} :
      processArrival fork (expired c) = .ok (handled, untilNext) →
      Expiry fork c .processArrival handled untilNext
  | slice {handled : Core} :
      timesliceOver (expired c) = .ok handled → Expiry fork c .timesliceOver handled 0

/-- Off RR a timer event is an arrival, and the timer is set to the gap that
follows. -/
theorem loopBody_of_arrival (notRR : loop.core.currentStrategy ≠ .RR) {handled : Core}
    {untilNext : Int} {ti : TimerInfo} {value : Timespec} {stopped : Bool}
    (admitted : processArrival fork (expired loop.core) = .ok (handled, untilNext))
    (updated : updateArrivalRemaining loop.timer untilNext = .ok ti)
    (set : setTimer handled ti = .ok value) (ended : endIteration handled = .ok (later, stopped)) :
    loopBody fork { loop with eventType := .timerExpired } =
      .ok (⟨later, ti, value, .processArrival⟩, stopped) := by
  have reason : getExpireReason (expired loop.core) loop.timer = .processArrival := if_pos notRR
  have untouched : subtractTimePassed (expired loop.core) loop.timer = loop.timer :=
    if_neg fun isRR => notRR isRR.1
  have branch : timerBranch fork { loop with eventType := .timerExpired } =
      .ok ⟨handled, ti, value, .processArrival⟩ := by
    change (handleExpiry fork (expired loop.core)
      (subtractTimePassed (expired loop.core) loop.timer)
      (getExpireReason (expired loop.core) loop.timer) >>= fun result =>
        setTimer result.1 result.2 >>= fun armed => pure (LoopState.mk result.1 result.2 armed
          (getExpireReason (expired loop.core) loop.timer))) = _
    rw [reason, untouched]
    simp only [handleExpiry, admitted, updated, set, ok_bind, pure_eq_ok]
  rw [loopBody]
  change (timerBranch fork { loop with eventType := .timerExpired } >>= _) = _
  rw [branch, ok_bind, ended]
  rfl

/-- A timer branch that ended well made one of the two steps. -/
theorem expiry_of_loopBody {next : LoopState} {stopped : Bool}
    (ended : loopBody fork { loop with eventType := .timerExpired } = .ok (next, stopped)) :
    ∃ handled untilNext, Expiry fork loop.core next.eventType handled untilNext ∧
      endIteration handled = .ok (next.core, stopped) := by
  rw [loopBody] at ended
  obtain ⟨branch, branched, ended⟩ := bind_eq_ok ended
  obtain ⟨⟨switched, breaks⟩, switching, ended⟩ := bind_eq_ok ended
  cases Except.ok.inj ended
  change timerBranch fork { loop with eventType := .timerExpired } = .ok branch at branched
  rw [timerBranch] at branched
  obtain ⟨⟨handled, ti⟩, handling, branched⟩ := bind_eq_ok branched
  obtain ⟨value, _, branched⟩ := bind_eq_ok branched
  cases Except.ok.inj branched
  have reasons : getExpireReason (expired loop.core) loop.timer = .processArrival ∨
      getExpireReason (expired loop.core) loop.timer = .timesliceOver := by
    unfold getExpireReason
    split
    · exact Or.inl rfl
    · split
      · exact Or.inr rfl
      · split
        · exact Or.inl rfl
        · exact Or.inr rfl
  change handleExpiry fork (expired loop.core) _ (getExpireReason (expired loop.core) loop.timer) =
    _ at handling
  change ∃ other untilNext, Expiry fork loop.core
    (getExpireReason (expired loop.core) loop.timer) other untilNext ∧ _
  rcases reasons with isArrival | isSlice
  · rw [isArrival] at handling ⊢
    obtain ⟨⟨admitted, untilNext⟩, arriving, handling⟩ := bind_eq_ok handling
    obtain ⟨_, _, handling⟩ := bind_eq_ok handling
    cases Except.ok.inj handling
    exact ⟨_, untilNext, .arrival arriving, switching⟩
  · rw [isSlice] at handling ⊢
    obtain ⟨rotated, rotating, handling⟩ := bind_eq_ok handling
    obtain ⟨_, _, handling⟩ := bind_eq_ok handling
    cases Except.ok.inj handling
    exact ⟨_, 0, .slice rotating, switching⟩

theorem loopBody_of_child {handled : Core} {stopped : Bool}
    (removed : handleEvent fork loop.core .childTerminated = .ok handled)
    (ended : endIteration handled = .ok (later, stopped)) :
    loopBody fork { loop with eventType := .childTerminated } =
      .ok ({ loop with core := later, eventType := .childTerminated }, stopped) := by
  rw [loopBody]
  change ((handleEvent fork loop.core .childTerminated >>= _) >>= _) = _
  rw [removed]
  change (endIteration handled >>= _) = _
  rw [ended]
  rfl

/-! ### What iterations do to the timer -/

theorem KeepsTable.reads (keeps : KeepsTable c later) (reads : Reads entries c) :
    Reads entries later where
  numProcess := keeps.numProcess.trans reads.numProcess
  arrivalTime := by
    intro process
    rw [keeps.table]
    exact reads.arrivalTime process

/-- Nothing but the table, the pointer and the timer matters. -/
theorem ticking_of_keeps {units : Int} {slices : Nat} {next : LoopState}
    (ticking : Ticking entries timeUnit loop units slices) (keeps : KeepsTable loop.core next.core)
    (timer : next.timer = loop.timer) (queued : RR.Queued next.core queue) :
    Ticking entries timeUnit next units slices := by
  have countdowns := ticking.countdowns
  refine ⟨keeps.reads ticking.reads, ⟨queue, queued⟩, ?_⟩
  rw [timer]
  exact
    { unit := countdowns.unit
      sliceNormalized := countdowns.sliceNormalized
      slice := countdowns.slice
      arrivalNormalized := countdowns.arrivalNormalized
      arrival := by
        rw [keeps.arrivalPtr]
        exact countdowns.arrival
      slicesDone := countdowns.slicesDone
      sliceAhead := countdowns.sliceAhead
      arrivalsDone := by
        rw [keeps.arrivalPtr]
        exact countdowns.arrivalsDone
      arrivalAhead := by
        rw [keeps.arrivalPtr]
        exact countdowns.arrivalAhead }

theorem KeepsTable.nextUnits_eq (keeps : KeepsTable c later) (slices : Nat) :
    nextUnits entries later slices = nextUnits entries c slices := by
  rw [nextUnits, nextUnits, keeps.arrivalPtr]

/-- A termination leaves the timer alone. -/
theorem Timed.child (timed : Timed entries timeUnit loop deadline)
    (keeps : KeepsTable loop.core later) (lists : Lists later queue) (eventType : EventType) :
    Timed entries timeUnit { loop with core := later, eventType := eventType } deadline := by
  by_cases isRR : loop.core.currentStrategy = .RR
  · have stillRR : later.currentStrategy = .RR := keeps.strategy.trans isRR
    obtain ⟨units, slices, ticking, isDeadline⟩ := (timed_rr isRR).mp timed
    rw [timed_rr stillRR]
    refine ⟨units, slices, ticking_of_keeps ticking keeps rfl (lists.queued stillRR), ?_⟩
    rw [isDeadline, keeps.nextUnits_eq]
  · have stillNotRR : later.currentStrategy ≠ .RR := keeps.strategy ▸ isRR
    rw [timed_other stillNotRR]
    have unchanged := (timed_other isRR).mp timed
    rw [← keeps.arrivalPtr] at unchanged
    exact unchanged

/-- The timer is set to a positive value for the next event. -/
theorem expiresAt_gap (unit : UsableUnit timeUnit) (time : Int) {units : Int}
    (nonnegative : 0 ≤ units) :
    expiresAt time (timespecMultiply timeUnit units) =
      if units = 0 then none else some (time + units * nanoseconds timeUnit) := by
  obtain ⟨normalized, value⟩ := timespecMultiply_spec unit.normalized nonnegative
  have isZero : timspecIsZero (timespecMultiply timeUnit units) = true ↔ units = 0 := by
    rw [normalized.isZero_iff, value, Int.mul_eq_zero]
    exact or_iff_left (Int.ne_of_gt unit.positive)
  rw [expiresAt, value]
  simp only [isZero]

/-- Off RR the deadline is the next arrival, and so is the deadline after it. -/
theorem Timed.alarm_other (order : ArrivalOrder entries) (unit : UsableUnit timeUnit)
    (notRR : loop.core.currentStrategy ≠ .RR) {time : Int}
    (timed : Timed entries timeUnit loop (some time)) (reads : Reads entries loop.core)
    {handled : Core} {untilNext : Int} {stopped : Bool}
    (arrives : processArrival fork (expired loop.core) = .ok (handled, untilNext))
    (admitted : Admitted (expired loop.core) handled loop.core.arrivalPtr untilNext)
    (ended : endIteration handled = .ok (later, stopped)) (keeps : KeepsTable handled later) :
    ∃ next, loopBody fork { loop with eventType := .timerExpired } = .ok (next, stopped) ∧
      next.core = later ∧ Timed entries timeUnit next (expiresAt time next.itValue) ∧
      ∀ deadline ∈ expiresAt time next.itValue, time ≤ deadline := by
  obtain ⟨isUnit, outcome⟩ := (timed_other notRR).mp timed
  have pending : loop.core.arrivalPtr < entries.length := by
    by_contra drained
    rw [if_neg drained] at outcome
    cases outcome
  rw [if_pos pending] at outcome
  obtain ⟨nonnegative, isTime⟩ := outcome
  have next := admitted.next
  have within := admitted.within
  change handled.arrivalPtr = loop.core.numProcess ∧ _ ∨
    handled.arrivalPtr < loop.core.numProcess ∧ untilNext ≠ 0 ∧
      untilNext = (loop.core.allProcessInfo handled.arrivalPtr).arrivalTime -
        (loop.core.allProcessInfo loop.core.arrivalPtr).arrivalTime at next
  rw [reads.numProcess, reads.arrivalTime, reads.arrivalTime] at next
  have reached : loop.core.arrivalPtr < handled.arrivalPtr := admitted.reached
  have gap : 0 ≤ untilNext := by
    rcases next with ⟨_, isZero⟩ | ⟨more, _, isGap⟩
    · rw [isZero]
    · have ordered := order.arrivalOf_mono (Nat.le_of_lt reached) more
      omega
  have stillNotRR : handled.currentStrategy ≠ .RR := by
    rw [admitted.input.strategy]
    exact notRR
  let ti : TimerInfo :=
    { timeUnit := timeUnit
      arrivalRemaining := timespecMultiply timeUnit untilNext
      timesliceRemaining := loop.timer.timesliceRemaining }
  have updated : updateArrivalRemaining loop.timer untilNext = .ok ti := by
    rw [updateArrivalRemaining, nonnegative, ok_bind, isUnit]
    rfl
  have set : setTimer handled ti = .ok (timespecMultiply timeUnit untilNext) := by
    rw [setTimer, itValue, if_pos stillNotRR]
    exact timerSettime_gap unit gap
  refine ⟨_, loopBody_of_arrival notRR arrives updated set ended, rfl, ?_, ?_⟩
  · have laterNotRR : later.currentStrategy ≠ .RR := keeps.strategy ▸ stillNotRR
    rw [timed_other laterNotRR]
    refine ⟨rfl, ?_⟩
    change if later.arrivalPtr < entries.length then _ else _
    rw [keeps.arrivalPtr, expiresAt_gap unit time gap]
    rcases next with ⟨all, isZero⟩ | ⟨more, someGap, isGap⟩
    · rw [if_neg (by omega), if_pos isZero]
    · rw [if_pos more, if_neg someGap]
      refine ⟨assertNonnegetiveRemaining_gap unit gap, ?_⟩
      rw [Option.some.inj isTime, isGap, Int.sub_mul]
      congr 1
      omega
  · intro deadline isDeadline
    have distance := Int.mul_nonneg gap (Int.le_of_lt unit.positive)
    rw [expiresAt_gap unit time gap] at isDeadline
    split at isDeadline
    · cases isDeadline
    · rw [← Option.some.inj isDeadline]
      omega

/-- This is not the end of a slice. -/
def OffSlice (units : Int) : Prop := 0 < units → ¬ RR_TIMES_OF_UNIT ∣ units

theorem OffSlice.ne {units : Int} (offSlice : OffSlice units) (slices : Nat) :
    units ≠ RR_TIMES_OF_UNIT * (slices + 1) := by
  rintro rfl
  apply offSlice
  · unfold RR_TIMES_OF_UNIT
    omega
  · exact Int.dvd_mul_right _ _

theorem nextUnits_of_tie {slices : Nat} (pending : c.arrivalPtr < entries.length)
    (tie : arrivalOf entries c.arrivalPtr = RR_TIMES_OF_UNIT * (slices + 1)) :
    nextUnits entries c slices = arrivalOf entries c.arrivalPtr := by
  rw [nextUnits, if_pos pending, ← tie, min_self]

/-- Under RR the deadline is the next arrival or slice end, and so is the
deadline after it, unless both come at once. -/
theorem ticking_alarm (fork : Core → ProcessPtr → Int) (order : ArrivalOrder entries)
    (unit : UsableUnit timeUnit) {units : Int} {slices : Nat}
    (ticking : Ticking entries timeUnit loop units slices)
    (untied : loop.core.arrivalPtr < entries.length →
      arrivalOf entries loop.core.arrivalPtr ≠ RR_TIMES_OF_UNIT * (slices + 1)) {time : Int}
    (isTime : time = nextUnits entries loop.core slices * nanoseconds timeUnit) :
    ∃ next stopped slices' made,
      loopBody fork { loop with eventType := .timerExpired } = .ok (next, stopped) ∧
      Ticking entries timeUnit next (nextUnits entries loop.core slices) slices' ∧
      RR.Fired entries loop.core next.core slices made next.eventType slices'
        (nextUnits entries loop.core slices) ∧
      time < nextUnits entries next.core slices' * nanoseconds timeUnit ∧
      expiresAt time next.itValue =
        some (nextUnits entries next.core slices' * nanoseconds timeUnit) := by
  obtain ⟨next, stopped, slices', made, ended, ticking', armed, _, fired, _⟩ :=
    RR.loopBody_timer fork order unit ticking
  have ahead := fired.ahead ticking' untied
  have positive : 0 < nanoseconds next.itValue := by
    rw [armed.distance]
    exact Int.mul_pos (by omega) unit.positive
  have notZero : ¬ timspecIsZero next.itValue = true := by
    rw [armed.normalized.isZero_iff]
    omega
  have later : time + nanoseconds next.itValue =
      nextUnits entries next.core slices' * nanoseconds timeUnit := by
    rw [armed.distance, isTime, Int.sub_mul]
    omega
  refine ⟨next, stopped, slices', made, ended, ticking', fired, by omega, ?_⟩
  rw [expiresAt, if_neg notZero, later]

theorem Timed.alarm_rr (fork : Core → ProcessPtr → Int) (order : ArrivalOrder entries)
    (unit : UsableUnit timeUnit) (isRR : loop.core.currentStrategy = .RR) {time : Int}
    (timed : Timed entries timeUnit loop (some time))
    (untied : loop.core.arrivalPtr < entries.length →
      arrivalOf entries loop.core.arrivalPtr * nanoseconds timeUnit = time →
      OffSlice (arrivalOf entries loop.core.arrivalPtr)) :
    ∃ next stopped handled untilNext,
      loopBody fork { loop with eventType := .timerExpired } = .ok (next, stopped) ∧
      Expiry fork loop.core next.eventType handled untilNext ∧
      endIteration handled = .ok (next.core, stopped) ∧
      Timed entries timeUnit next (expiresAt time next.itValue) ∧
      (∀ deadline ∈ expiresAt time next.itValue, time ≤ deadline) ∧
      (next.eventType = .processArrival → loop.core.arrivalPtr < entries.length ∧
        time = arrivalOf entries loop.core.arrivalPtr * nanoseconds timeUnit) := by
  obtain ⟨units, slices, ticking, isTime⟩ := (timed_rr isRR).mp timed
  have apart : loop.core.arrivalPtr < entries.length →
      arrivalOf entries loop.core.arrivalPtr ≠ RR_TIMES_OF_UNIT * (slices + 1) := by
    intro pending tie
    have isDue := Option.some.inj isTime
    rw [nextUnits_of_tie pending tie] at isDue
    exact (untied pending isDue.symm).ne slices tie
  obtain ⟨next, stopped, slices', made, ended, ticking', fired, ahead, expires⟩ :=
    ticking_alarm fork order unit ticking apart (Option.some.inj isTime)
  obtain ⟨handled, untilNext, happened, switched⟩ := expiry_of_loopBody ended
  have stillRR : next.core.currentStrategy = .RR := by
    obtain ⟨queue, queued⟩ := ticking'.queued
    exact queued.strategy
  refine ⟨next, stopped, handled, untilNext, ended, happened, switched, ?_, ?_, ?_⟩
  · rw [timed_rr stillRR]
    exact ⟨_, slices', ticking', expires⟩
  · intro deadline isDeadline
    rw [expires] at isDeadline
    rw [← Option.some.inj isDeadline]
    exact Int.le_of_lt ahead
  · intro isArrival
    rw [isArrival] at fired
    generalize due : nextUnits entries loop.core slices = when at *
    cases fired with
    | arrival _ further inRange _ _ _ =>
        exact ⟨Nat.lt_of_lt_of_le further inRange, Option.some.inj isTime⟩

/-! ### The start -/

/-- The deadline that `create_timer_and_init_timespec` leaves. -/
def firstDeadline (created : LoopState × Bool) : Option Int :=
  if created.2 then some 0 else expiresAt 0 created.1.itValue

theorem createTimer_timed (order : ArrivalOrder entries) (unit : UsableUnit timeUnit)
    (strategy : ScheduleStrategy) (garbage : Nat → Option ProcessPtr) :
    ∃ created, createTimer (initCore strategy entries garbage) timeUnit = .ok created ∧
      created.1.core = initCore strategy entries garbage ∧
      Timed entries timeUnit created.1 (firstDeadline created) := by
  by_cases isRR : strategy = .RR
  · subst isRR
    obtain ⟨initial, started, onTime, _⟩ := RR.clockedStart_onTime order unit garbage
    rw [RR.clockedStart] at started
    obtain ⟨created, creating, started⟩ := bind_eq_ok started
    cases Except.ok.inj started
    have isCore : created.1.core = initCore .RR entries garbage := by
      rw [createTimer] at creating
      obtain ⟨_, _, creating⟩ := bind_eq_ok creating
      obtain ⟨_, _, creating⟩ := bind_eq_ok creating
      rw [← Except.ok.inj creating]
    refine ⟨created, creating, isCore, ?_⟩
    rw [timed_rr (by rw [isCore]; rfl)]
    exact ⟨0, 0, onTime.ticking, onTime.deadline⟩
  · have pending : 0 < entries.length := List.length_pos_iff.mpr order.nonempty
    have first := order.arrivalOf_nonneg pending
    let core := initCore strategy entries garbage
    let ti : TimerInfo :=
      { timeUnit := timeUnit
        arrivalRemaining := timespecMultiply timeUnit (arrivalOf entries 0)
        timesliceRemaining := zeroTimespec }
    have untilFirst : timeunitsUntilNextArrival core = .ok (arrivalOf entries 0) := by
      have notEmpty : arrivalQueueEmpty core = false :=
        beq_eq_false_iff_ne.mpr (Nat.ne_of_lt pending)
      rw [timeunitsUntilNextArrival, notEmpty]
      rfl
    have noSlices : initTimesliceRemaining core ti = ti := if_pos isRR
    have set : setTimer core ti = .ok ti.arrivalRemaining := by
      rw [setTimer, itValue, if_pos (show core.currentStrategy ≠ .RR from isRR)]
      exact timerSettime_gap unit first
    refine ⟨(⟨core, ti, ti.arrivalRemaining, .timerExpired⟩, arrivalOf entries 0 == 0),
      ?_, rfl, ?_⟩
    · rw [createTimer, untilFirst, ok_bind]
      change (setTimer core (initTimesliceRemaining core ti) >>= _) = _
      rw [noSlices, set]
      rfl
    · rw [timed_other (show core.currentStrategy ≠ .RR from isRR)]
      refine ⟨rfl, ?_⟩
      change if 0 < entries.length then _ else _
      rw [if_pos pending, firstDeadline, expiresAt_gap unit 0 first]
      refine ⟨assertNonnegetiveRemaining_gap unit first, ?_⟩
      change _ = some (arrivalOf entries 0 * nanoseconds timeUnit)
      by_cases immediate : arrivalOf entries 0 = 0
      · rw [if_pos (beq_iff_eq.mpr immediate), immediate, Int.zero_mul]
      · rw [if_neg (fun isZero => immediate (beq_iff_eq.mp isZero)), if_neg immediate,
          Int.zero_add]

end UserScheduler
