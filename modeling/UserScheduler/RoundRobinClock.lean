/-
Runs of the RR loop against an exact clock.

A timer that was set to a positive value expires exactly that much later; one
that was set to zero never does.  The SIGALRM raised for a first arrival at time
zero counts as an expiry at time zero.  Terminations may fall anywhere between
two expiries.  Every timer event is logged with its time, its reason and the
processes it added, and the log is compared with two independent timers.
-/

import UserScheduler.RoundRobinTimer

namespace UserScheduler.RR

open Machines

structure TimerEvent where
  time : Int
  reason : EventType
  added : List ProcessPtr
deriving DecidableEq, Repr

/-- Times are nanoseconds since the timer was created. -/
structure Clocked where
  loop : LoopState
  stopped : Bool
  now : Int
  deadline : Option Int
  log : List TimerEvent

inductive ClockEvent where
  | timer
  | child (process : ProcessPtr) (time : Int)
deriving DecidableEq

/-- A timer set to zero is disarmed. -/
def expiresAt (now : Int) (value : Timespec) : Option Int :=
  if timspecIsZero value then none else some (now + nanoseconds value)

def clockedStep (fork : Core → ProcessPtr → Int) (s : Clocked) : ClockEvent → Result Clocked
  | .timer =>
      match s.deadline with
      | none => return s
      | some time => do
          let ended ← loopBody fork { s.loop with eventType := .timerExpired }
          return {
            loop := ended.1
            stopped := ended.2
            now := time
            deadline := expiresAt time ended.1.itValue
            log := s.log ++ [{
              time := time
              reason := ended.1.eventType
              added := addedProcesses (ended.1.core.calls.drop s.loop.core.calls.length) }] }
  | .child _ time => do
      let ended ← loopBody fork { s.loop with eventType := .childTerminated }
      return { s with loop := ended.1, stopped := ended.2, now := time }

def clockedMachine (fork : Core → ProcessPtr → Int) : Machine Clocked ClockEvent Fault where
  enabled s event := s.stopped = false ∧
    match event with
    | .timer => s.deadline.isSome = true
    | .child process time =>
        s.loop.core.RunsUnder process s.loop.core.currentStrategy ∧ s.now ≤ time ∧
          ∀ deadline ∈ s.deadline, time ≤ deadline
  step := clockedStep fork

instance (fork : Core → ProcessPtr → Int) (s : Clocked) (event : ClockEvent) :
    Decidable ((clockedMachine fork).enabled s event) :=
  match event with
  | .timer => inferInstanceAs (Decidable (_ ∧ s.deadline.isSome = true))
  | .child _ _ => inferInstanceAs (Decidable (_ ∧ _ ∧ _ ∧ _))

def clockedStart (entries : List Entry) (garbage : Nat → Option ProcessPtr)
    (timeUnit : Timespec) : Result Clocked := do
  let created ← createTimer (initCore .RR entries garbage) timeUnit
  return {
    loop := created.1
    stopped := false
    now := 0
    deadline := if created.2 then some 0 else expiresAt 0 created.1.itValue
    log := [] }

/-! ### Two independent timers -/

/-- The end of the slice with this number. -/
def sliceEvent (timeUnit : Timespec) (slice : Nat) : TimerEvent :=
  { time := RR_TIMES_OF_UNIT * slice * nanoseconds timeUnit
    reason := .timesliceOver
    added := [] }

/-- The arrival of every process with this arrival time, in input order. -/
def arrivalEvent (entries : List Entry) (timeUnit : Timespec) (arrivalTime : Int) : TimerEvent :=
  { time := arrivalTime * nanoseconds timeUnit
    reason := .processArrival
    added := (List.range entries.length).filter fun process =>
      arrivalOf entries process = arrivalTime }

/-- What two independent timers would raise: slice ends for ever, and one event
for each distinct arrival time. -/
def Due (entries : List Entry) (timeUnit : Timespec) (event : TimerEvent) : Prop :=
  (∃ slice, 0 < slice ∧ event = sliceEvent timeUnit slice) ∨
    ∃ entry ∈ entries, event = arrivalEvent entries timeUnit entry.arrivalTime

variable {entries : List Entry} {timeUnit : Timespec} {fork : Core → ProcessPtr → Int}
  {c later : Core} {units : Int} {slices : Nat}

/-- A group of equal arrival times is a block of the sorted input. -/
theorem filter_arrival_eq (order : ArrivalOrder entries) {first last : Nat} (someIn : first < last)
    (inRange : last ≤ entries.length)
    (earlier : ∀ process, process < first →
      arrivalOf entries process < arrivalOf entries first)
    (together : ∀ process, first ≤ process → process < last →
      arrivalOf entries process = arrivalOf entries first)
    (after : last < entries.length → arrivalOf entries first < arrivalOf entries last) :
    (List.range entries.length).filter
        (fun process => arrivalOf entries process = arrivalOf entries first) =
      List.range' first (last - first) := by
  have split : List.range entries.length = List.range first ++
      (List.range' first (last - first) ++ List.range' last (entries.length - last)) := by
    have inner := List.range'_append_1 (s := first) (m := last - first)
      (n := entries.length - last)
    have outer := List.range'_append_1 (s := 0) (m := first) (n := entries.length - first)
    rw [show first + (last - first) = last by omega,
      show last - first + (entries.length - last) = entries.length - first by omega] at inner
    rw [Nat.zero_add, show first + (entries.length - first) = entries.length by omega] at outer
    rw [inner, List.range_eq_range', List.range_eq_range', outer]
  have none₁ : (List.range first).filter
      (fun process => arrivalOf entries process = arrivalOf entries first) = [] := by
    rw [List.filter_eq_nil_iff]
    intro process member same
    have less := earlier process (List.mem_range.mp member)
    rw [of_decide_eq_true same] at less
    exact Int.lt_irrefl _ less
  have all : (List.range' first (last - first)).filter
      (fun process => arrivalOf entries process = arrivalOf entries first) =
        List.range' first (last - first) := by
    rw [List.filter_eq_self]
    intro process member
    obtain ⟨lower, upper⟩ := List.mem_range'_1.mp member
    exact decide_eq_true (together process lower (by omega))
  have none₂ : (List.range' last (entries.length - last)).filter
      (fun process => arrivalOf entries process = arrivalOf entries first) = [] := by
    rw [List.filter_eq_nil_iff]
    intro process member same
    obtain ⟨lower, upper⟩ := List.mem_range'_1.mp member
    have less := after (by omega)
    have ordered := order.arrivalOf_mono lower
      (Nat.lt_of_lt_of_eq upper (Nat.add_sub_cancel' inRange))
    rw [of_decide_eq_true same] at ordered
    omega
  rw [split, List.filter_append, List.filter_append, none₁, all, none₂, List.nil_append,
    List.append_nil]

/-- When no arrival ties with a slice end, the next event is ahead. -/
theorem Fired.ahead {slices' : Nat} {made : List Call} {reason : EventType} {s t : LoopState}
    (ticking : Ticking entries timeUnit t (nextUnits entries s.core slices) slices')
    (fired : Fired entries s.core t.core slices made reason slices'
      (nextUnits entries s.core slices))
    (noTie : s.core.arrivalPtr < entries.length →
      arrivalOf entries s.core.arrivalPtr ≠ RR_TIMES_OF_UNIT * (slices + 1)) :
    nextUnits entries s.core slices < nextUnits entries t.core slices' := by
  have sliceAhead := ticking.countdowns.sliceAhead
  have arrivalAhead := ticking.countdowns.arrivalAhead
  generalize due : nextUnits entries s.core slices = when at *
  unfold nextUnits
  split
  · rename_i more
    refine lt_min (lt_of_le_of_ne (arrivalAhead more) ?_) sliceAhead
    intro tie
    cases fired with
    | slice samePtr _ =>
        rw [samePtr] at tie more
        exact noTie more tie.symm
    | arrival _ _ _ _ next _ => exact absurd tie (Int.ne_of_lt (next more))
  · exact sliceAhead

/-! ### The invariant -/

/-- The events of two timers after `slices` slices and `arrivals` processes. -/
def Logged (entries : List Entry) (timeUnit : Timespec) (slices arrivals : Nat)
    (event : TimerEvent) : Prop :=
  (∃ slice, 0 < slice ∧ slice ≤ slices ∧ event = sliceEvent timeUnit slice) ∨
    ∃ process, process < arrivals ∧
      event = arrivalEvent entries timeUnit (arrivalOf entries process)

/-- A timer event adds exactly the event that is due. -/
theorem Fired.logged_iff (order : ArrivalOrder entries) {made : List Call} {reason : EventType}
    {slices' : Nat} {due : Int} (fired : Fired entries c later slices made reason slices' due)
    (earlier : c.arrivalPtr < entries.length → ∀ process, process < c.arrivalPtr →
      arrivalOf entries process < arrivalOf entries c.arrivalPtr) (event : TimerEvent) :
    Logged entries timeUnit slices' later.arrivalPtr event ↔
      Logged entries timeUnit slices c.arrivalPtr event ∨
        event = ⟨due * nanoseconds timeUnit, reason, addedProcesses made⟩ := by
  cases fired with
  | slice samePtr added =>
      have isNew : (⟨RR_TIMES_OF_UNIT * (slices + 1) * nanoseconds timeUnit, .timesliceOver,
          addedProcesses made⟩ : TimerEvent) = sliceEvent timeUnit (slices + 1) := by
        rw [added]
        rfl
      rw [samePtr, isNew]
      constructor
      · rintro (⟨slice, positive, bounded, isSlice⟩ | isArrival)
        · rcases Nat.lt_or_ge slices slice with last | old
          · rw [show slice = slices + 1 by omega] at isSlice
            exact Or.inr isSlice
          · exact Or.inl (Or.inl ⟨slice, positive, old, isSlice⟩)
        · exact Or.inl (Or.inr isArrival)
      · rintro ((⟨slice, positive, bounded, isSlice⟩ | isArrival) | isLast)
        · exact Or.inl ⟨slice, positive, by omega, isSlice⟩
        · exact Or.inr isArrival
        · exact Or.inl ⟨slices + 1, by omega, Nat.le_refl _, isLast⟩
  | arrival _ further inRange together next added =>
      have isNew : (⟨arrivalOf entries c.arrivalPtr * nanoseconds timeUnit, .processArrival,
          addedProcesses made⟩ : TimerEvent) =
          arrivalEvent entries timeUnit (arrivalOf entries c.arrivalPtr) := by
        have pending := Nat.lt_of_lt_of_le further inRange
        rw [added, ← filter_arrival_eq order further inRange (earlier pending) together next]
        rfl
      rw [isNew]
      constructor
      · rintro (isSlice | ⟨process, before, isArrival⟩)
        · exact Or.inl (Or.inl isSlice)
        · rcases Nat.lt_or_ge process c.arrivalPtr with old | inGroup
          · exact Or.inl (Or.inr ⟨process, old, isArrival⟩)
          · rw [together process inGroup before] at isArrival
            exact Or.inr isArrival
      · rintro ((isSlice | ⟨process, old, isArrival⟩) | isLast)
        · exact Or.inl isSlice
        · exact Or.inr ⟨process, Nat.lt_trans old further, isArrival⟩
        · exact Or.inr ⟨c.arrivalPtr, further, isLast⟩

theorem Fired.counted {made : List Call} {reason : EventType} {slices' : Nat} {due : Int}
    (fired : Fired entries c later slices made reason slices' due) :
    slices' = slices + if reason = .timesliceOver then 1 else 0 := by
  cases fired with
  | slice _ _ => rfl
  | arrival _ _ _ _ _ _ => rfl

/-- The loop is where two independent timers would have brought it. -/
structure OnTime (entries : List Entry) (timeUnit : Timespec) (s : Clocked) (units : Int)
    (slices : Nat) : Prop where
  ticking : Ticking entries timeUnit s.loop units slices
  deadline : s.deadline =
    some (nextUnits entries s.loop.core slices * nanoseconds timeUnit)
  after : units * nanoseconds timeUnit ≤ s.now
  before : s.now ≤ nextUnits entries s.loop.core slices * nanoseconds timeUnit
  armed : s.log ≠ [] → Armed entries timeUnit s.loop units slices ∧
    units < nextUnits entries s.loop.core slices
  log : ∀ event, event ∈ s.log ↔
    Logged entries timeUnit slices s.loop.core.arrivalPtr event
  ordered : s.log.Pairwise fun first second => first.time < second.time
  counted : s.log.countP (fun event => event.reason = .timesliceOver) = slices
  last : (s.log.getLast?.map TimerEvent.time).getD 0 = units * nanoseconds timeUnit

variable {s : Clocked}

theorem Logged.time_le (unit : UsableUnit timeUnit) {ti : TimerInfo} {event : TimerEvent}
    (countdowns : Countdowns entries timeUnit c ti units slices)
    (logged : Logged entries timeUnit slices c.arrivalPtr event) :
    event.time ≤ units * nanoseconds timeUnit := by
  have positive := Int.le_of_lt unit.positive
  rcases logged with ⟨slice, _, bounded, rfl⟩ | ⟨process, before, rfl⟩
  · apply Int.mul_le_mul_of_nonneg_right _ positive
    have done := countdowns.slicesDone
    unfold RR_TIMES_OF_UNIT at *
    omega
  · exact Int.mul_le_mul_of_nonneg_right (countdowns.arrivalsDone process before) positive

theorem nextUnits_le_arrival (pending : c.arrivalPtr < entries.length) :
    nextUnits entries c slices ≤ arrivalOf entries c.arrivalPtr := by
  rw [nextUnits, if_pos pending]
  exact min_le_left _ _

theorem nextUnits_le_slice : nextUnits entries c slices ≤ RR_TIMES_OF_UNIT * (slices + 1) := by
  unfold nextUnits
  split
  · exact min_le_right _ _
  · exact Int.le_refl _

/-- A timer event may always come next. -/
theorem OnTime.timer_enabled (onTime : OnTime entries timeUnit s units slices)
    (waiting : s.stopped = false) : (clockedMachine fork).enabled s .timer := by
  refine ⟨waiting, ?_⟩
  change s.deadline.isSome = true
  rw [onTime.deadline]
  rfl

/-- Before the first timer event nothing has arrived; after one, everything
that has arrived did so before the next event. -/
theorem OnTime.earlier (onTime : OnTime entries timeUnit s units slices)
    (pending : s.loop.core.arrivalPtr < entries.length) :
    ∀ process, process < s.loop.core.arrivalPtr →
      arrivalOf entries process < arrivalOf entries s.loop.core.arrivalPtr := by
  intro process before
  have handled : s.log ≠ [] := by
    apply List.ne_nil_of_mem
    exact (onTime.log _).mpr (Or.inr ⟨process, before, rfl⟩)
  have ahead := (onTime.armed handled).2
  have done := onTime.ticking.countdowns.arrivalsDone process before
  have next : nextUnits entries s.loop.core slices ≤ _ := nextUnits_le_arrival pending
  omega

/-! ### One event -/

theorem timer_onTime (fork : Core → ProcessPtr → Int) (order : ArrivalOrder entries)
    (unit : UsableUnit timeUnit) (onTime : OnTime entries timeUnit s units slices)
    (noTie : s.loop.core.arrivalPtr < entries.length →
      arrivalOf entries s.loop.core.arrivalPtr ≠ RR_TIMES_OF_UNIT * (slices + 1)) :
    ∃ next slices' made, clockedStep fork s .timer = .ok next ∧
      OnTime entries timeUnit next (nextUnits entries s.loop.core slices) slices' ∧
      Fired entries s.loop.core next.loop.core slices made next.loop.eventType slices'
        (nextUnits entries s.loop.core slices) ∧
      (next.stopped = true → next.loop.core.arrivalPtr = entries.length) := by
  obtain ⟨loop, breaks, slices', made, ended, ticking, armed, calls, fired, breaksLast⟩ :=
    loopBody_timer fork order unit onTime.ticking
  have ahead := fired.ahead ticking noTie
  let due := nextUnits entries s.loop.core slices * nanoseconds timeUnit
  let event : TimerEvent := ⟨due, loop.eventType, addedProcesses made⟩
  have added : addedProcesses (loop.core.calls.drop s.loop.core.calls.length) =
      addedProcesses made := by
    rw [calls, List.drop_left]
  have positive : 0 < nanoseconds loop.itValue := by
    rw [armed.distance]
    exact Int.mul_pos (by omega) unit.positive
  have expires : expiresAt due loop.itValue =
      some (nextUnits entries loop.core slices' * nanoseconds timeUnit) := by
    have notZero : ¬ timspecIsZero loop.itValue = true := by
      rw [armed.normalized.isZero_iff]
      omega
    rw [expiresAt, if_neg notZero, armed.distance, Int.sub_mul]
    congr 1
    omega
  have earlierTimes : ∀ old ∈ s.log, old.time < due := by
    intro old member
    have late := (onTime.armed (List.ne_nil_of_mem member)).2
    have handled := Logged.time_le unit onTime.ticking.countdowns ((onTime.log old).mp member)
    exact Int.lt_of_le_of_lt handled (Int.mul_lt_mul_of_pos_right late unit.positive)
  refine ⟨⟨loop, breaks, due, expiresAt due loop.itValue, s.log ++ [event]⟩, slices', made,
    ?_, ?_, fired, breaksLast⟩
  · simp only [clockedStep, onTime.deadline, ended, ok_bind, added]
    rfl
  · exact
      { ticking := ticking
        deadline := expires
        after := Int.le_refl _
        before := Int.mul_le_mul_of_nonneg_right (Int.le_of_lt ahead) (Int.le_of_lt unit.positive)
        armed := fun _ => ⟨armed, ahead⟩
        log := by
          intro other
          rw [fired.logged_iff order onTime.earlier other, ← onTime.log other, List.mem_append,
            List.mem_singleton]
        ordered := by
          rw [List.pairwise_append]
          refine ⟨onTime.ordered, List.pairwise_singleton _ _, ?_⟩
          intro old member new isNew
          rw [List.mem_singleton.mp isNew]
          exact earlierTimes old member
        counted := by
          rw [List.countP_append, onTime.counted, List.countP_singleton, fired.counted]
          simp only [event, decide_eq_true_eq]
        last := by
          rw [List.getLast?_concat]
          rfl }

theorem child_onTime (fork : Core → ProcessPtr → Int)
    (onTime : OnTime entries timeUnit s units slices) {process : ProcessPtr} {time : Int}
    (allowed : (clockedMachine fork).enabled s (.child process time)) :
    ∃ next, clockedStep fork s (.child process time) = .ok next ∧
      OnTime entries timeUnit next units slices := by
  obtain ⟨_, runs, after, before⟩ := allowed
  obtain ⟨loop, breaks, ended, ticking, sameValue, samePtr⟩ :=
    loopBody_child fork onTime.ticking runs
  have sameNext : nextUnits entries loop.core slices = nextUnits entries s.loop.core slices := by
    rw [nextUnits, samePtr]
    rfl
  refine ⟨{ s with loop := loop, stopped := breaks, now := time }, ?_, ?_⟩
  · simp only [clockedStep, ended, ok_bind]
    rfl
  · exact
      { ticking := ticking
        deadline := by rw [sameNext]; exact onTime.deadline
        after := Int.le_trans onTime.after after
        before := by
          rw [sameNext]
          apply before
          rw [onTime.deadline]
          rfl
        armed := by
          intro handled
          obtain ⟨armed, ahead⟩ := onTime.armed handled
          rw [sameNext]
          refine ⟨⟨by rw [sameValue]; exact armed.normalized, ?_⟩, ahead⟩
          rw [sameValue, sameNext]
          exact armed.distance
        log := by
          intro event
          rw [samePtr]
          exact onTime.log event
        ordered := onTime.ordered
        counted := onTime.counted
        last := onTime.last }

/-- The countdowns as `create_timer_and_init_timespec` sets them. -/
def startTimer (entries : List Entry) (timeUnit : Timespec) : TimerInfo :=
  { timeUnit := timeUnit
    arrivalRemaining := timespecMultiply timeUnit (arrivalOf entries 0)
    timesliceRemaining := timespecMultiply timeUnit RR_TIMES_OF_UNIT }

theorem startTimer_countdowns (order : ArrivalOrder entries) (unit : UsableUnit timeUnit)
    (garbage : Nat → Option ProcessPtr) :
    Countdowns entries timeUnit (initCore .RR entries garbage) (startTimer entries timeUnit)
      0 0 := by
  have firstNonneg := order.arrivalOf_nonneg (List.length_pos_iff.mpr order.nonempty)
  obtain ⟨arrivalNormalized, arrival⟩ := timespecMultiply_spec unit.normalized firstNonneg
  obtain ⟨sliceNormalized, slice⟩ :=
    timespecMultiply_spec unit.normalized (by decide : 0 ≤ RR_TIMES_OF_UNIT)
  exact
    { unit := rfl
      sliceNormalized := sliceNormalized
      slice := slice
      arrivalNormalized := arrivalNormalized
      arrival := by
        intro _
        rw [Int.sub_zero]
        exact arrival
      slicesDone := Int.le_refl 0
      sliceAhead := by decide
      arrivalsDone := fun _ impossible => absurd impossible (Nat.not_lt_zero _)
      arrivalAhead := fun _ => firstNonneg }

theorem createTimer_eq (order : ArrivalOrder entries) (garbage : Nat → Option ProcessPtr)
    {value : Timespec}
    (set : setTimer (initCore .RR entries garbage) (startTimer entries timeUnit) = .ok value) :
    createTimer (initCore .RR entries garbage) timeUnit =
      .ok (⟨initCore .RR entries garbage, startTimer entries timeUnit, value, .timerExpired⟩,
        arrivalOf entries 0 == 0) := by
  have nonempty : 0 < entries.length := List.length_pos_iff.mpr order.nonempty
  have first : timeunitsUntilNextArrival (initCore .RR entries garbage) =
      .ok (arrivalOf entries 0) := by
    have notEmpty : arrivalQueueEmpty (initCore .RR entries garbage) = false :=
      beq_eq_false_iff_ne.mpr (Nat.ne_of_lt nonempty)
    rw [timeunitsUntilNextArrival, notEmpty]
    rfl
  rw [createTimer, first, ok_bind]
  change (setTimer (initCore .RR entries garbage) (startTimer entries timeUnit) >>= _) = _
  rw [set]
  rfl

/-- The first expiry is raised at time zero or comes from the timer. -/
theorem start_deadline (order : ArrivalOrder entries) (unit : UsableUnit timeUnit)
    {value : Timespec} (normalized : Normalized value) {next : Int}
    (isNext : next = min (arrivalOf entries 0) RR_TIMES_OF_UNIT)
    (distance : nanoseconds value = next * nanoseconds timeUnit) :
    (if (arrivalOf entries 0 == 0) = true then some 0 else expiresAt 0 value) =
      some (next * nanoseconds timeUnit) := by
  have firstNonneg := order.arrivalOf_nonneg (List.length_pos_iff.mpr order.nonempty)
  split
  · rename_i isZero
    rw [isNext, beq_iff_eq.mp isZero]
    exact congrArg some (Int.zero_mul _).symm
  · rename_i notZero
    have positive : 0 < next := by
      have different : arrivalOf entries 0 ≠ 0 := fun isZero => notZero (beq_iff_eq.mpr isZero)
      rw [isNext]
      exact lt_min (by omega) (by decide)
    have armed : ¬ timspecIsZero value = true := by
      have product := Int.mul_pos positive unit.positive
      rw [normalized.isZero_iff, distance]
      omega
    rw [expiresAt, if_neg armed, distance, Int.zero_add]

/-- The timer starts on the first arrival or on the first slice end. -/
theorem clockedStart_onTime (order : ArrivalOrder entries) (unit : UsableUnit timeUnit)
    (garbage : Nat → Option ProcessPtr) :
    ∃ initial, clockedStart entries garbage timeUnit = .ok initial ∧
      OnTime entries timeUnit initial 0 0 ∧ initial.loop.core.arrivalPtr = 0 ∧
      initial.stopped = false := by
  have nonempty : 0 < entries.length := List.length_pos_iff.mpr order.nonempty
  have queued : Queued (initCore .RR entries garbage) [] := start_queued entries garbage
  have reads : Reads entries (initCore .RR entries garbage) := ⟨rfl, fun _ => rfl⟩
  have countdowns := startTimer_countdowns order unit garbage
  obtain ⟨value, set, normalized, distance⟩ := countdowns.setTimer_eq unit reads queued
  rw [Int.sub_zero] at distance
  have isNext : nextUnits entries (initCore .RR entries garbage) 0 =
      min (arrivalOf entries 0) RR_TIMES_OF_UNIT := if_pos nonempty
  refine ⟨⟨⟨initCore .RR entries garbage, startTimer entries timeUnit, value, .timerExpired⟩,
    false, 0, if (arrivalOf entries 0 == 0) = true then some 0 else expiresAt 0 value, []⟩,
    ?_, ?_, rfl, rfl⟩
  · rw [clockedStart, createTimer_eq order garbage set]
    rfl
  · exact
      { ticking := ⟨reads, ⟨[], queued⟩, countdowns⟩
        deadline := start_deadline order unit normalized isNext distance
        after := Int.le_of_eq (Int.zero_mul _)
        before := by
          apply Int.mul_nonneg _ (Int.le_of_lt unit.positive)
          change 0 ≤ nextUnits entries (initCore .RR entries garbage) 0
          rw [isNext]
          exact le_min (order.arrivalOf_nonneg nonempty) (by decide)
        armed := fun impossible => absurd rfl impossible
        log := by
          intro event
          constructor
          · intro impossible
            cases impossible
          · rintro (⟨slice, positive, bounded, _⟩ | ⟨process, before, _⟩)
            · omega
            · exact absurd before (Nat.not_lt_zero _)
        ordered := List.Pairwise.nil
        counted := rfl
        last := (Int.zero_mul _).symm }

theorem started_onTime (order : ArrivalOrder entries) (unit : UsableUnit timeUnit)
    {garbage : Nat → Option ProcessPtr} {initial : Clocked}
    (created : clockedStart entries garbage timeUnit = .ok initial) :
    OnTime entries timeUnit initial 0 0 := by
  obtain ⟨found, same, onTime, _⟩ := clockedStart_onTime order unit garbage
  exact Except.ok.inj (same.symm.trans created) ▸ onTime

/-! ### Runs -/

theorem clockedStep_onTime (order : ArrivalOrder entries) (free : OffSlices entries)
    (unit : UsableUnit timeUnit) (onTime : OnTime entries timeUnit s units slices)
    {event : ClockEvent} (allowed : (clockedMachine fork).enabled s event) :
    ∃ next units' slices', clockedStep fork s event = .ok next ∧
      OnTime entries timeUnit next units' slices' := by
  cases event with
  | timer =>
      obtain ⟨next, slices', _, stepped, onTime', _⟩ := timer_onTime fork order unit onTime
        (fun pending => free.arrivalOf_ne pending slices)
      exact ⟨next, _, slices', stepped, onTime'⟩
  | child process time =>
      obtain ⟨next, stepped, onTime'⟩ := child_onTime fork onTime allowed
      exact ⟨next, units, slices, stepped, onTime'⟩

theorem run_onTime (order : ArrivalOrder entries) (free : OffSlices entries)
    (unit : UsableUnit timeUnit) {initial now : Clocked}
    (initially : OnTime entries timeUnit initial 0 0) {history : List ClockEvent}
    (run : (clockedMachine fork).Run initial history now) :
    ∃ units slices, OnTime entries timeUnit now units slices := by
  apply run.holds_of_progress (fun now => ∃ units slices, OnTime entries timeUnit now units slices)
    ⟨0, 0, initially⟩
  rintro now event ⟨units, slices, onTime⟩ allowed
  obtain ⟨next, units', slices', stepped, onTime'⟩ :=
    clockedStep_onTime order free unit onTime allowed
  exact ⟨next, stepped, units', slices', onTime'⟩

/-- The handler's countdowns, its timer and the log of its timer events, seen
from two independent timers.  `units` is the time of the last timer event and
`next` that of the next one. -/
structure TwoTimers (entries : List Entry) (timeUnit : Timespec) (s : Clocked) (units next : Int)
    (slices : Nat) : Prop where
  log : ∀ event, event ∈ s.log ↔
    Due entries timeUnit event ∧ event.time < next * nanoseconds timeUnit
  ordered : s.log.Pairwise fun first second => first.time < second.time
  deadline : s.deadline = some (next * nanoseconds timeUnit)
  between : units * nanoseconds timeUnit ≤ s.now ∧ s.now ≤ next * nanoseconds timeUnit
  last : (s.log.getLast?.map TimerEvent.time).getD 0 = units * nanoseconds timeUnit
  counted : s.log.countP (fun event => event.reason = .timesliceOver) = slices
  slice : Normalized s.loop.timer.timesliceRemaining ∧
    0 ≤ nanoseconds s.loop.timer.timesliceRemaining ∧
    nanoseconds s.loop.timer.timesliceRemaining =
      RR_TIMES_OF_UNIT * (slices + 1) * nanoseconds timeUnit - units * nanoseconds timeUnit
  arrival : s.loop.core.arrivalPtr < entries.length →
    Normalized s.loop.timer.arrivalRemaining ∧
      0 ≤ nanoseconds s.loop.timer.arrivalRemaining ∧
      nanoseconds s.loop.timer.arrivalRemaining =
        arrivalOf entries s.loop.core.arrivalPtr * nanoseconds timeUnit -
          units * nanoseconds timeUnit
  armed : s.log ≠ [] → Normalized s.loop.itValue ∧ 0 < nanoseconds s.loop.itValue ∧
    nanoseconds s.loop.itValue = next * nanoseconds timeUnit - units * nanoseconds timeUnit
  least : next = nextUnits entries s.loop.core slices

/-- The log holds what two timers would have raised before the deadline. -/
theorem OnTime.log_iff (order : ArrivalOrder entries) (unit : UsableUnit timeUnit)
    (onTime : OnTime entries timeUnit s units slices) (event : TimerEvent) :
    event ∈ s.log ↔ Due entries timeUnit event ∧
      event.time < nextUnits entries s.loop.core slices * nanoseconds timeUnit := by
  have within : s.loop.core.arrivalPtr ≤ entries.length := by
    obtain ⟨queue, queued⟩ := onTime.ticking.queued
    have bounded := queued.within
    rwa [onTime.ticking.reads.numProcess] at bounded
  constructor
  · intro member
    have ahead := (onTime.armed (List.ne_nil_of_mem member)).2
    have logged := (onTime.log event).mp member
    have handled := Logged.time_le unit onTime.ticking.countdowns logged
    refine ⟨?_, Int.lt_of_le_of_lt handled (Int.mul_lt_mul_of_pos_right ahead unit.positive)⟩
    rcases logged with ⟨slice, positive, _, isSlice⟩ | ⟨process, before, isArrival⟩
    · exact Or.inl ⟨slice, positive, isSlice⟩
    · have inRange : process < entries.length := Nat.lt_of_lt_of_le before within
      rw [arrivalOf_eq inRange] at isArrival
      exact Or.inr ⟨entries[process], List.getElem_mem inRange, isArrival⟩
  · rintro ⟨due, early⟩
    rw [onTime.log]
    rcases due with ⟨slice, positive, rfl⟩ | ⟨entry, member, rfl⟩
    · left
      refine ⟨slice, positive, ?_, rfl⟩
      have before : RR_TIMES_OF_UNIT * (slice : Int) < nextUnits entries s.loop.core slices :=
        Int.lt_of_mul_lt_mul_right early (Int.le_of_lt unit.positive)
      have bounded : nextUnits entries s.loop.core slices ≤ _ := nextUnits_le_slice
      unfold RR_TIMES_OF_UNIT at *
      omega
    · right
      obtain ⟨process, inRange, rfl⟩ := List.mem_iff_getElem.mp member
      refine ⟨process, ?_, by rw [arrivalOf_eq inRange]⟩
      have before : (entries[process]).arrivalTime < nextUnits entries s.loop.core slices :=
        Int.lt_of_mul_lt_mul_right early (Int.le_of_lt unit.positive)
      rw [← arrivalOf_eq inRange] at before
      by_contra notHandled
      have pending : s.loop.core.arrivalPtr < entries.length :=
        Nat.lt_of_le_of_lt (Nat.le_of_not_lt notHandled) inRange
      have ordered := order.arrivalOf_mono (Nat.le_of_not_lt notHandled) inRange
      have bounded : nextUnits entries s.loop.core slices ≤ _ := nextUnits_le_arrival pending
      omega

theorem OnTime.twoTimers (order : ArrivalOrder entries) (unit : UsableUnit timeUnit)
    (onTime : OnTime entries timeUnit s units slices) :
    TwoTimers entries timeUnit s units (nextUnits entries s.loop.core slices) slices := by
  have countdowns := onTime.ticking.countdowns
  have positive := Int.le_of_lt unit.positive
  exact
    { log := onTime.log_iff order unit
      ordered := onTime.ordered
      deadline := onTime.deadline
      between := ⟨onTime.after, onTime.before⟩
      last := onTime.last
      counted := onTime.counted
      slice := by
        have ahead := countdowns.sliceAhead
        refine ⟨countdowns.sliceNormalized, ?_, ?_⟩
        · rw [countdowns.slice]
          exact Int.mul_nonneg (by omega) positive
        · rw [countdowns.slice, Int.sub_mul]
      arrival := by
        intro pending
        have ahead := countdowns.arrivalAhead pending
        refine ⟨countdowns.arrivalNormalized, ?_, ?_⟩
        · rw [countdowns.arrival pending]
          exact Int.mul_nonneg (by omega) positive
        · rw [countdowns.arrival pending, Int.sub_mul]
      armed := by
        intro handled
        obtain ⟨armed, ahead⟩ := onTime.armed handled
        refine ⟨armed.normalized, ?_, ?_⟩
        · rw [armed.distance]
          exact Int.mul_pos (by omega) unit.positive
        · rw [armed.distance, Int.sub_mul]
      least := rfl }

/-- Off the slice ends, every run logs exactly the events of two independent
timers, at their times, and none of its events faults. -/
theorem one_timer_simulates_two (fork : Core → ProcessPtr → Int)
    (garbage : Nat → Option ProcessPtr) (order : ArrivalOrder entries)
    (free : OffSlices entries) (unit : UsableUnit timeUnit) :
    ∃ initial, clockedStart entries garbage timeUnit = .ok initial ∧
      (clockedMachine fork).Safe initial ∧
      ∀ history now, (clockedMachine fork).Run initial history now →
        ∃ units next slices, TwoTimers entries timeUnit now units next slices := by
  obtain ⟨initial, created, initially, _⟩ := clockedStart_onTime order unit garbage
  refine ⟨initial, created, ?_, ?_⟩
  · intro history now event run allowed
    obtain ⟨units, slices, onTime⟩ := run_onTime order free unit initially run
    obtain ⟨next, _, _, stepped, _⟩ := clockedStep_onTime order free unit onTime allowed
    exact ⟨next, stepped⟩
  · intro history now run
    obtain ⟨units, slices, onTime⟩ := run_onTime order free unit initially run
    exact ⟨units, _, slices, onTime.twoTimers order unit⟩

/-- Two processes at time zero and one in the middle of the second slice. -/
def betweenEntries : List Entry := [⟨0, 300⟩, ⟨0, 400⟩, ⟨700, 50⟩]

def millisecond : Timespec := { tvSec := 0, tvNsec := 1000000 }

theorem millisecond_usable : UsableUnit millisecond := ⟨⟨by decide, by decide⟩, by decide⟩

theorem one_timer_simulates_two_betweenEntries :
    ∃ initial now, clockedStart betweenEntries (fun _ => none) millisecond = .ok initial ∧
      (clockedMachine fun _ process => 100 + process).Run initial
        [.timer, .child 0 300000000, .timer, .timer] now ∧
      now.log = [⟨0, .processArrival, [0, 1]⟩, ⟨500000000, .timesliceOver, []⟩,
        ⟨700000000, .processArrival, [2]⟩] ∧
      ∃ units next slices, TwoTimers betweenEntries millisecond now units next slices := by
  obtain ⟨initial, created, _, holds⟩ := one_timer_simulates_two
    (fun _ process => 100 + process) (fun _ => none)
    (⟨by decide, by decide, by decide⟩ : ArrivalOrder betweenEntries) (by decide)
    millisecond_usable
  obtain ⟨now, run, logged⟩ : ∃ now, (clockedMachine fun _ process => 100 + process).Run initial
      [.timer, .child 0 300000000, .timer, .timer] now ∧
      now.log = [⟨0, .processArrival, [0, 1]⟩, ⟨500000000, .timesliceOver, []⟩,
        ⟨700000000, .processArrival, [2]⟩] := by
    cases Except.ok.inj created
    exact Machine.run_of_replay_map _ Clocked.log (by decide +kernel)
  exact ⟨initial, now, created, run, logged, holds _ _ run⟩

/-! ### Ties -/

/-- After a timer event the timer is armed as long as anything may still need
it. -/
def NeverDisarmed (fork : Core → ProcessPtr → Int) (entries : List Entry)
    (garbage : Nat → Option ProcessPtr) (timeUnit : Timespec) : Prop :=
  ∀ initial history now, clockedStart entries garbage timeUnit = .ok initial →
    (clockedMachine fork).Run initial (history ++ [.timer]) now →
    arrivalQueueEmpty now.loop.core = false ∨ 0 < now.loop.core.rr.processCount →
    0 < nanoseconds now.loop.itValue

theorem Fired.samePtr_of_tie {made : List Call} {reason : EventType} {slices' : Nat} {due : Int}
    (fired : Fired entries c later slices made reason slices' due)
    (tie : arrivalOf entries c.arrivalPtr = RR_TIMES_OF_UNIT * (slices + 1)) :
    later.arrivalPtr = c.arrivalPtr := by
  cases fired with
  | slice samePtr _ => exact samePtr
  | arrival first _ _ _ _ _ => exact absurd tie (Int.ne_of_lt first)

/-- A slice end that coincides with an arrival sets the timer to zero. -/
theorem timer_tie (fork : Core → ProcessPtr → Int) (order : ArrivalOrder entries)
    (unit : UsableUnit timeUnit) (onTime : OnTime entries timeUnit s units slices)
    (pending : s.loop.core.arrivalPtr < entries.length)
    (tie : arrivalOf entries s.loop.core.arrivalPtr = RR_TIMES_OF_UNIT * (slices + 1)) :
    ∃ next, clockedStep fork s .timer = .ok next ∧
      arrivalQueueEmpty next.loop.core = false ∧ nanoseconds next.loop.itValue = 0 := by
  obtain ⟨loop, breaks, slices', made, ended, ticking, armed, _, fired, _⟩ :=
    loopBody_timer fork order unit onTime.ticking
  have samePtr := fired.samePtr_of_tie tie
  have due : nextUnits entries s.loop.core slices = RR_TIMES_OF_UNIT * (slices + 1) := by
    rw [nextUnits, if_pos pending, tie, min_self]
  have again : nextUnits entries loop.core slices' = nextUnits entries s.loop.core slices := by
    have sliceAhead := ticking.countdowns.sliceAhead
    rw [due] at sliceAhead
    rw [nextUnits, samePtr, if_pos pending, tie, due, min_eq_left (Int.le_of_lt sliceAhead)]
  have stillPending : arrivalQueueEmpty loop.core = false := by
    obtain ⟨queue, queued⟩ := ticking.queued
    rw [ticking.reads.arrivalQueueEmpty_iff queued, samePtr]
    exact pending
  have disarmed : nanoseconds loop.itValue = 0 := by
    rw [armed.distance, again, Int.sub_self, Int.zero_mul]
  have stepped : ∃ next, clockedStep fork s .timer = .ok next ∧ next.loop = loop := by
    simp only [clockedStep, onTime.deadline, ended, ok_bind]
    exact ⟨_, rfl, rfl⟩
  obtain ⟨next, stepping, sameLoop⟩ := stepped
  refine ⟨next, stepping, ?_, ?_⟩
  · rw [sameLoop]
    exact stillPending
  · rw [sameLoop]
    exact disarmed

/-- A timer event that is no tie gets closer to a given later tie. -/
theorem Fired.closer (order : ArrivalOrder entries) {made : List Call} {reason : EventType}
    {slices' : Nat} {due : Int} {target multiple : Nat}
    (fired : Fired entries c later slices made reason slices' due)
    (inRange : target < entries.length)
    (isMultiple : arrivalOf entries target = RR_TIMES_OF_UNIT * (multiple + 1))
    (notPast : c.arrivalPtr ≤ target) (notOver : slices ≤ multiple)
    (bounded : due ≤ arrivalOf entries c.arrivalPtr)
    (noTie : arrivalOf entries c.arrivalPtr ≠ RR_TIMES_OF_UNIT * (slices + 1)) :
    later.arrivalPtr ≤ target ∧ slices' ≤ multiple ∧
      target - later.arrivalPtr + (multiple - slices') <
        target - c.arrivalPtr + (multiple - slices) := by
  have ordered := order.arrivalOf_mono notPast inRange
  cases fired with
  | slice samePtr _ =>
      have less := lt_of_le_of_ne bounded (Ne.symm noTie)
      rw [isMultiple] at ordered
      unfold RR_TIMES_OF_UNIT at *
      omega
  | arrival first further _ together _ _ =>
      have notIn : later.arrivalPtr ≤ target := by
        by_contra isIn
        have same := together target notPast (Nat.lt_of_not_le isIn)
        rw [isMultiple] at same
        unfold RR_TIMES_OF_UNIT at *
        omega
      omega

/-- From every state before it, timer events alone lead to a tie. -/
theorem reaches_tie (fork : Core → ProcessPtr → Int) (order : ArrivalOrder entries)
    (unit : UsableUnit timeUnit) {initial : Clocked} {target multiple : Nat}
    (inRange : target < entries.length)
    (isMultiple : arrivalOf entries target = RR_TIMES_OF_UNIT * (multiple + 1)) (distance : Nat)
    {history : List ClockEvent} (run : (clockedMachine fork).Run initial history s)
    (onTime : OnTime entries timeUnit s units slices) (waiting : s.stopped = false)
    (notPast : s.loop.core.arrivalPtr ≤ target) (notOver : slices ≤ multiple)
    (near : target - s.loop.core.arrivalPtr + (multiple - slices) ≤ distance) :
    ∃ history' now units' slices', (clockedMachine fork).Run initial history' now ∧
      OnTime entries timeUnit now units' slices' ∧ now.stopped = false ∧
      now.loop.core.arrivalPtr < entries.length ∧
      arrivalOf entries now.loop.core.arrivalPtr = RR_TIMES_OF_UNIT * (slices' + 1) := by
  have pending := Nat.lt_of_le_of_lt notPast inRange
  induction distance generalizing history s units slices with
  | zero =>
      have isTarget : s.loop.core.arrivalPtr = target := by omega
      have isMultiple' : slices = multiple := by omega
      refine ⟨history, s, units, slices, run, onTime, waiting, pending, ?_⟩
      rw [isTarget, isMultiple']
      exact isMultiple
  | succ distance ih =>
      by_cases tie : arrivalOf entries s.loop.core.arrivalPtr = RR_TIMES_OF_UNIT * (slices + 1)
      · exact ⟨history, s, units, slices, run, onTime, waiting, pending, tie⟩
      · obtain ⟨next, slices', made, stepped, onTime', fired, breaksLast⟩ :=
          timer_onTime fork order unit onTime (fun _ => tie)
        obtain ⟨notPast', notOver', closer⟩ := fired.closer order inRange isMultiple notPast
          notOver (nextUnits_le_arrival pending) tie
        have waiting' : next.stopped = false := by
          by_contra breaks
          have atEnd := breaksLast (eq_true_of_ne_false breaks)
          omega
        exact ih (run.next (onTime.timer_enabled waiting) stepped) onTime' waiting' notPast'
          notOver' (by omega) (Nat.lt_of_le_of_lt notPast' inRange)

/-- The timer stays armed in every run exactly if no process arrives at the end
of a slice. -/
theorem never_disarmed_iff (fork : Core → ProcessPtr → Int) (garbage : Nat → Option ProcessPtr)
    (order : ArrivalOrder entries) (unit : UsableUnit timeUnit) :
    NeverDisarmed fork entries garbage timeUnit ↔ OffSlices entries := by
  obtain ⟨initial, created, initially, nothingYet, waiting⟩ :=
    clockedStart_onTime order unit garbage
  constructor
  · intro never entry member positive isMultiple
    obtain ⟨target, inRange, rfl⟩ := List.mem_iff_getElem.mp member
    obtain ⟨factor, product⟩ := isMultiple
    rw [product] at positive
    have factorPositive : 0 < factor := by
      unfold RR_TIMES_OF_UNIT at positive
      omega
    have isTie : arrivalOf entries target =
        RR_TIMES_OF_UNIT * (((factor - 1).toNat : Int) + 1) := by
      rw [arrivalOf_eq inRange, product]
      congr 1
      omega
    obtain ⟨history, now, units, slices, run, onTime, stillWaiting, pending, tie⟩ :=
      reaches_tie fork order unit inRange isTie _ Machine.Run.start initially waiting
        (by omega) (Nat.zero_le _) (Nat.le_refl _)
    obtain ⟨next, stepped, notEmpty, disarmed⟩ := timer_tie fork order unit onTime pending tie
    have armed := never initial history next created
      (run.next (onTime.timer_enabled stillWaiting) stepped) (Or.inl notEmpty)
    omega
  · intro free initial' history now created' run _
    obtain ⟨previous, earlier, allowed, stepped⟩ := run.last_step
    obtain ⟨units, slices, onTime⟩ :=
      run_onTime order free unit (started_onTime order unit created') earlier
    obtain ⟨next, slices', _, stepped', onTime', _⟩ := timer_onTime fork order unit onTime
      (fun pending => free.arrivalOf_ne pending slices)
    have isNext : next = now := Except.ok.inj (stepped'.symm.trans stepped)
    subst isNext
    have handled : next.log ≠ [] := by
      simp only [clockedStep, onTime.deadline] at stepped'
      obtain ⟨ended, _, logged⟩ := bind_eq_ok stepped'
      cases Except.ok.inj logged
      exact List.concat_ne_nil _ _
    obtain ⟨armed, ahead⟩ := onTime'.armed handled
    rw [armed.distance]
    exact Int.mul_pos (by omega) unit.positive

theorem never_disarmed_iff_betweenEntries :
    NeverDisarmed (fun _ process => 100 + process) betweenEntries (fun _ => none) millisecond :=
  (never_disarmed_iff (fun _ process => 100 + process) (fun _ => none)
    (⟨by decide, by decide, by decide⟩ : ArrivalOrder betweenEntries)
    millisecond_usable).mpr (by decide)

/-- A process that arrives at the end of the first slice. -/
def tiedEntries : List Entry := [⟨500, 1⟩]

/-- The slice end leaves the timer at zero with the process still to come. -/
theorem tied_arrival_disarms :
    ArrivalOrder tiedEntries ∧ UsableUnit millisecond ∧
      (∃ initial now, clockedStart tiedEntries (fun _ => none) millisecond = .ok initial ∧
        (clockedMachine fun _ process => 100 + process).Run initial [.timer] now ∧
        arrivalQueueEmpty now.loop.core = false ∧ nanoseconds now.loop.itValue = 0 ∧
        now.deadline = none) ∧
      ¬ NeverDisarmed (fun _ process => 100 + process) tiedEntries (fun _ => none)
        millisecond := by
  have order : ArrivalOrder tiedEntries := ⟨by decide, by decide, by decide⟩
  obtain ⟨initial, created, _⟩ := clockedStart_onTime order millisecond_usable (fun _ => none)
  obtain ⟨now, run, seen⟩ : ∃ now,
      (clockedMachine fun _ process => 100 + process).Run initial [.timer] now ∧
      (arrivalQueueEmpty now.loop.core, nanoseconds now.loop.itValue, now.deadline) =
        (false, 0, none) := by
    cases Except.ok.inj created
    exact Machine.run_of_replay_map _ (fun now : Clocked =>
      (arrivalQueueEmpty now.loop.core, nanoseconds now.loop.itValue, now.deadline))
      (by decide +kernel)
  obtain ⟨pending, disarmed, silent⟩ := Prod.mk.inj seen |>.imp_right Prod.mk.inj
  refine ⟨order, millisecond_usable, ⟨initial, now, created, run, pending, disarmed, silent⟩, ?_⟩
  intro never
  have armed := never initial [] now created run (Or.inl pending)
  omega

end UserScheduler.RR
