/-
When processes are passed to `add_process` under FIFO, SJF and PSJF.

Only the arrival queue and the timer matter here, so `add_process` is reduced to
the record that it was called.  The timer is exact and a handler takes no time.
Arrival times are read as gaps between neighbours, and a gap that is negative
makes `timer_settime` fail: a list that is out of order is served up to that
point and no further.
-/

import UserScheduler.RoundRobinTimer

namespace UserScheduler

open Machines
open RR (UsableUnit arrivalOf Reads)

/-- `add_process` as far as the arrival queue sees it. -/
def recordProcess (c : Core) (p : ProcessPtr) : Result Core :=
  return { c with calls := c.calls ++ [.addProcess p] }

/-- The branches of a timer event over any `add_process`. -/
def handleExpiryWith (add : Core → ProcessPtr → Result Core) (c : Core) (ti : TimerInfo) :
    EventType → Result (Core × TimerInfo)
  | .timesliceOver => do
      let c ← timesliceOver c
      let ti ← updateTimesliceRemaining c ti
      return (c, ti)
  | .processArrival => do
      let admitted ← processArrivalWith add c
      let ti ← updateArrivalRemaining ti admitted.2
      return (admitted.1, ti)
  | _ => return (c, ti)

theorem handleExpiry_eq_with (fork : Core → ProcessPtr → Int) (c : Core) (ti : TimerInfo)
    (reason : EventType) :
    handleExpiry fork c ti reason = handleExpiryWith (addProcess fork) c ti reason := by
  cases reason with
  | processArrival =>
      simp only [handleExpiry, handleExpiryWith, processArrival_eq_with]
  | timesliceOver => rfl
  | timerExpired => rfl
  | childTerminated => rfl

/-- The one-shot timer, in nanoseconds since it was created. -/
inductive Alarm where
  | waiting (deadline : Int)
  | disarmed
  | exited
deriving DecidableEq, Repr

/-- `log` holds the time of each timer event and what it passed to
`add_process`. -/
structure Delivery where
  core : Core
  timer : TimerInfo
  alarm : Alarm
  log : List (Int × List ProcessPtr)

/-- What `set_timer` leaves behind when called at `time`. -/
def alarmAfter (time : Int) : Result Timespec → Alarm
  | .ok value => if timspecIsZero value then .disarmed else .waiting (time + nanoseconds value)
  | .error _ => .exited

/-- The branch `event_type == TIMER_EXPIRED` at `time`, up to and with
`set_timer`. -/
def expire (time : Int) (s : Delivery) : Result Delivery := do
  let core := { s.core with calls := s.core.calls ++ [.timerExpired] }
  let reason := getExpireReason core s.timer
  let handled ← handleExpiryWith recordProcess core (subtractTimePassed core s.timer) reason
  let made := handled.1.calls.drop s.core.calls.length
  return {
    core := handled.1
    timer := handled.2
    alarm := alarmAfter time (setTimer handled.1 handled.2)
    log := s.log ++ [(time, addedProcesses made)] }

/-- Timer events until none is to come. -/
def deliver : Nat → Delivery → Result Delivery
  | 0, _ => .error .outOfFuel
  | fuel + 1, s =>
      match s.alarm with
      | .waiting deadline => do
          let s ← expire deadline s
          deliver fuel s
      | _ => return s

/-- After `create_timer_and_init_timespec`.  The SIGALRM it may raise counts as
an expiry at once. -/
def deliveryStart (strategy : ScheduleStrategy) (entries : List Entry)
    (garbage : Nat → Option ProcessPtr) (timeUnit : Timespec) : Result Delivery := do
  let created ← createTimer (initCore strategy entries garbage) timeUnit
  return {
    core := created.1.core
    timer := created.1.timer
    alarm := if created.2 then .waiting 0 else alarmAfter 0 (.ok created.1.itValue)
    log := [] }

def runArrivals (strategy : ScheduleStrategy) (entries : List Entry)
    (garbage : Nat → Option ProcessPtr) (timeUnit : Timespec) : Result Delivery := do
  let s ← deliveryStart strategy entries garbage timeUnit
  deliver (entries.length + 1) s

/-! ### The timer -/

variable {entries : List Entry} {timeUnit : Timespec}

theorem timespecMultiply_negative (unit : UsableUnit timeUnit) {units : Int}
    (negative : units < 0) :
    (timespecMultiply timeUnit units).tvSec < 0 ∨ (timespecMultiply timeUnit units).tvNsec < 0 := by
  have seconds : 0 ≤ timeUnit.tvSec :=
    unit.normalized.tvSec_nonneg (Int.le_of_lt unit.positive)
  have nanos := unit.normalized.nonnegative
  have positive := unit.positive
  have division := Int.mul_tdiv_add_tmod (timeUnit.tvNsec * units) BILLION
  have secondsProduct : timeUnit.tvSec * units ≤ 0 :=
    Int.mul_nonpos_of_nonneg_of_nonpos seconds (Int.le_of_lt negative)
  have total : nanoseconds timeUnit * units < 0 :=
    Int.mul_neg_of_pos_of_neg positive negative
  have split : nanoseconds timeUnit * units =
      (timeUnit.tvSec * units) * BILLION + timeUnit.tvNsec * units := by
    unfold nanoseconds
    rw [Int.add_mul, Int.mul_right_comm]
  simp only [timespecMultiply]
  unfold BILLION at *
  omega

theorem timerSettime_negative (unit : UsableUnit timeUnit) {units : Int}
    (negative : units < 0) :
    timerSettime (timespecMultiply timeUnit units) = .error .schedulerExit := by
  have refused := timespecMultiply_negative unit negative
  rw [timerSettime, if_neg (by omega)]

theorem timespecMultiply_tvSec_nonneg (unit : UsableUnit timeUnit) {units : Int}
    (nonnegative : 0 ≤ units) : 0 ≤ (timespecMultiply timeUnit units).tvSec := by
  obtain ⟨normalized, value⟩ := timespecMultiply_spec unit.normalized nonnegative
  apply normalized.tvSec_nonneg
  rw [value]
  exact Int.mul_nonneg nonnegative (Int.le_of_lt unit.positive)

theorem timerSettime_gap (unit : UsableUnit timeUnit) {units : Int} (nonnegative : 0 ≤ units) :
    timerSettime (timespecMultiply timeUnit units) = .ok (timespecMultiply timeUnit units) := by
  obtain ⟨normalized, _⟩ := timespecMultiply_spec unit.normalized nonnegative
  rw [timerSettime, if_pos ⟨timespecMultiply_tvSec_nonneg unit nonnegative,
    normalized.nonnegative, normalized.bounded⟩]
  rfl

theorem assertNonnegetiveRemaining_gap (unit : UsableUnit timeUnit) {units : Int}
    (nonnegative : 0 ≤ units) :
    assertNonnegetiveRemaining (timespecMultiply timeUnit units) = .ok () := by
  obtain ⟨normalized, _⟩ := timespecMultiply_spec unit.normalized nonnegative
  rw [assertNonnegetiveRemaining, decide_eq_true
    ⟨timespecMultiply_tvSec_nonneg unit nonnegative, normalized.nonnegative⟩]
  rfl

/-- What `set_timer` does with a gap that is not negative. -/
theorem alarmAfter_gap (unit : UsableUnit timeUnit) (time : Int) {units : Int}
    (nonnegative : 0 ≤ units) :
    alarmAfter time (.ok (timespecMultiply timeUnit units)) =
      if units = 0 then .disarmed else .waiting (time + units * nanoseconds timeUnit) := by
  obtain ⟨normalized, value⟩ := timespecMultiply_spec unit.normalized nonnegative
  have isZero : timspecIsZero (timespecMultiply timeUnit units) = true ↔ units = 0 := by
    rw [normalized.isZero_iff, value, Int.mul_eq_zero]
    exact or_iff_left (Int.ne_of_gt unit.positive)
  rw [alarmAfter, value]
  simp only [isZero]

/-- The first event comes at the first arrival time, with or without
`raise(SIGALRM)`. -/
theorem firstAlarm_eq (unit : UsableUnit timeUnit) {units : Int} (nonnegative : 0 ≤ units) :
    (if (units == 0) = true then .waiting 0
      else alarmAfter 0 (.ok (timespecMultiply timeUnit units))) =
      Alarm.waiting (units * nanoseconds timeUnit) := by
  by_cases immediate : units = 0
  · rw [if_pos (beq_iff_eq.mpr immediate), immediate, Int.zero_mul]
  · rw [if_neg (fun isZero => immediate (beq_iff_eq.mp isZero)),
      alarmAfter_gap unit 0 nonnegative, if_neg immediate, Int.zero_add]

/-! ### One group -/

theorem recordProcess_leavesQueue : LeavesQueue recordProcess := by
  intro c p later recorded
  cases Except.ok.inj recorded
  exact ⟨⟨rfl, rfl, fun _ => rfl⟩, rfl⟩

/-- The processes from `first` up to the arrival pointer. -/
def groupFrom (first : Nat) (c : Core) : List ProcessPtr :=
  List.range' first (c.arrivalPtr - first)

theorem processArrival_records {c : Core} (pending : c.arrivalPtr < c.numProcess) :
    ∃ later untilNext, processArrivalWith recordProcess c = .ok (later, untilNext) ∧
      later.calls = c.calls ++ (groupFrom c.arrivalPtr later).map .addProcess ∧
      Admitted c later c.arrivalPtr untilNext := by
  let invariant (now : Core) : Prop := c.arrivalPtr ≤ now.arrivalPtr ∧
    now.calls = c.calls ++ (groupFrom c.arrivalPtr now).map .addProcess
  have initially : invariant c := by
    refine ⟨Nat.le_refl _, ?_⟩
    rw [groupFrom, Nat.sub_self, List.range'_zero, List.map_nil, List.append_nil]
  have progress : ∀ now, invariant now → now.arrivalPtr < now.numProcess →
      ∃ later, addArrivedProcessWith recordProcess now = .ok later ∧ invariant later := by
    rintro now ⟨reached, calls⟩ _
    refine ⟨_, rfl, Nat.le_succ_of_le reached, ?_⟩
    change now.calls ++ [.addProcess now.arrivalPtr] = _
    rw [calls, groupFrom, groupFrom, Nat.succ_sub reached, List.range'_1_concat,
      Nat.add_sub_cancel' reached, List.map_append, List.append_assoc]
    rfl
  obtain ⟨later, untilNext, ended, ⟨_, calls⟩, admitted⟩ :=
    processArrivalWith_spec recordProcess_leavesQueue invariant progress initially pending
  exact ⟨later, untilNext, ended, calls, admitted⟩

theorem addedProcesses_records (group : List ProcessPtr) :
    addedProcesses (group.map .addProcess) = group := by
  induction group with
  | nil => rfl
  | cons process rest ih =>
      change process :: addedProcesses (rest.map .addProcess) = _
      rw [ih]

theorem getLast_records (calls : List Call) {first next : Nat} (grows : first < next) :
    (calls ++ (List.range' first (next - first)).map Call.addProcess).getLast? =
      some (.addProcess (next - 1)) := by
  obtain ⟨more, isLater⟩ := Nat.exists_eq_add_of_lt grows
  subst isLater
  rw [show first + more + 1 - first = more + 1 by omega, List.range'_1_concat, List.map_append,
    List.map_singleton, ← List.append_assoc, List.getLast?_concat]
  rfl

/-! ### The log -/

/-- The first `count` processes were delivered, each once and at its time. -/
structure Logged (entries : List Entry) (timeUnit : Timespec) (log : List (Int × List ProcessPtr))
    (count : Nat) : Prop where
  exactly : log.flatMap Prod.snd = List.range count
  onTime : ∀ event ∈ log, ∀ process ∈ event.2,
    event.1 = arrivalOf entries process * nanoseconds timeUnit
  together : ∀ process, process + 1 < count →
    arrivalOf entries process = arrivalOf entries (process + 1) →
    ∃ event ∈ log, process ∈ event.2 ∧ process + 1 ∈ event.2

/-- Arrival times do not decrease among the first `count` processes. -/
def InOrder (entries : List Entry) (count : Nat) : Prop :=
  ∀ process, process + 1 < count → arrivalOf entries process ≤ arrivalOf entries (process + 1)

variable {log : List (Int × List ProcessPtr)} {first next : Nat}

theorem InOrder.extend (inOrder : InOrder entries (first + 1))
    (same : ∀ process, first ≤ process → process < next →
      arrivalOf entries process = arrivalOf entries first) : InOrder entries next := by
  intro process inside
  by_cases early : process < first
  · exact inOrder process (Nat.succ_lt_succ early)
  · rw [same process (Nat.le_of_not_lt early) (Nat.lt_of_succ_lt inside),
      same (process + 1) (by omega) inside]

/-- A group is logged in one event.  `apart` says that it did not start before. -/
theorem Logged.extend (logged : Logged entries timeUnit log first) (grows : first < next)
    (same : ∀ process, first ≤ process → process < next →
      arrivalOf entries process = arrivalOf entries first)
    (apart : ∀ process, process + 1 = first →
      arrivalOf entries process ≠ arrivalOf entries first) :
    Logged entries timeUnit
      (log ++ [(arrivalOf entries first * nanoseconds timeUnit,
        List.range' first (next - first))]) next where
  exactly := by
    have joined : List.range' 0 first ++ List.range' (0 + first) (next - first) =
        List.range' 0 (first + (next - first)) := List.range'_append_1
    rw [Nat.zero_add, Nat.add_sub_cancel' (Nat.le_of_lt grows)] at joined
    rw [List.flatMap_append, logged.exactly, List.flatMap_singleton, List.range_eq_range',
      List.range_eq_range']
    exact joined
  onTime := by
    intro event member process delivered
    rcases List.mem_append.mp member with old | new
    · exact logged.onTime event old process delivered
    · rw [List.mem_singleton.mp new] at delivered ⊢
      obtain ⟨lower, upper⟩ := List.mem_range'_1.mp delivered
      change arrivalOf entries first * nanoseconds timeUnit = _
      rw [same process lower (by omega)]
  together := by
    intro process inside equal
    rcases Nat.lt_trichotomy (process + 1) first with early | atStart | late
    · obtain ⟨event, member, both⟩ := logged.together process early equal
      exact ⟨event, List.mem_append_left _ member, both⟩
    · rw [atStart] at equal
      exact absurd equal (apart process atStart)
    · refine ⟨_, List.mem_append_right _ (List.mem_singleton_self _), ?_, ?_⟩
      · exact List.mem_range'_1.mpr ⟨by omega, by omega⟩
      · exact List.mem_range'_1.mpr ⟨by omega, by omega⟩

/-! ### One timer event -/

/-- What holds after every timer event. -/
structure Reached (entries : List Entry) (timeUnit : Timespec) (s : Delivery) : Prop where
  reads : Reads entries s.core
  notRR : s.core.currentStrategy ≠ .RR
  unit : s.timer.timeUnit = timeUnit
  within : s.core.arrivalPtr ≤ entries.length
  logged : Logged entries timeUnit s.log s.core.arrivalPtr
  inOrder : InOrder entries s.core.arrivalPtr

/-- The timer waits for the next process, and no earlier one shares its arrival
time. -/
structure Due (entries : List Entry) (timeUnit : Timespec) (s : Delivery) : Prop
    extends Reached entries timeUnit s where
  pending : s.core.arrivalPtr < entries.length
  nextInOrder : InOrder entries (s.core.arrivalPtr + 1)
  apart : ∀ process, process + 1 = s.core.arrivalPtr →
    arrivalOf entries process ≠ arrivalOf entries s.core.arrivalPtr
  nonnegative : assertNonnegetiveRemaining s.timer.arrivalRemaining = .ok ()
  alarm : s.alarm = .waiting (arrivalOf entries s.core.arrivalPtr * nanoseconds timeUnit)

variable {s : Delivery}

/-- Off RR an expiry is an arrival: a group is recorded and the timer is set to
the gap after it. -/
theorem expire_eq (time : Int) (notRR : s.core.currentStrategy ≠ .RR)
    (pending : s.core.arrivalPtr < s.core.numProcess)
    (nonnegative : assertNonnegetiveRemaining s.timer.arrivalRemaining = .ok ()) :
    ∃ later untilNext, let ti : TimerInfo := { s.timer with
        arrivalRemaining := timespecMultiply s.timer.timeUnit untilNext }
      expire time s = .ok {
        core := later
        timer := ti
        alarm := alarmAfter time (setTimer later ti)
        log := s.log ++ [(time, groupFrom s.core.arrivalPtr later)] } ∧
      later.calls = s.core.calls ++ [.timerExpired] ++
        (groupFrom s.core.arrivalPtr later).map .addProcess ∧
      Admitted s.core later s.core.arrivalPtr untilNext := by
  let core : Core := { s.core with calls := s.core.calls ++ [.timerExpired] }
  have reason : getExpireReason core s.timer = .processArrival := if_pos notRR
  have untouched : subtractTimePassed core s.timer = s.timer :=
    if_neg fun isRR => notRR isRR.1
  obtain ⟨later, untilNext, ended, calls, admitted⟩ := processArrival_records (c := core) pending
  have group : addedProcesses (later.calls.drop s.core.calls.length) =
      groupFrom s.core.arrivalPtr later := by
    rw [calls, List.append_assoc, List.drop_left, addedProcesses_append, addedProcesses_records]
    rfl
  refine ⟨later, untilNext, ?_, calls, { admitted with input := { admitted.input with } }⟩
  change (handleExpiryWith recordProcess core (subtractTimePassed core s.timer)
    (getExpireReason core s.timer) >>= _) = _
  rw [reason, untouched, handleExpiryWith, ended, ok_bind, updateArrivalRemaining, nonnegative,
    ← group]
  rfl

/-- The event takes in a whole group and sets the timer to the gap after it. -/
theorem expire_group (due : Due entries timeUnit s) :
    ∃ later untilNext,
      expire (arrivalOf entries s.core.arrivalPtr * nanoseconds timeUnit) s = .ok later ∧
      Reached entries timeUnit later ∧ s.core.arrivalPtr < later.core.arrivalPtr ∧
      later.core.calls.getLast? = some (.addProcess (later.core.arrivalPtr - 1)) ∧
      later.timer.arrivalRemaining = timespecMultiply timeUnit untilNext ∧
      later.alarm = alarmAfter (arrivalOf entries s.core.arrivalPtr * nanoseconds timeUnit)
        (setTimer later.core later.timer) ∧
      (∀ process, process + 1 = later.core.arrivalPtr →
        arrivalOf entries process = arrivalOf entries s.core.arrivalPtr) ∧
      (later.core.arrivalPtr = entries.length ∧ untilNext = 0 ∨
        later.core.arrivalPtr < entries.length ∧ untilNext ≠ 0 ∧
          untilNext = arrivalOf entries later.core.arrivalPtr -
            arrivalOf entries s.core.arrivalPtr) := by
  have number := due.reads.numProcess
  have arrivalTime := due.reads.arrivalTime
  obtain ⟨later, untilNext, expired, calls, admitted⟩ :=
    expire_eq (arrivalOf entries s.core.arrivalPtr * nanoseconds timeUnit) due.notRR
      (number ▸ due.pending) due.nonnegative
  have reached : s.core.arrivalPtr < later.arrivalPtr := admitted.reached
  have same : ∀ process, s.core.arrivalPtr ≤ process → process < later.arrivalPtr →
      arrivalOf entries process = arrivalOf entries s.core.arrivalPtr := by
    intro process lower upper
    have together := admitted.together process lower upper
    rwa [arrivalTime, arrivalTime] at together
  refine ⟨_, untilNext, expired, ?_, reached, ?_, ?_, rfl, ?_, ?_⟩
  · exact
      { reads :=
          { numProcess := admitted.input.numProcess.trans number
            arrivalTime := fun process =>
              (admitted.input.arrivalTime process).trans (arrivalTime process) }
        notRR := by
          change later.currentStrategy ≠ .RR
          rw [admitted.input.strategy]
          exact due.notRR
        unit := due.unit
        within := number ▸ admitted.within
        logged := due.logged.extend reached same due.apart
        inOrder := due.nextInOrder.extend same }
  · change later.calls.getLast? = some (.addProcess (later.arrivalPtr - 1))
    rw [calls]
    exact getLast_records _ reached
  · change timespecMultiply s.timer.timeUnit untilNext = _
    rw [due.unit]
  · intro process isLast
    change process + 1 = later.arrivalPtr at isLast
    exact same process (by omega) (by omega)
  · have outcome := admitted.next
    rwa [number, arrivalTime, arrivalTime] at outcome

/-- No further timer event is to come.  Either the input is used up, or the next
process should have arrived before the last one. -/
structure Stops (entries : List Entry) (timeUnit : Timespec) (s : Delivery) : Prop
    extends Reached entries timeUnit s where
  last : s.core.calls.getLast? = some (.addProcess (s.core.arrivalPtr - 1))
  outcome : s.core.arrivalPtr = entries.length ∧ s.alarm = .disarmed ∨
    s.core.arrivalPtr < entries.length ∧ s.alarm = .exited ∧
      setTimer s.core s.timer = .error .schedulerExit ∧
      ¬ InOrder entries (s.core.arrivalPtr + 1)

theorem Reached.setTimer_eq (reached : Reached entries timeUnit s) :
    setTimer s.core s.timer = timerSettime s.timer.arrivalRemaining := by
  rw [setTimer, itValue, if_pos reached.notRR]

theorem expire_due (unit : UsableUnit timeUnit) (due : Due entries timeUnit s) :
    ∃ later, expire (arrivalOf entries s.core.arrivalPtr * nanoseconds timeUnit) s = .ok later ∧
      s.core.arrivalPtr < later.core.arrivalPtr ∧
      (Due entries timeUnit later ∨ Stops entries timeUnit later) := by
  obtain ⟨later, untilNext, expired, reached, grows, last, remaining, alarm, before, next⟩ :=
    expire_group due
  have timer := reached.setTimer_eq
  rw [remaining] at timer
  have previous := before (later.core.arrivalPtr - 1) (by omega)
  refine ⟨later, expired, grows, ?_⟩
  rcases next with ⟨all, noGap⟩ | ⟨pending, someGap, gap⟩
  · right
    rw [noGap, timerSettime_gap unit (Int.le_refl 0)] at timer
    rw [timer, alarmAfter_gap unit _ (Int.le_refl 0), if_pos rfl] at alarm
    exact { reached with last := last, outcome := Or.inl ⟨all, alarm⟩ }
  · rcases Int.lt_or_lt_of_ne someGap with backwards | forwards
    · right
      rw [timerSettime_negative unit backwards] at timer
      rw [timer] at alarm
      refine { reached with last := last, outcome := Or.inr ⟨pending, alarm, timer, ?_⟩ }
      intro inOrder
      have step := inOrder (later.core.arrivalPtr - 1) (by omega)
      rw [previous, Nat.sub_add_cancel (by omega : 1 ≤ later.core.arrivalPtr)] at step
      omega
    · left
      rw [timerSettime_gap unit (Int.le_of_lt forwards)] at timer
      rw [timer, alarmAfter_gap unit _ (Int.le_of_lt forwards),
        if_neg (Int.ne_of_gt forwards), gap, Int.sub_mul, add_sub_cancel] at alarm
      exact
        { reached with
          pending := pending
          nextInOrder := by
            intro process inside
            rcases Nat.lt_or_ge (process + 1) later.core.arrivalPtr with early | atEnd
            · exact reached.inOrder process early
            · have isNext : process + 1 = later.core.arrivalPtr := by omega
              rw [before process isNext, isNext]
              omega
          apart := by
            intro process isLast
            rw [before process isLast]
            omega
          nonnegative := by
            rw [remaining]
            exact assertNonnegetiveRemaining_gap unit (Int.le_of_lt forwards)
          alarm := alarm }

/-! ### The whole run -/

theorem deliver_stops (unit : UsableUnit timeUnit) (fuel : Nat)
    (enough : entries.length < s.core.arrivalPtr + fuel) (due : Due entries timeUnit s) :
    ∃ final, deliver fuel s = .ok final ∧ Stops entries timeUnit final := by
  induction fuel generalizing s with
  | zero =>
      have pending := due.pending
      omega
  | succ fuel ih =>
      obtain ⟨later, expired, grows, next⟩ := expire_due unit due
      have step : deliver (fuel + 1) s = deliver fuel later := by
        rw [deliver, due.alarm]
        change (expire _ s >>= _) = _
        rw [expired]
        rfl
      rw [step]
      rcases next with stillDue | stops
      · exact ih (by omega) stillDue
      · have pending := due.pending
        obtain ⟨more, isSucc⟩ : ∃ more, fuel = more + 1 := ⟨fuel - 1, by omega⟩
        refine ⟨later, ?_, stops⟩
        rw [isSucc, deliver]
        rcases stops.outcome with ⟨_, disarmed⟩ | ⟨_, exited, _⟩
        · rw [disarmed]
          rfl
        · rw [exited]
          rfl

/-- `count` is the length of the longest prefix whose arrival times do not
decrease. -/
structure LongestInOrder (entries : List Entry) (count : Nat) : Prop where
  within : count ≤ entries.length
  inOrder : InOrder entries count
  longest : ∀ other, other ≤ entries.length → InOrder entries other → other ≤ count

theorem Stops.arrivalPtr_eq (stops : Stops entries timeUnit s) {count : Nat}
    (longest : LongestInOrder entries count) : s.core.arrivalPtr = count := by
  apply Nat.le_antisymm
  · exact longest.longest _ stops.within stops.inOrder
  · rcases stops.outcome with ⟨all, _⟩ | ⟨_, _, _, outOfOrder⟩
    · rw [all]
      exact longest.within
    · by_contra further
      apply outOfOrder
      intro process inside
      exact longest.inOrder process (by omega)

theorem start_due {strategy : ScheduleStrategy} (notRR : strategy ≠ .RR)
    (garbage : Nat → Option ProcessPtr) (unit : UsableUnit timeUnit) (nonempty : entries ≠ [])
    (nonnegative : ∀ entry ∈ entries, 0 ≤ entry.arrivalTime) :
    ∃ s, deliveryStart strategy entries garbage timeUnit = .ok s ∧ s.core.arrivalPtr = 0 ∧
      Due entries timeUnit s := by
  have pending : 0 < entries.length := List.length_pos_iff.mpr nonempty
  have first : 0 ≤ arrivalOf entries 0 := by
    rw [RR.arrivalOf_eq pending]
    exact nonnegative _ (List.getElem_mem pending)
  let core := initCore strategy entries garbage
  let ti : TimerInfo :=
    { timeUnit := timeUnit
      arrivalRemaining := timespecMultiply timeUnit (arrivalOf entries 0)
      timesliceRemaining := zeroTimespec }
  have untilFirst : timeunitsUntilNextArrival core = .ok (arrivalOf entries 0) := by
    have notEmpty : arrivalQueueEmpty core = false :=
      beq_eq_false_iff_ne.mpr (Nat.ne_of_lt pending)
    rw [timeunitsUntilNextArrival, notEmpty]
    rfl
  have noSlices : initTimesliceRemaining core ti = ti := if_pos notRR
  have armed : setTimer core ti = .ok ti.arrivalRemaining := by
    rw [setTimer, itValue, if_pos (show core.currentStrategy ≠ .RR from notRR)]
    exact timerSettime_gap unit first
  refine ⟨{ core := core
            timer := ti
            alarm := .waiting (arrivalOf entries 0 * nanoseconds timeUnit)
            log := [] }, ?_, rfl, ?_⟩
  · rw [deliveryStart, createTimer, untilFirst, ok_bind]
    change ((setTimer core (initTimesliceRemaining core ti) >>= _) >>= _) = _
    rw [noSlices, armed, ← firstAlarm_eq unit first]
    rfl
  · exact
      { reads := { numProcess := rfl, arrivalTime := fun _ => rfl }
        notRR := notRR
        unit := rfl
        within := Nat.zero_le _
        logged :=
          { exactly := rfl
            onTime := fun _ impossible => absurd impossible List.not_mem_nil
            together := fun _ impossible => absurd impossible (Nat.not_lt_zero _) }
        inOrder := fun _ impossible => absurd impossible (Nat.not_lt_zero _)
        pending := pending
        nextInOrder := fun _ impossible =>
          absurd (Nat.lt_of_succ_lt_succ impossible) (Nat.not_lt_zero _)
        apart := fun _ impossible => absurd impossible (Nat.succ_ne_zero _)
        nonnegative := assertNonnegetiveRemaining_gap unit first
        alarm := rfl }

/-- The outcome of a run for the longest prefix in order. -/
structure Delivered (entries : List Entry) (timeUnit : Timespec) (count : Nat)
    (final : Delivery) : Prop extends Logged entries timeUnit final.log count where
  -- the call right before the last `set_timer`
  last : final.core.calls.getLast? = some (.addProcess (count - 1))
  rejected : count < entries.length →
    final.alarm = .exited ∧ setTimer final.core final.timer = .error .schedulerExit
  complete : count = entries.length → final.alarm = .disarmed

/-- Under FIFO, SJF and PSJF the processes of the longest prefix in order are
delivered on time, and what follows it is never delivered. -/
theorem arrivals_delivered {strategy : ScheduleStrategy} (notRR : strategy ≠ .RR)
    (entries : List Entry) (garbage : Nat → Option ProcessPtr) (nonempty : entries ≠ [])
    (nonnegative : ∀ entry ∈ entries, 0 ≤ entry.arrivalTime) (unit : UsableUnit timeUnit)
    {count : Nat} (longest : LongestInOrder entries count) :
    ∃ final, runArrivals strategy entries garbage timeUnit = .ok final ∧
      Delivered entries timeUnit count final := by
  obtain ⟨s, started, pointer, due⟩ := start_due notRR garbage unit nonempty nonnegative
  have enough : entries.length < s.core.arrivalPtr + (entries.length + 1) := by
    rw [pointer]
    omega
  obtain ⟨final, ended, stops⟩ := deliver_stops unit (entries.length + 1) enough due
  have reached := stops.arrivalPtr_eq longest
  have logged := stops.logged
  have last := stops.last
  have outcome := stops.outcome
  rw [reached] at logged last outcome
  refine ⟨final, ?_, logged, last, ?_, ?_⟩
  · rw [runArrivals, started]
    exact ended
  · intro fewer
    rcases outcome with ⟨all, _⟩ | ⟨_, exited, refused, _⟩
    · exact absurd all (Nat.ne_of_lt fewer)
    · exact ⟨exited, refused⟩
  · intro all
    rcases outcome with ⟨_, disarmed⟩ | ⟨fewer, _⟩
    · exact disarmed
    · exact absurd all (Nat.ne_of_lt fewer)

/-- The fourth process is listed too late. -/
def disorderedEntries : List Entry := [⟨0, 10⟩, ⟨5, 10⟩, ⟨5, 10⟩, ⟨3, 10⟩, ⟨9, 10⟩]

theorem disorderedEntries_longest : LongestInOrder disorderedEntries 3 where
  within := by decide
  inOrder := by
    intro process inside
    have isEarly : process = 0 ∨ process = 1 := by omega
    rcases isEarly with isFirst | isSecond
    · rw [isFirst]
      decide
    · rw [isSecond]
      decide
  longest := by
    intro other _ inOrder
    by_contra longer
    exact absurd (inOrder 2 (by omega)) (by decide)

theorem arrivals_delivered_disordered :
    ∃ final, runArrivals .SJF disorderedEntries (fun _ => none) ⟨0, 2⟩ = .ok final ∧
      final.log = [(0, [0]), (10, [1, 2])] ∧ Delivered disorderedEntries ⟨0, 2⟩ 3 final := by
  have notRR : ScheduleStrategy.SJF ≠ .RR := by decide
  have unit : UsableUnit ⟨0, 2⟩ := ⟨⟨by decide, by decide⟩, by decide⟩
  obtain ⟨final, ran, delivered⟩ := arrivals_delivered notRR disorderedEntries (fun _ => none)
    (by decide) (by decide) unit disorderedEntries_longest
  refine ⟨final, ran, ?_, delivered⟩
  have isLog : (runArrivals .SJF disorderedEntries (fun _ => none) ⟨0, 2⟩).map Delivery.log =
      .ok [(0, [0]), (10, [1, 2])] := rfl
  rw [ran] at isLog
  exact Except.ok.inj isLog

end UserScheduler
