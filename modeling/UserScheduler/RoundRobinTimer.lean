/-
One timer for arrivals and slice ends.

Under RR the handler keeps two countdowns and arms its single timer with the
lesser one.  At every timer event the elapsed time is a whole number of units,
and each countdown is the distance from there to the next arrival or to the next
multiple of `RR_TIMES_OF_UNIT`.  A tie between the two is the one case the
handler does not cover: it ends the slice and leaves the arrival at zero.
-/

import UserScheduler.RoundRobinRuns

namespace UserScheduler.RR

open Machines

/-- Arrival times as the input has to list them. -/
structure ArrivalOrder (entries : List Entry) : Prop where
  nonempty : entries ≠ []
  nonnegative : ∀ entry ∈ entries, 0 ≤ entry.arrivalTime
  sorted : entries.Pairwise fun first second => first.arrivalTime ≤ second.arrivalTime

/-- No process arrives at the end of a slice. -/
def OffSlices (entries : List Entry) : Prop :=
  ∀ entry ∈ entries, 0 < entry.arrivalTime → ¬ RR_TIMES_OF_UNIT ∣ entry.arrivalTime

instance (entries : List Entry) : Decidable (OffSlices entries) :=
  inferInstanceAs (Decidable (∀ entry ∈ entries, _))

/-- A usable `time_unit`. -/
structure UsableUnit (timeUnit : Timespec) : Prop where
  normalized : Normalized timeUnit
  positive : 0 < nanoseconds timeUnit

/-- The arrival time of a process, as `read_process_info` stores it. -/
def arrivalOf (entries : List Entry) (process : ProcessPtr) : Int :=
  (readProcessInfo entries process).arrivalTime

variable {entries : List Entry} {timeUnit : Timespec}

theorem arrivalOf_eq {process : ProcessPtr} (inRange : process < entries.length) :
    arrivalOf entries process = (entries[process]).arrivalTime := by
  change (entries.getD process _).arrivalTime = _
  rw [List.getD_eq_getElem?_getD, List.getElem?_eq_getElem inRange]
  rfl

theorem ArrivalOrder.arrivalOf_nonneg (order : ArrivalOrder entries) {process : ProcessPtr}
    (inRange : process < entries.length) : 0 ≤ arrivalOf entries process := by
  rw [arrivalOf_eq inRange]
  exact order.nonnegative _ (List.getElem_mem inRange)

theorem ArrivalOrder.arrivalOf_mono (order : ArrivalOrder entries) {first second : ProcessPtr}
    (before : first ≤ second) (inRange : second < entries.length) :
    arrivalOf entries first ≤ arrivalOf entries second := by
  rcases Nat.eq_or_lt_of_le before with same | less
  · rw [same]
  · rw [arrivalOf_eq inRange, arrivalOf_eq (Nat.lt_trans less inRange)]
    exact List.pairwise_iff_getElem.mp order.sorted first second _ inRange less

theorem OffSlices.arrivalOf_ne (free : OffSlices entries) {process : ProcessPtr}
    (inRange : process < entries.length) (slices : Nat) :
    arrivalOf entries process ≠ RR_TIMES_OF_UNIT * (slices + 1) := by
  intro atSliceEnd
  have notMultiple := free _ (List.getElem_mem inRange)
  rw [← arrivalOf_eq inRange, atSliceEnd] at notMultiple
  apply notMultiple
  · unfold RR_TIMES_OF_UNIT
    omega
  · exact Int.dvd_mul_right _ _

/-! ### The two countdowns -/

/-- `units` is the time of the last timer event and `slices` the number of
slices that have ended by then. -/
structure Countdowns (entries : List Entry) (timeUnit : Timespec) (c : Core) (ti : TimerInfo)
    (units : Int) (slices : Nat) : Prop where
  unit : ti.timeUnit = timeUnit
  sliceNormalized : Normalized ti.timesliceRemaining
  slice : nanoseconds ti.timesliceRemaining =
    (RR_TIMES_OF_UNIT * (slices + 1) - units) * nanoseconds timeUnit
  arrivalNormalized : Normalized ti.arrivalRemaining
  arrival : c.arrivalPtr < entries.length → nanoseconds ti.arrivalRemaining =
    (arrivalOf entries c.arrivalPtr - units) * nanoseconds timeUnit
  slicesDone : RR_TIMES_OF_UNIT * slices ≤ units
  sliceAhead : units < RR_TIMES_OF_UNIT * (slices + 1)
  arrivalsDone : ∀ process, process < c.arrivalPtr → arrivalOf entries process ≤ units
  arrivalAhead : c.arrivalPtr < entries.length → units ≤ arrivalOf entries c.arrivalPtr

/-- What ties the handler's state to the input. -/
structure Reads (entries : List Entry) (c : Core) : Prop where
  numProcess : c.numProcess = entries.length
  arrivalTime : ∀ process,
    (c.allProcessInfo process).arrivalTime = arrivalOf entries process

/-- When the next timer event is due. -/
def nextUnits (entries : List Entry) (c : Core) (slices : Nat) : Int :=
  if c.arrivalPtr < entries.length then
    min (arrivalOf entries c.arrivalPtr) (RR_TIMES_OF_UNIT * (slices + 1))
  else RR_TIMES_OF_UNIT * (slices + 1)

variable {c : Core} {ti : TimerInfo} {units : Int} {slices : Nat} {queue : List ProcessPtr}

theorem Reads.arrivalQueueEmpty_iff (reads : Reads entries c) (queued : Queued c queue) :
    arrivalQueueEmpty c = false ↔ c.arrivalPtr < entries.length := by
  have within := queued.within
  rw [arrivalQueueEmpty, beq_eq_false_iff_ne, reads.numProcess]
  rw [reads.numProcess] at within
  omega

theorem Reads.arrivalQueueEmpty_of_all (reads : Reads entries c) (queued : Queued c queue)
    (all : ¬ c.arrivalPtr < entries.length) : arrivalQueueEmpty c = true := by
  by_contra notEmpty
  exact all ((reads.arrivalQueueEmpty_iff queued).mp (Bool.eq_false_iff.mpr notEmpty))

theorem Countdowns.scale_lt (unit : UsableUnit timeUnit) {left right : Int} :
    (left - units) * nanoseconds timeUnit < (right - units) * nanoseconds timeUnit ↔
      left < right := by
  rw [Int.mul_lt_mul_right unit.positive]
  omega

/-- The comparison of the two countdowns is the comparison of the two times. -/
theorem Countdowns.min_eq (countdowns : Countdowns entries timeUnit c ti units slices)
    (unit : UsableUnit timeUnit) (pending : c.arrivalPtr < entries.length) :
    minTimespecp ti.arrivalRemaining ti.timesliceRemaining =
      if arrivalOf entries c.arrivalPtr < RR_TIMES_OF_UNIT * (slices + 1) then .lhs else .rhs := by
  rw [minTimespecp_eq countdowns.arrivalNormalized countdowns.sliceNormalized,
    countdowns.arrival pending, countdowns.slice]
  simp only [Countdowns.scale_lt unit]

/-- The timer is armed with the distance to the next event. -/
theorem Countdowns.setTimer_eq (countdowns : Countdowns entries timeUnit c ti units slices)
    (unit : UsableUnit timeUnit) (reads : Reads entries c) (queued : Queued c queue) :
    ∃ value, setTimer c ti = .ok value ∧ Normalized value ∧ nanoseconds value =
      (nextUnits entries c slices - units) * nanoseconds timeUnit := by
  have isRR : ¬ c.currentStrategy ≠ .RR := fun notRR => notRR queued.strategy
  have chosen : ∃ value, itValue c ti = value ∧ Normalized value ∧ nanoseconds value =
      (nextUnits entries c slices - units) * nanoseconds timeUnit := by
    by_cases pending : c.arrivalPtr < entries.length
    · have notEmpty : ¬ arrivalQueueEmpty c = true := by
        rw [(reads.arrivalQueueEmpty_iff queued).mpr pending]
        exact Bool.false_ne_true
      rw [itValue, if_neg isRR, if_neg notEmpty, countdowns.min_eq unit pending, nextUnits,
        if_pos pending]
      by_cases first : arrivalOf entries c.arrivalPtr < RR_TIMES_OF_UNIT * (slices + 1)
      · rw [if_pos first, min_eq_left (Int.le_of_lt first)]
        exact ⟨_, rfl, countdowns.arrivalNormalized, countdowns.arrival pending⟩
      · rw [if_neg first, min_eq_right (Int.not_lt.mp first)]
        exact ⟨_, rfl, countdowns.sliceNormalized, countdowns.slice⟩
    · rw [itValue, if_neg isRR, if_pos (reads.arrivalQueueEmpty_of_all queued pending), nextUnits,
        if_neg pending]
      exact ⟨_, rfl, countdowns.sliceNormalized, countdowns.slice⟩
  obtain ⟨value, isValue, normalized, distance⟩ := chosen
  have ahead : units ≤ nextUnits entries c slices := by
    have sliceAhead := countdowns.sliceAhead
    unfold nextUnits
    split
    · rename_i pending
      exact le_min (countdowns.arrivalAhead pending) (Int.le_of_lt sliceAhead)
    · exact Int.le_of_lt sliceAhead
  have nonnegative : 0 ≤ nanoseconds value := by
    rw [distance]
    exact Int.mul_nonneg (by omega) (Int.le_of_lt unit.positive)
  refine ⟨value, ?_, normalized, distance⟩
  rw [setTimer, isValue, timerSettime,
    if_pos ⟨normalized.tvSec_nonneg nonnegative, normalized.nonnegative, normalized.bounded⟩]
  rfl

/-! ### The two timer events -/

/-- What a timer event did: its reason, the number of slices ended with it, and
the time it was due. -/
inductive Fired (entries : List Entry) (c later : Core) (slices : Nat) (made : List Call) :
    EventType → Nat → Int → Prop where
  | slice : later.arrivalPtr = c.arrivalPtr → addedProcesses made = [] →
      Fired entries c later slices made .timesliceOver (slices + 1)
        (RR_TIMES_OF_UNIT * (slices + 1))
  | arrival : arrivalOf entries c.arrivalPtr < RR_TIMES_OF_UNIT * (slices + 1) →
      c.arrivalPtr < later.arrivalPtr → later.arrivalPtr ≤ entries.length →
      (∀ process, c.arrivalPtr ≤ process → process < later.arrivalPtr →
        arrivalOf entries process = arrivalOf entries c.arrivalPtr) →
      (later.arrivalPtr < entries.length →
        arrivalOf entries c.arrivalPtr < arrivalOf entries later.arrivalPtr) →
      addedProcesses made =
        List.range' c.arrivalPtr (later.arrivalPtr - c.arrivalPtr) →
      Fired entries c later slices made .processArrival slices
        (arrivalOf entries c.arrivalPtr)

/-- Only the arrival pointer and the added processes matter. -/
theorem Fired.congr {before before' after after' : Core} {made made' : List Call}
    {reason : EventType} {slices' : Nat} {due : Int}
    (fired : Fired entries before after slices made reason slices' due)
    (sameBefore : before'.arrivalPtr = before.arrivalPtr)
    (sameAfter : after'.arrivalPtr = after.arrivalPtr)
    (sameAdded : addedProcesses made' = addedProcesses made) :
    Fired entries before' after' slices made' reason slices' due := by
  cases fired with
  | slice samePtr added =>
      exact Fired.slice (by rw [sameAfter, sameBefore, samePtr]) (sameAdded.trans added)
  | arrival first further inRange together next added =>
      rw [← sameBefore] at first ⊢
      rw [← sameBefore, ← sameAfter] at further together next added
      rw [← sameAfter] at inRange
      exact Fired.arrival first further inRange together next (sameAdded.trans added)

theorem assertNonnegetiveRemaining_eq {remaining : Timespec} (normalized : Normalized remaining)
    (nonnegative : 0 ≤ nanoseconds remaining) :
    assertNonnegetiveRemaining remaining = .ok () := by
  have both : 0 ≤ remaining.tvSec ∧ 0 ≤ remaining.tvNsec :=
    ⟨normalized.tvSec_nonneg nonnegative, normalized.nonnegative⟩
  rw [assertNonnegetiveRemaining, decide_eq_true both]
  rfl

/-- The countdowns as `subtract_time_passed` leaves them at an arrival. -/
theorem Countdowns.subtract_arrival (countdowns : Countdowns entries timeUnit c ti units slices)
    (unit : UsableUnit timeUnit) (reads : Reads entries c) (queued : Queued c queue)
    (pending : c.arrivalPtr < entries.length)
    (first : arrivalOf entries c.arrivalPtr < RR_TIMES_OF_UNIT * (slices + 1)) :
    getExpireReason c ti = .processArrival ∧ subtractTimePassed c ti = { ti with
      timesliceRemaining := timespecSubtract ti.timesliceRemaining ti.arrivalRemaining
      arrivalRemaining := zeroTimespec } := by
  have isRR := queued.strategy
  have notEmpty := (reads.arrivalQueueEmpty_iff queued).mpr pending
  have least := countdowns.min_eq unit pending
  rw [if_pos first] at least
  constructor
  · rw [getExpireReason, if_neg (fun notRR => notRR isRR), notEmpty, least]
    rfl
  · rw [subtractTimePassed, if_pos ⟨isRR, notEmpty⟩, least]

/-- The next arrival comes before the end of the slice. -/
theorem arrival_fires (fork : Core → ProcessPtr → Int) (order : ArrivalOrder entries)
    (unit : UsableUnit timeUnit) (reads : Reads entries c) (queued : Queued c queue)
    (countdowns : Countdowns entries timeUnit c ti units slices)
    (pending : c.arrivalPtr < entries.length)
    (first : arrivalOf entries c.arrivalPtr < RR_TIMES_OF_UNIT * (slices + 1)) :
    getExpireReason c ti = .processArrival ∧ ∃ later ti' queue' made,
      handleExpiry fork c (subtractTimePassed c ti) .processArrival = .ok (later, ti') ∧
      Reads entries later ∧ Queued later queue' ∧
      Countdowns entries timeUnit later ti' (arrivalOf entries c.arrivalPtr) slices ∧
      later.calls = c.calls ++ made ∧
      Fired entries c later slices made .processArrival slices
        (arrivalOf entries c.arrivalPtr) := by
  obtain ⟨reason, passed⟩ := countdowns.subtract_arrival unit reads queued pending first
  obtain ⟨later, untilNext, made, admitted, queued', group, calls, added⟩ :=
    processArrival_queued fork queued (by rw [reads.numProcess]; exact pending)
  have sameTable := group.input.arrivalTime
  have together := group.together
  have outcome := group.next
  have inRange := group.within
  simp only [reads.arrivalTime] at together outcome
  rw [reads.numProcess] at outcome inRange
  have gap : 0 ≤ untilNext ∧ (later.arrivalPtr < entries.length →
      0 < untilNext ∧ untilNext =
        arrivalOf entries later.arrivalPtr - arrivalOf entries c.arrivalPtr) := by
    rcases outcome with ⟨all, isZero⟩ | ⟨more, notZero, distance⟩
    · rw [isZero, all]
      exact ⟨Int.le_refl 0, fun impossible => absurd impossible (Nat.lt_irrefl _)⟩
    · have ordered := order.arrivalOf_mono (Nat.le_of_lt group.reached) more
      exact ⟨by omega, fun _ => ⟨by omega, distance⟩⟩
  obtain ⟨multiplied, product⟩ := timespecMultiply_spec unit.normalized gap.1
  obtain ⟨subtracted, difference⟩ :=
    timespecSubtract_spec countdowns.sliceNormalized countdowns.arrivalNormalized
  have ahead := countdowns.arrivalAhead pending
  have done := countdowns.slicesDone
  refine ⟨reason, later, { ti with
    timesliceRemaining := timespecSubtract ti.timesliceRemaining ti.arrivalRemaining
    arrivalRemaining := timespecMultiply timeUnit untilNext }, _, made, ?_, ?_, queued', ?_,
    calls, Fired.arrival first group.reached inRange together ?_ added⟩
  · rw [handleExpiry, admitted, ok_bind, passed, updateArrivalRemaining,
      assertNonnegetiveRemaining_eq zeroTimespec_normalized (Int.le_refl 0), ← countdowns.unit]
    rfl
  · exact ⟨group.input.numProcess.trans reads.numProcess, fun process =>
      (sameTable process).trans (reads.arrivalTime process)⟩
  · exact
      { unit := countdowns.unit
        sliceNormalized := subtracted
        slice := by
          rw [difference, countdowns.slice, countdowns.arrival pending, ← Int.sub_mul]
          congr 1
          omega
        arrivalNormalized := multiplied
        arrival := by
          intro more
          rw [product, (gap.2 more).2]
        slicesDone := by omega
        sliceAhead := first
        arrivalsDone := by
          intro process before
          rcases Nat.lt_or_ge process c.arrivalPtr with early | inGroup
          · exact Int.le_trans (countdowns.arrivalsDone process early) ahead
          · exact Int.le_of_eq (together process inGroup before)
        arrivalAhead := by
          intro more
          exact order.arrivalOf_mono (Nat.le_of_lt group.reached) more }
  · intro more
    have positive := gap.2 more
    omega

/-- The countdowns as `subtract_time_passed` leaves them when a slice ends. -/
theorem Countdowns.subtract_slice (countdowns : Countdowns entries timeUnit c ti units slices)
    (unit : UsableUnit timeUnit) (reads : Reads entries c) (queued : Queued c queue)
    (first : c.arrivalPtr < entries.length →
      RR_TIMES_OF_UNIT * (slices + 1) ≤ arrivalOf entries c.arrivalPtr) :
    getExpireReason c ti = .timesliceOver ∧ ∃ arrivalRemaining timesliceRemaining,
      subtractTimePassed c ti = { ti with
        arrivalRemaining := arrivalRemaining
        timesliceRemaining := timesliceRemaining } ∧
      Normalized arrivalRemaining ∧
      (c.arrivalPtr < entries.length → nanoseconds arrivalRemaining =
        (arrivalOf entries c.arrivalPtr - RR_TIMES_OF_UNIT * (slices + 1)) *
          nanoseconds timeUnit) ∧
      Normalized timesliceRemaining ∧ 0 ≤ nanoseconds timesliceRemaining := by
  have isRR := queued.strategy
  by_cases pending : c.arrivalPtr < entries.length
  · have notEmpty := (reads.arrivalQueueEmpty_iff queued).mpr pending
    have least := countdowns.min_eq unit pending
    rw [if_neg (Int.not_lt.mpr (first pending))] at least
    obtain ⟨subtracted, difference⟩ :=
      timespecSubtract_spec countdowns.arrivalNormalized countdowns.sliceNormalized
    refine ⟨?_, timespecSubtract ti.arrivalRemaining ti.timesliceRemaining, zeroTimespec, ?_,
      subtracted, ?_, zeroTimespec_normalized, Int.le_refl 0⟩
    · rw [getExpireReason, if_neg (fun notRR => notRR isRR), notEmpty, least]
      rfl
    · rw [subtractTimePassed, if_pos ⟨isRR, notEmpty⟩, least]
    · intro _
      rw [difference, countdowns.slice, countdowns.arrival pending, ← Int.sub_mul]
      congr 1
      omega
  · have empty := reads.arrivalQueueEmpty_of_all queued pending
    have ahead := countdowns.sliceAhead
    have nonnegative : 0 ≤ nanoseconds ti.timesliceRemaining := by
      rw [countdowns.slice]
      exact Int.mul_nonneg (by omega) (Int.le_of_lt unit.positive)
    refine ⟨?_, ti.arrivalRemaining, ti.timesliceRemaining, ?_, countdowns.arrivalNormalized,
      fun impossible => absurd impossible pending, countdowns.sliceNormalized, nonnegative⟩
    · rw [getExpireReason, if_neg (fun notRR => notRR isRR), if_pos empty]
    · rw [subtractTimePassed, empty, if_neg (fun both => Bool.false_ne_true both.2.symm)]

/-- The slice ends no later than the next arrival, or nothing is to arrive. -/
theorem slice_fires (fork : Core → ProcessPtr → Int) (unit : UsableUnit timeUnit)
    (reads : Reads entries c) (queued : Queued c queue)
    (countdowns : Countdowns entries timeUnit c ti units slices)
    (first : c.arrivalPtr < entries.length →
      RR_TIMES_OF_UNIT * (slices + 1) ≤ arrivalOf entries c.arrivalPtr) :
    getExpireReason c ti = .timesliceOver ∧ ∃ later ti' queue' made,
      handleExpiry fork c (subtractTimePassed c ti) .timesliceOver = .ok (later, ti') ∧
      Reads entries later ∧ Queued later queue' ∧
      Countdowns entries timeUnit later ti' (RR_TIMES_OF_UNIT * (slices + 1)) (slices + 1) ∧
      later.calls = c.calls ++ made ∧
      Fired entries c later slices made .timesliceOver (slices + 1)
        (RR_TIMES_OF_UNIT * (slices + 1)) := by
  have ahead := countdowns.sliceAhead
  obtain ⟨reason, arrivalRemaining, timesliceRemaining, subtracted, arrivalNormalized, arrival,
    sliceNormalized, nonnegative⟩ := countdowns.subtract_slice unit reads queued first
  obtain ⟨later, rotated, isLater, queued', _⟩ := timesliceOver_queued queued
  obtain ⟨multiplied, product⟩ :=
    timespecMultiply_spec unit.normalized (by decide : 0 ≤ RR_TIMES_OF_UNIT)
  have samePtr : later.arrivalPtr = c.arrivalPtr := by rw [isLater]
  have laterRR : ¬ later.currentStrategy ≠ .RR := fun notRR => notRR queued'.strategy
  refine ⟨reason, later, { ti with
    arrivalRemaining := arrivalRemaining
    timesliceRemaining := timespecMultiply timeUnit RR_TIMES_OF_UNIT }, _, [.timesliceOver],
    ?_, ?_, queued', ?_, by rw [isLater], Fired.slice samePtr rfl⟩
  · rw [handleExpiry, rotated, ok_bind, subtracted, updateTimesliceRemaining, if_neg laterRR,
      assertNonnegetiveRemaining_eq sliceNormalized nonnegative, ← countdowns.unit]
    rfl
  · rw [isLater]
    exact ⟨reads.numProcess, reads.arrivalTime⟩
  · exact
      { unit := countdowns.unit
        sliceNormalized := multiplied
        slice := by
          have whole : RR_TIMES_OF_UNIT * ((slices + 1 : Nat) + 1) -
              RR_TIMES_OF_UNIT * (slices + 1) = RR_TIMES_OF_UNIT := by
            unfold RR_TIMES_OF_UNIT
            omega
          rw [product, whole]
        arrivalNormalized := arrivalNormalized
        arrival := by
          rw [samePtr]
          exact arrival
        slicesDone := by
          unfold RR_TIMES_OF_UNIT
          omega
        sliceAhead := by
          unfold RR_TIMES_OF_UNIT
          omega
        arrivalsDone := by
          intro process before
          rw [samePtr] at before
          exact Int.le_trans (countdowns.arrivalsDone process before) (Int.le_of_lt ahead)
        arrivalAhead := by
          intro more
          rw [samePtr] at more ⊢
          exact first more }

/-! ### One iteration -/

/-- A loop state that has handled all its timer events so far. -/
structure Ticking (entries : List Entry) (timeUnit : Timespec) (s : LoopState)
    (units : Int) (slices : Nat) : Prop where
  reads : Reads entries s.core
  queued : ∃ queue, Queued s.core queue
  countdowns : Countdowns entries timeUnit s.core s.timer units slices

/-- The timer was set to the distance from the last event to the next. -/
structure Armed (entries : List Entry) (timeUnit : Timespec) (s : LoopState)
    (units : Int) (slices : Nat) : Prop where
  normalized : Normalized s.itValue
  distance : nanoseconds s.itValue =
    (nextUnits entries s.core slices - units) * nanoseconds timeUnit

variable {s : LoopState}

/-- A timer event happens for the reason it is due for; a tie ends the slice. -/
theorem timerBranch_fires (fork : Core → ProcessPtr → Int) (order : ArrivalOrder entries)
    (unit : UsableUnit timeUnit) (ticking : Ticking entries timeUnit s units slices) :
    ∃ later slices' made, timerBranch fork s = .ok later ∧
      Ticking entries timeUnit later (nextUnits entries s.core slices) slices' ∧
      Armed entries timeUnit later (nextUnits entries s.core slices) slices' ∧
      later.core.calls = s.core.calls ++ made ∧
      Fired entries s.core later.core slices made later.eventType slices'
        (nextUnits entries s.core slices) := by
  obtain ⟨queue, queued⟩ := ticking.queued
  let noted : Core := { s.core with calls := s.core.calls ++ [.timerExpired] }
  have queuedNoted : Queued noted queue := queued.with_calls _
  have readsNoted : Reads entries noted := ⟨ticking.reads.numProcess, ticking.reads.arrivalTime⟩
  have countdownsNoted : Countdowns entries timeUnit noted s.timer units slices :=
    { ticking.countdowns with }
  -- either event, with its reason
  have fires : ∃ reason later ti' queue' made slices',
      getExpireReason noted s.timer = reason ∧
      handleExpiry fork noted (subtractTimePassed noted s.timer) reason = .ok (later, ti') ∧
      Reads entries later ∧ Queued later queue' ∧
      Countdowns entries timeUnit later ti' (nextUnits entries s.core slices) slices' ∧
      later.calls = noted.calls ++ made ∧
      Fired entries noted later slices made reason slices' (nextUnits entries s.core slices) := by
    unfold nextUnits
    by_cases pending : s.core.arrivalPtr < entries.length
    · rw [if_pos pending]
      rcases Int.lt_or_le (arrivalOf entries s.core.arrivalPtr)
          (RR_TIMES_OF_UNIT * (slices + 1)) with arrivalFirst | notFirst
      · rw [min_eq_left (Int.le_of_lt arrivalFirst)]
        obtain ⟨reason, later, ti', queue', made, outcome⟩ :=
          arrival_fires fork order unit readsNoted queuedNoted countdownsNoted pending arrivalFirst
        exact ⟨_, later, ti', queue', made, slices, reason, outcome⟩
      · rw [min_eq_right notFirst]
        obtain ⟨reason, later, ti', queue', made, outcome⟩ :=
          slice_fires fork unit readsNoted queuedNoted countdownsNoted (fun _ => notFirst)
        exact ⟨_, later, ti', queue', made, slices + 1, reason, outcome⟩
    · rw [if_neg pending]
      obtain ⟨reason, later, ti', queue', made, outcome⟩ :=
        slice_fires fork unit readsNoted queuedNoted countdownsNoted
          (fun impossible => absurd impossible pending)
      exact ⟨_, later, ti', queue', made, slices + 1, reason, outcome⟩
  obtain ⟨reason, later, ti', queue', made, slices', isReason, handled, reads', queued',
    countdowns', calls, fired⟩ := fires
  obtain ⟨value, set, normalized, distance⟩ := countdowns'.setTimer_eq unit reads' queued'
  refine ⟨⟨later, ti', value, reason⟩, slices', [.timerExpired] ++ made, ?_,
    ⟨reads', ⟨queue', queued'⟩, countdowns'⟩, ⟨normalized, distance⟩, ?_, ?_⟩
  · rw [timerBranch]
    change (handleExpiry fork noted (subtractTimePassed noted s.timer)
      (getExpireReason noted s.timer) >>= _) = _
    rw [isReason, handled, ok_bind, set]
    rfl
  · rw [calls, List.append_assoc]
  · exact fired.congr rfl rfl rfl

theorem loopBody_timer (fork : Core → ProcessPtr → Int) (order : ArrivalOrder entries)
    (unit : UsableUnit timeUnit) (ticking : Ticking entries timeUnit s units slices) :
    ∃ later breaks slices' made,
      loopBody fork { s with eventType := .timerExpired } = .ok (later, breaks) ∧
      Ticking entries timeUnit later (nextUnits entries s.core slices) slices' ∧
      Armed entries timeUnit later (nextUnits entries s.core slices) slices' ∧
      later.core.calls = s.core.calls ++ made ∧
      Fired entries s.core later.core slices made later.eventType slices'
        (nextUnits entries s.core slices) ∧
      (breaks = true → later.core.arrivalPtr = entries.length) := by
  have woken : Ticking entries timeUnit { s with eventType := .timerExpired } units slices :=
    ⟨ticking.reads, ticking.queued, ticking.countdowns⟩
  obtain ⟨handled, slices', made, branch, ticking', armed, calls, fired⟩ :=
    timerBranch_fires fork order unit woken
  obtain ⟨queue, queued⟩ := ticking'.queued
  obtain ⟨switched, ended⟩ := endIteration_queued queued
  refine ⟨{ handled with core := { handled.core with
      calls := handled.core.calls ++ switched.map .priority } },
    arrivalQueueEmpty handled.core && queue.isEmpty, slices', made ++ switched.map .priority,
    ?_, ⟨⟨ticking'.reads.numProcess, ticking'.reads.arrivalTime⟩,
      ⟨queue, queued.with_calls _⟩, { ticking'.countdowns with }⟩,
    ⟨armed.normalized, armed.distance⟩, ?_, ?_, ?_⟩
  · rw [loopBody]
    change (timerBranch fork { s with eventType := .timerExpired } >>= _) = _
    rw [branch, ok_bind, ended]
    rfl
  · rw [calls, List.append_assoc]
  · have sameAdded : addedProcesses (made ++ switched.map .priority) = addedProcesses made := by
      rw [addedProcesses_append, addedProcesses_priority, List.append_nil]
    exact fired.congr rfl rfl sameAdded
  · intro breaks
    have all := beq_iff_eq.mp (Bool.and_eq_true_iff.mp breaks).1
    exact all.trans ticking'.reads.numProcess

/-- A termination leaves the timer alone. -/
theorem loopBody_child (fork : Core → ProcessPtr → Int)
    (ticking : Ticking entries timeUnit s units slices) {process : ProcessPtr}
    (runs : s.core.RunsUnder process s.core.currentStrategy) :
    ∃ later breaks, loopBody fork { s with eventType := .childTerminated } = .ok (later, breaks) ∧
      Ticking entries timeUnit later units slices ∧ later.itValue = s.itValue ∧
      later.core.arrivalPtr = s.core.arrivalPtr := by
  obtain ⟨queue, queued⟩ := ticking.queued
  obtain ⟨tail, isHead⟩ := queued.runsUnder runs
  subst isHead
  obtain ⟨removed, rr, removing, isRemoved, queued', _⟩ :=
    removeCurrentProcess_queued (queued.with_calls (s.core.calls ++ [.wait]))
  obtain ⟨switched, ended⟩ := endIteration_queued queued'
  have samePtr : removed.arrivalPtr = s.core.arrivalPtr := by rw [isRemoved]
  refine ⟨{ core := { removed with calls := removed.calls ++ switched.map .priority }
            timer := s.timer
            itValue := s.itValue
            eventType := .childTerminated }, arrivalQueueEmpty removed && tail.isEmpty, ?_, ?_,
    rfl, samePtr⟩
  · rw [loopBody]
    change ((UserScheduler.removeCurrentProcess { s.core with calls := s.core.calls ++ [.wait] }
      >>= _) >>= _) = _
    rw [removing]
    change (endIteration removed >>= _) = _
    rw [ended]
    rfl
  · refine ⟨?_, ⟨tail, queued'.with_calls _⟩, ?_⟩
    · rw [isRemoved]
      exact ⟨ticking.reads.numProcess, ticking.reads.arrivalTime⟩
    · rw [isRemoved]
      exact { ticking.countdowns with }

end UserScheduler.RR
