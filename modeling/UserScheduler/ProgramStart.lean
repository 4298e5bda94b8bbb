/-
The program up to its loop: the input is read, the unit is measured and the
timer is set.

How this ends is decided by three things in the file: the lengths of the names,
the number of processes and the first arrival time.
-/

import UserScheduler.Input
import UserScheduler.Kernel
import UserScheduler.Timekeeping

namespace UserScheduler

open Machines Tokens
open RR (UsableUnit arrivalOf expiresAt)
open Input (Unwritten NamedEntry Numeral Line NamesFit LinesEnd filled strategyName readInput)

/-! ### The unit -/

def UNIT_MEASURE_REPEAT : Int := 1000

/-- `measure_time_unit`, called at a time, when a unit takes so long. -/
def measureTimeUnit (monotonic : Int → Timespec) (unitTime now : Int) : Timespec :=
  let started := monotonic now
  let ended := monotonic (now + UNIT_MEASURE_REPEAT * unitTime)
  timespecDivide (timespecSubtract ended started) UNIT_MEASURE_REPEAT

/-- `CLOCK_MONOTONIC`. -/
structure Monotonic (clock : Int → Timespec) : Prop where
  normalized : ∀ time, Normalized (clock time)
  elapsed : ∀ first second,
    nanoseconds (clock second) - nanoseconds (clock first) = second - first

theorem measureTimeUnit_spec {clock : Int → Timespec} (monotonic : Monotonic clock)
    {unitTime : Int} (positive : 0 < unitTime) (now : Int) :
    UsableUnit (measureTimeUnit clock unitTime now) ∧
      nanoseconds (measureTimeUnit clock unitTime now) = unitTime := by
  obtain ⟨normalized, difference⟩ := timespecSubtract_spec
    (monotonic.normalized (now + UNIT_MEASURE_REPEAT * unitTime)) (monotonic.normalized now)
  rw [monotonic.elapsed, add_sub_cancel_left] at difference
  have nonnegative := normalized.tvSec_nonneg (by rw [difference, UNIT_MEASURE_REPEAT]; omega)
  obtain ⟨normalized', quotient⟩ :=
    timespecDivide_spec normalized nonnegative (n := UNIT_MEASURE_REPEAT) (by decide)
  rw [difference, Int.mul_fdiv_cancel_left _ (by decide)] at quotient
  exact ⟨⟨normalized', by rw [measureTimeUnit, quotient]; exact positive⟩, quotient⟩

/-! ### main -/

/-- main up to its loop: the names that it will print, and the system.  For a
negative `num_process` malloc returns null, and the first arrival is read from
there. -/
def mainStart (unwritten : Unwritten) (garbage : Nat → Option ProcessPtr)
    (monotonic : Int → Timespec) (unitTime now : Int) (stdin : List Char) :
    Result (List (List Char) × System) := do
  let workload ← readInput unwritten stdin
  if workload.numProcess < 0 then .error .nullDereference
  else do
    let entries := workload.allProcessInfo.map NamedEntry.entry
    let system ← systemStart workload.currentStrategy entries garbage
      (measureTimeUnit monotonic unitTime now)
    return (workload.allProcessInfo.map NamedEntry.name, system)

theorem mainStart_eq {unwritten : Unwritten} {garbage : Nat → Option ProcessPtr}
    {monotonic : Int → Timespec} {unitTime now : Int} {stdin : List Char}
    {workload : Input.Workload} (read : readInput unwritten stdin = .ok workload) :
    mainStart unwritten garbage monotonic unitTime now stdin =
      if workload.numProcess < 0 then .error .nullDereference
      else (systemStart workload.currentStrategy (workload.allProcessInfo.map NamedEntry.entry)
        garbage (measureTimeUnit monotonic unitTime now)).map fun system =>
          (workload.allProcessInfo.map NamedEntry.name, system) := by
  rw [mainStart, read]
  change (if workload.numProcess < 0 then _ else _) = _
  split
  · rfl
  · cases systemStart workload.currentStrategy (workload.allProcessInfo.map NamedEntry.entry)
      garbage (measureTimeUnit monotonic unitTime now) <;> rfl

/-! ### The first timer -/

variable {entries : List Entry} {timeUnit : Timespec} {strategy : ScheduleStrategy}
  {garbage : Nat → Option ProcessPtr}

/-- When the first event is due, in units. -/
def firstEvent (strategy : ScheduleStrategy) (entries : List Entry) : Int :=
  if strategy = .RR then min (arrivalOf entries 0) RR_TIMES_OF_UNIT else arrivalOf entries 0

/-- What `create_timer_and_init_timespec` writes. -/
def firstTimer (strategy : ScheduleStrategy) (entries : List Entry) (timeUnit : Timespec) :
    TimerInfo :=
  { timeUnit := timeUnit
    arrivalRemaining := timespecMultiply timeUnit (arrivalOf entries 0)
    timesliceRemaining :=
      if strategy = .RR then timespecMultiply timeUnit RR_TIMES_OF_UNIT else zeroTimespec }

theorem createTimer_eq (pending : 0 < entries.length) :
    createTimer (initCore strategy entries garbage) timeUnit =
      (setTimer (initCore strategy entries garbage) (firstTimer strategy entries timeUnit)).map
        fun armed =>
          (⟨initCore strategy entries garbage, firstTimer strategy entries timeUnit, armed,
            .timerExpired⟩, arrivalOf entries 0 == 0) := by
  have notEmpty : arrivalQueueEmpty (initCore strategy entries garbage) = false :=
    beq_eq_false_iff_ne.mpr (Nat.ne_of_lt pending)
  have untilFirst : timeunitsUntilNextArrival (initCore strategy entries garbage) =
      .ok (arrivalOf entries 0) := by
    rw [timeunitsUntilNextArrival, notEmpty]
    rfl
  have slices : initTimesliceRemaining (initCore strategy entries garbage)
      { timeUnit := timeUnit
        arrivalRemaining := timespecMultiply timeUnit (arrivalOf entries 0)
        timesliceRemaining := zeroTimespec } = firstTimer strategy entries timeUnit := by
    cases strategy <;> rfl
  simp only [createTimer, untilFirst, ok_bind, slices]
  cases setTimer (initCore strategy entries garbage) (firstTimer strategy entries timeUnit) <;> rfl

/-- Both fields of a negative multiple are negative or zero. -/
theorem timespecMultiply_nonpos (unit : UsableUnit timeUnit) {units : Int}
    (negative : units < 0) :
    (timespecMultiply timeUnit units).tvSec ≤ 0 ∧ (timespecMultiply timeUnit units).tvNsec ≤ 0 := by
  have seconds := unit.normalized.tvSec_nonneg (Int.le_of_lt unit.positive)
  have secondsProduct := Int.mul_nonpos_of_nonneg_of_nonpos seconds (Int.le_of_lt negative)
  have nanos : 0 ≤ timeUnit.tvNsec * -units :=
    Int.mul_nonneg unit.normalized.nonnegative (by omega)
  have opposite : timeUnit.tvNsec * units = -(timeUnit.tvNsec * -units) := by
    rw [Int.mul_neg, Int.neg_neg]
  have quotient := Int.tdiv_nonneg nanos (by decide : 0 ≤ BILLION)
  have remainder := Int.tmod_nonneg BILLION nanos
  simp only [timespecMultiply]
  rw [opposite, Int.neg_tdiv, Int.neg_tmod]
  omega

theorem minTimespecp_negative (unit : UsableUnit timeUnit) {units : Int} (negative : units < 0)
    {slice : Timespec} (normalized : Normalized slice) (nonnegative : 0 ≤ slice.tvSec) :
    minTimespecp (timespecMultiply timeUnit units) slice = .lhs := by
  have someNegative := timespecMultiply_negative unit negative
  obtain ⟨seconds, nanos⟩ := timespecMultiply_nonpos unit negative
  have sliceNanos := normalized.nonnegative
  have less : (timespecSubtract (timespecMultiply timeUnit units) slice).tvSec < 0 := by
    rw [timespecSubtract]
    split
    · dsimp only
      omega
    · dsimp only
      omega
  exact if_pos (Or.inl less)

/-- The timer is set to the first event, be it in the past. -/
theorem itValue_first (unit : UsableUnit timeUnit) (pending : 0 < entries.length) :
    itValue (initCore strategy entries garbage) (firstTimer strategy entries timeUnit) =
      timespecMultiply timeUnit (firstEvent strategy entries) := by
  by_cases isRR : strategy = .RR
  · subst isRR
    have notEmpty : arrivalQueueEmpty (initCore .RR entries garbage) = false :=
      beq_eq_false_iff_ne.mpr (Nat.ne_of_lt pending)
    have full : (0 : Int) ≤ RR_TIMES_OF_UNIT := by decide
    obtain ⟨normalized, value⟩ := timespecMultiply_spec unit.normalized full
    have sliceSeconds := timespecMultiply_tvSec_nonneg unit full
    have isRR : ¬ (initCore .RR entries garbage).currentStrategy ≠ .RR := not_not_intro rfl
    have isMin : minTimespecp (firstTimer .RR entries timeUnit).arrivalRemaining
        (firstTimer .RR entries timeUnit).timesliceRemaining =
          if arrivalOf entries 0 < RR_TIMES_OF_UNIT then .lhs else .rhs := by
      by_cases negative : arrivalOf entries 0 < 0
      · rw [if_pos (Int.lt_of_lt_of_le negative full)]
        exact minTimespecp_negative unit negative normalized sliceSeconds
      · obtain ⟨normalized', value'⟩ :=
          timespecMultiply_spec unit.normalized (Int.not_lt.mp negative)
        refine (minTimespecp_eq normalized' normalized).trans ?_
        simp only [value, value', Int.mul_lt_mul_right unit.positive]
    rw [itValue, if_neg isRR, notEmpty, if_neg Bool.false_ne_true, isMin, firstEvent, if_pos rfl]
    by_cases sooner : arrivalOf entries 0 < RR_TIMES_OF_UNIT
    · rw [if_pos sooner, min_eq_left (Int.le_of_lt sooner)]
      rfl
    · rw [if_neg sooner, min_eq_right (Int.not_lt.mp sooner)]
      rfl
  · rw [itValue, if_pos (show (initCore strategy entries garbage).currentStrategy ≠ .RR from isRR),
      firstEvent, if_neg isRR]
    rfl

theorem firstEvent_neg_iff : firstEvent strategy entries < 0 ↔ arrivalOf entries 0 < 0 := by
  unfold firstEvent RR_TIMES_OF_UNIT
  split <;> omega

/-! ### How the start ends -/

theorem systemStart_empty : systemStart strategy [] garbage timeUnit = .error .assertionFailed := by
  rfl

theorem systemStart_negative (unit : UsableUnit timeUnit) (pending : 0 < entries.length)
    (negative : arrivalOf entries 0 < 0) :
    systemStart strategy entries garbage timeUnit = .error .schedulerExit := by
  have refused : setTimer (initCore strategy entries garbage)
      (firstTimer strategy entries timeUnit) = .error .schedulerExit := by
    rw [setTimer, itValue_first unit pending]
    exact timerSettime_negative unit (firstEvent_neg_iff.mpr negative)
  rw [systemStart, createTimer_eq pending, refused]
  rfl

theorem systemStart_waiting (unit : UsableUnit timeUnit) (pending : 0 < entries.length)
    (nonnegative : 0 ≤ arrivalOf entries 0) :
    ∃ system, systemStart strategy entries garbage timeUnit = .ok system ∧
      system.loop.core = initCore strategy entries garbage ∧ system.stopped = false ∧
      system.deadline = some (firstEvent strategy entries * nanoseconds timeUnit) := by
  have first : 0 ≤ firstEvent strategy entries :=
    Int.not_lt.mp fun negative => Int.not_lt.mpr nonnegative (firstEvent_neg_iff.mp negative)
  have armed : setTimer (initCore strategy entries garbage)
      (firstTimer strategy entries timeUnit) =
        .ok (timespecMultiply timeUnit (firstEvent strategy entries)) := by
    rw [setTimer, itValue_first unit pending]
    exact timerSettime_gap unit first
  refine ⟨_, by rw [systemStart, createTimer_eq pending, armed]; rfl, rfl, rfl, ?_⟩
  change (if (arrivalOf entries 0 == 0) = true then some 0
    else expiresAt 0 (timespecMultiply timeUnit (firstEvent strategy entries))) = _
  rw [expiresAt_gap unit 0 first, Int.zero_add]
  by_cases atOnce : arrivalOf entries 0 = 0
  · have isZero : firstEvent strategy entries = 0 := by
      rw [firstEvent, atOnce]
      split <;> rfl
    rw [if_pos (beq_iff_eq.mpr atOnce), isZero, Int.zero_mul]
  · have notZero : firstEvent strategy entries ≠ 0 := by
      unfold firstEvent RR_TIMES_OF_UNIT
      split <;> omega
    rw [if_neg (fun isZero => atOnce (beq_iff_eq.mp isZero)), if_neg notZero]

def plainClock (time : Int) : Timespec := { tvSec := time / BILLION, tvNsec := time % BILLION }

theorem plainClock_monotonic : Monotonic plainClock where
  normalized time := ⟨Int.emod_nonneg time (by decide), Int.emod_lt_of_pos time (by decide)⟩
  elapsed first second := by
    have exact (time : Int) : nanoseconds (plainClock time) = time :=
      Int.ediv_mul_add_emod time BILLION
    rw [exact, exact]

end UserScheduler
