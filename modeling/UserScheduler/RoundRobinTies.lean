/-
RR and arrivals that fall on the end of a slice.

Such an arrival leaves a countdown of zero behind, and a zero disarms the timer.
Nobody arms it again: the loop only hears of children that end, so the process
never arrives and the program never ends.
-/

import UserScheduler.SystemTermination

namespace UserScheduler

open Machines
open RR (UsableUnit arrivalOf Reads ArrivalOrder OffSlices expiresAt nextUnits Ticking)

variable {env : Environment} {entries : List Entry} {timeUnit : Timespec}
  {strategy : ScheduleStrategy} {s later : System} {queue queue' : List ProcessPtr}
  {slices : Nat}

/-! ### Slices -/

def sliceTime (timeUnit : Timespec) : Int := RR_TIMES_OF_UNIT * nanoseconds timeUnit

/-- The end of the slice after so many. -/
def sliceEnd (timeUnit : Timespec) (slices : Nat) : Int := (slices + 1) * sliceTime timeUnit

/-- So many slices have ended, and the timer waits for the next event.  Nobody
was forgotten at the last slice end. -/
structure Sliced (entries : List Entry) (timeUnit : Timespec) (s : System) (slices : Nat) :
    Prop where
  ticking : ∃ units, Ticking entries timeUnit s.loop units slices
  deadline : s.deadline = some (nextUnits entries s.loop.core slices * nanoseconds timeUnit)
  ahead : s.loop.core.arrivalPtr < entries.length →
    slices = 0 ∨ RR_TIMES_OF_UNIT * slices < arrivalOf entries s.loop.core.arrivalPtr

theorem sliceTime_pos (unit : UsableUnit timeUnit) : 0 < sliceTime timeUnit :=
  Int.mul_pos (by decide) unit.positive

theorem sliceEnd_eq (timeUnit : Timespec) (slices : Nat) :
    sliceEnd timeUnit slices = RR_TIMES_OF_UNIT * (slices + 1) * nanoseconds timeUnit := by
  rw [sliceEnd, sliceTime, ← Int.mul_assoc, Int.mul_comm (slices + 1)]

theorem sliceEnd_mono (unit : UsableUnit timeUnit) {fewer more : Nat} (le : fewer ≤ more) :
    sliceEnd timeUnit fewer ≤ sliceEnd timeUnit more :=
  Int.mul_le_mul_of_nonneg_right (by omega) (Int.le_of_lt (sliceTime_pos unit))

/-- No slice ends late. -/
theorem Sliced.now_le (unit : UsableUnit timeUnit)
    (serving : Serving env entries timeUnit strategy s queue)
    (sliced : Sliced entries timeUnit s slices) : s.now ≤ sliceEnd timeUnit slices := by
  have ahead := serving.ahead _ sliced.deadline
  have bounded : nextUnits entries s.loop.core slices ≤ RR_TIMES_OF_UNIT * (slices + 1) :=
    RR.nextUnits_le_slice
  rw [sliceEnd_eq]
  exact Int.le_trans ahead (Int.mul_le_mul_of_nonneg_right bounded (Int.le_of_lt unit.positive))

theorem sliced_start (order : ArrivalOrder entries) (unit : UsableUnit timeUnit)
    {garbage : Nat → Option ProcessPtr} {initial : System}
    (started : systemStart .RR entries garbage timeUnit = .ok initial) :
    Sliced entries timeUnit initial 0 := by
  obtain ⟨found, isStart, onTime, _⟩ := RR.clockedStart_onTime order unit garbage
  rw [RR.clockedStart] at isStart
  obtain ⟨created, creating, isStart⟩ := bind_eq_ok isStart
  cases Except.ok.inj isStart
  rw [systemStart, creating] at started
  cases Except.ok.inj started
  exact ⟨⟨0, onTime.ticking⟩, onTime.deadline, fun _ => Or.inl rfl⟩

theorem Sliced.sameLoop (sliced : Sliced entries timeUnit s slices) (loop : later.loop = s.loop)
    (deadline : later.deadline = s.deadline) : Sliced entries timeUnit later slices := by
  constructor
  · rw [loop]
    exact sliced.ticking
  · rw [deadline, loop]
    exact sliced.deadline
  · rw [loop]
    exact sliced.ahead

theorem Sliced.finish {head : ProcessPtr} {rest : List ProcessPtr} {startTime : Timespec}
    (sliced : Sliced entries timeUnit s slices)
    (serving' : Serving env entries timeUnit .RR later queue')
    (finishes : Finishes env s later head rest queue' startTime) :
    Sliced entries timeUnit later slices := by
  obtain ⟨⟨units, ticking⟩, deadline, ahead⟩ := sliced
  have stillRR := serving'.dispatching.lists.queued serving'.isStrategy
  refine ⟨⟨units, ticking_of_keeps ticking finishes.keeps finishes.timer stillRR⟩, ?_, ?_⟩
  · rw [finishes.deadline, deadline, finishes.keeps.nextUnits_eq]
  · rw [finishes.keeps.arrivalPtr]
    exact ahead

/-- A timer event without a tie ends a slice or brings arrivals, never both. -/
theorem Sliced.alarm (workable : Workable env entries timeUnit .RR)
    (sliced : Sliced entries timeUnit s slices)
    (apart : s.loop.core.arrivalPtr < entries.length →
      arrivalOf entries s.loop.core.arrivalPtr ≠ RR_TIMES_OF_UNIT * (slices + 1))
    (due : s.deadline = some s.now) (stepped : systemStep env s .alarm = .ok later) :
    (later.loop.core.arrivalPtr = s.loop.core.arrivalPtr ∧
      Sliced entries timeUnit later (slices + 1) ∧ s.now = sliceEnd timeUnit slices) ∨
    (s.loop.core.arrivalPtr < later.loop.core.arrivalPtr ∧
      Sliced entries timeUnit later slices ∧ slices * sliceTime timeUnit ≤ s.now) := by
  obtain ⟨units, ticking⟩ := sliced.ticking
  have isTime : s.now = nextUnits entries s.loop.core slices * nanoseconds timeUnit :=
    Option.some.inj (due.symm.trans sliced.deadline)
  obtain ⟨body, isNow, isDeadline⟩ := alarm_body stepped
  obtain ⟨next, stopped, slices', made, ended, ticking', fired, _, expires⟩ :=
    ticking_alarm (env.fork s.kernel) workable.order workable.unit ticking apart isTime
  have isNext : next = later.loop :=
    (Prod.mk.inj (Except.ok.inj (ended.symm.trans body))).1
  subst isNext
  have done := ticking'.countdowns.slicesDone
  have notYet := ticking'.countdowns.arrivalAhead
  have sliced' (ahead : later.loop.core.arrivalPtr < entries.length →
      slices' = 0 ∨ RR_TIMES_OF_UNIT * slices' < arrivalOf entries later.loop.core.arrivalPtr) :
      Sliced entries timeUnit later slices' :=
    ⟨⟨_, ticking'⟩, isDeadline.trans expires, ahead⟩
  rw [isTime]
  generalize nextUnits entries s.loop.core slices = units' at fired done notYet
  generalize later.loop.eventType = reason at fired
  cases fired with
  | slice samePtr _ =>
      left
      refine ⟨samePtr, sliced' ?_, (sliceEnd_eq timeUnit slices).symm⟩
      intro pending
      right
      have reached := notYet pending
      rw [samePtr] at pending reached ⊢
      have different := apart pending
      push_cast
      omega
  | arrival _ further _ _ after _ =>
      right
      refine ⟨further, sliced' ?_, ?_⟩
      · intro pending
        right
        have apart' := after pending
        omega
      · rw [sliceTime, ← Int.mul_assoc, Int.mul_comm _ RR_TIMES_OF_UNIT]
        exact Int.mul_le_mul_of_nonneg_right done (Int.le_of_lt workable.unit.positive)

/-! ### The tie -/

/-- A slice end that coincides with an arrival disarms the timer. -/
theorem ticking_tie (fork : Core → ProcessPtr → Int) (order : ArrivalOrder entries)
    (unit : UsableUnit timeUnit) {loop : LoopState} {units : Int} {slices : Nat}
    (ticking : Ticking entries timeUnit loop units slices)
    (pending : loop.core.arrivalPtr < entries.length)
    (tie : arrivalOf entries loop.core.arrivalPtr = RR_TIMES_OF_UNIT * (slices + 1)) (time : Int) :
    ∃ next, loopBody fork { loop with eventType := .timerExpired } = .ok (next, false) ∧
      next.core.arrivalPtr = loop.core.arrivalPtr ∧ next.core.numProcess = entries.length ∧
      expiresAt time next.itValue = none := by
  obtain ⟨next, breaks, slices', made, ended, ticking', armed, _, fired, drained⟩ :=
    RR.loopBody_timer fork order unit ticking
  have samePtr := fired.samePtr_of_tie tie
  have goesOn : breaks = false := by
    rw [Bool.eq_false_iff]
    intro stops
    have all := drained stops
    omega
  have due := nextUnits_of_tie pending tie
  have again : nextUnits entries next.core slices' = nextUnits entries loop.core slices := by
    have sliceAhead := ticking'.countdowns.sliceAhead
    rw [due] at sliceAhead
    rw [due, nextUnits, samePtr, if_pos pending, min_eq_left (Int.le_of_lt sliceAhead)]
  have disarmed : timspecIsZero next.itValue = true := by
    rw [armed.normalized.isZero_iff, armed.distance, again, Int.sub_self, Int.zero_mul]
  refine ⟨next, by rw [ended, goesOn], samePtr, ticking'.reads.numProcess, ?_⟩
  rw [expiresAt, if_pos disarmed]

/-! ### After the tie -/

/-- Everybody who has arrived came off the slice ends. -/
def ArrivedOff (entries : List Entry) (s : System) : Prop :=
  ∀ process, process < s.loop.core.arrivalPtr → OffSlice (arrivalOf entries process)

/-- Somebody is still to come, and no timer will tell. -/
structure Stranded (entries : List Entry) (s : System) : Prop where
  disarmed : s.deadline = none
  waiting : s.stopped = false
  pending : s.loop.core.arrivalPtr < s.loop.core.numProcess
  arrived : ArrivedOff entries s

theorem endIteration_pending {c switched : Core} {breaks : Bool}
    (pending : c.arrivalPtr < c.numProcess) (ended : endIteration c = .ok (switched, breaks)) :
    breaks = false := by
  have notEmpty : arrivalQueueEmpty c = false := beq_eq_false_iff_ne.mpr (Nat.ne_of_lt pending)
  rw [endIteration, notEmpty, Bool.false_and, if_neg (by decide)] at ended
  obtain ⟨_, _, ended⟩ := bind_eq_ok ended
  cases Except.ok.inj ended
  rfl

theorem Stranded.wakes (stranded : Stranded entries s)
    (woken : wake env .childTerminated s = .ok later) : Stranded entries later := by
  rw [wake] at woken
  obtain ⟨⟨next, breaks⟩, body, woken⟩ := bind_eq_ok woken
  obtain ⟨kernel, _, woken⟩ := bind_eq_ok woken
  cases Except.ok.inj woken
  rw [loopBody] at body
  obtain ⟨dispatched, dispatching, body⟩ := bind_eq_ok body
  obtain ⟨⟨switched, breaks'⟩, ended, body⟩ := bind_eq_ok body
  cases Except.ok.inj body
  obtain ⟨handled, removed, dispatching⟩ := bind_eq_ok dispatching
  cases Except.ok.inj dispatching
  have internal := removeFromScheduler_internal removed
  have pending := stranded.pending
  have internal' := endIteration_internal ended
  have samePtr : switched.arrivalPtr = s.loop.core.arrivalPtr :=
    internal'.arrivalPtr.trans internal.arrivalPtr
  have sameCount : switched.numProcess = s.loop.core.numProcess :=
    internal'.numProcess.trans internal.numProcess
  constructor
  · exact stranded.disarmed
  · apply endIteration_pending _ ended
    rw [internal.arrivalPtr, internal.numProcess]
    exact pending
  · change switched.arrivalPtr < switched.numProcess
    rw [samePtr, sameCount]
    exact pending
  · intro process before
    change process < switched.arrivalPtr at before
    rw [samePtr] at before
    exact stranded.arrived process before

theorem Stranded.step (stranded : Stranded entries s) {event : SystemEvent}
    (allowed : (systemMachine env).enabled s event)
    (stepped : systemStep env s event = .ok later) : Stranded entries later := by
  cases event with
  | tick elapsed =>
      cases Except.ok.inj stepped
      exact ⟨stranded.disarmed, stranded.waiting, stranded.pending, stranded.arrived⟩
  | begin =>
      rw [systemStep] at stepped
      split at stepped
      · cases Except.ok.inj stepped
        exact stranded
      · obtain ⟨kernel, _, stepped⟩ := bind_eq_ok stepped
        cases Except.ok.inj stepped
        exact ⟨stranded.disarmed, stranded.waiting, stranded.pending, stranded.arrived⟩
  | finish =>
      rw [systemStep] at stepped
      split at stepped
      · cases Except.ok.inj stepped
        exact stranded
      · split at stepped
        · cases Except.ok.inj stepped
          exact stranded
        · refine Stranded.wakes ?_ stepped
          exact ⟨stranded.disarmed, stranded.waiting, stranded.pending, stranded.arrived⟩
  | alarm =>
      have due : s.deadline = some s.now := allowed.2
      rw [stranded.disarmed] at due
      cases due

/-! ### Runs -/

/-- A tie strands the program. -/
theorem Sliced.strands (workable : Workable env entries timeUnit .RR)
    (sliced : Sliced entries timeUnit s slices) (arrived : ArrivedOff entries s)
    (pending : s.loop.core.arrivalPtr < entries.length)
    (tie : arrivalOf entries s.loop.core.arrivalPtr = RR_TIMES_OF_UNIT * (slices + 1))
    (stepped : systemStep env s .alarm = .ok later) : Stranded entries later := by
  obtain ⟨units, ticking⟩ := sliced.ticking
  obtain ⟨body, _, isDeadline⟩ := alarm_body stepped
  obtain ⟨next, ended, samePtr, count, disarmed⟩ :=
    ticking_tie (env.fork s.kernel) workable.order workable.unit ticking pending tie s.now
  obtain ⟨isNext, isStopped⟩ := Prod.mk.inj (Except.ok.inj (ended.symm.trans body))
  rw [← isNext] at isDeadline
  constructor
  · exact isDeadline.trans disarmed
  · exact isStopped.symm
  · rw [← isNext, samePtr, count]
    exact pending
  · intro process before
    rw [← isNext, samePtr] at before
    exact arrived process before

/-- An arrival between two slice ends is on neither. -/
theorem Sliced.untied (unit : UsableUnit timeUnit) (sliced : Sliced entries timeUnit s slices)
    (due : s.deadline = some s.now)
    (apart : s.loop.core.arrivalPtr < entries.length →
      arrivalOf entries s.loop.core.arrivalPtr ≠ RR_TIMES_OF_UNIT * (slices + 1)) :
    Untied entries timeUnit .RR s := by
  intro _ pending isNow positive multiple
  have isTime : s.now = nextUnits entries s.loop.core slices * nanoseconds timeUnit :=
    Option.some.inj (due.symm.trans sliced.deadline)
  have isNext : arrivalOf entries s.loop.core.arrivalPtr = nextUnits entries s.loop.core slices :=
    Int.eq_of_mul_eq_mul_right (Int.ne_of_gt unit.positive) (isNow.trans isTime)
  have bounded : nextUnits entries s.loop.core slices ≤ RR_TIMES_OF_UNIT * (slices + 1) :=
    RR.nextUnits_le_slice
  have different := apart pending
  have ahead := sliced.ahead pending
  unfold RR_TIMES_OF_UNIT at *
  omega

theorem Moves.arrivedOff {event : SystemEvent}
    (moves : Moves env entries timeUnit s later queue queue' event) (unit : UsableUnit timeUnit)
    (arrived : ArrivedOff entries s)
    (serving' : Serving env entries timeUnit .RR later queue')
    (untied : event = .alarm → Untied entries timeUnit .RR s) : ArrivedOff entries later := by
  have unchanged (samePtr : later.loop.core.arrivalPtr = s.loop.core.arrivalPtr) :
      ArrivedOff entries later := by
    intro process before
    rw [samePtr] at before
    exact arrived process before
  cases moves with
  | tick _ ticks => exact unchanged (by rw [ticks.loop])
  | begin _ begins => exact unchanged (by rw [begins.loop])
  | finish _ finishes => exact unchanged finishes.keeps.arrivalPtr
  | alarm _ _ _ _ does =>
      cases does with
      | slice _ _ keeps _ => exact unchanged keeps.arrivalPtr
      | arrival further group _ _ _ _ _ =>
          intro process before
          by_cases old : process < s.loop.core.arrivalPtr
          · exact arrived process old
          · -- everybody in the group came when the first one did
            have le := Nat.le_of_lt further
            have same (member) (inGroup : member ∈ groupOf s.loop.core later.loop.core) :=
              (group member inGroup).1
            have isNow := same _ ((mem_groupOf le).mpr ⟨Nat.le_refl _, further⟩)
            have isNow' := same process ((mem_groupOf le).mpr ⟨Nat.le_of_not_lt old, before⟩)
            have together : arrivalOf entries process =
                arrivalOf entries s.loop.core.arrivalPtr :=
              Int.eq_of_mul_eq_mul_right (Int.ne_of_gt unit.positive) (isNow'.trans isNow.symm)
            have within := serving'.dispatching.lists.within
            rw [serving'.reads.numProcess] at within
            rw [together]
            exact untied rfl rfl (Nat.lt_of_lt_of_le further within) isNow

/-- The invariant of RR on any input. -/
def OnTimeOrStranded (env : Environment) (entries : List Entry) (timeUnit : Timespec)
    (s : System) : Prop :=
  (∃ queue slices, Attending env entries timeUnit .RR s queue ∧
      Sliced entries timeUnit s slices ∧ ArrivedOff entries s) ∨
    Stranded entries s

theorem Attending.onTimeOrStranded (workable : Workable env entries timeUnit .RR)
    (attending : Attending env entries timeUnit .RR s queue)
    (sliced : Sliced entries timeUnit s slices) (arrived : ArrivedOff entries s)
    {event : SystemEvent} (allowed : (systemMachine env).enabled s event)
    (stepped : systemStep env s event = .ok later) :
    OnTimeOrStranded env entries timeUnit later := by
  have fed : event = .finish → Fed .RR s queue := by
    intro _ isSJF
    cases isSJF
  by_cases tied : event = .alarm ∧ s.loop.core.arrivalPtr < entries.length ∧
      arrivalOf entries s.loop.core.arrivalPtr = RR_TIMES_OF_UNIT * (slices + 1)
  · obtain ⟨rfl, pending, tie⟩ := tied
    exact Or.inr (sliced.strands workable arrived pending tie stepped)
  · have apart : event = .alarm → s.loop.core.arrivalPtr < entries.length →
        arrivalOf entries s.loop.core.arrivalPtr ≠ RR_TIMES_OF_UNIT * (slices + 1) :=
      fun isAlarm pending tie => tied ⟨isAlarm, pending, tie⟩
    have untied : event = .alarm → Untied entries timeUnit .RR s := by
      rintro rfl
      exact sliced.untied workable.unit allowed.2 (apart rfl)
    obtain ⟨found, queue', isFound, moves, attending'⟩ :=
      attending.moves_of workable fed untied allowed
    cases Except.ok.inj (stepped.symm.trans isFound)
    have arrived' := moves.arrivedOff workable.unit arrived attending'.serving untied
    refine Or.inl ⟨queue', ?_⟩
    cases moves with
    | tick _ ticks =>
        exact ⟨slices, attending', sliced.sameLoop ticks.loop ticks.deadline, arrived'⟩
    | begin _ begins =>
        exact ⟨slices, attending', sliced.sameLoop begins.loop begins.deadline, arrived'⟩
    | finish _ finishes =>
        exact ⟨slices, attending', sliced.finish attending'.serving finishes, arrived'⟩
    | alarm due _ _ _ _ =>
        rcases sliced.alarm workable (apart rfl) due stepped with
          ⟨_, sliced', _⟩ | ⟨_, sliced', _⟩
        · exact ⟨slices + 1, attending', sliced', arrived'⟩
        · exact ⟨slices, attending', sliced', arrived'⟩

/-- Under RR nobody whose arrival falls on the end of a slice is ever admitted,
and so the program can end exactly if there is no such arrival. -/
theorem rr_ends_iff_off_slices (workable : Workable env entries timeUnit .RR)
    {garbage : Nat → Option ProcessPtr} {initial : System}
    (started : systemStart .RR entries garbage timeUnit = .ok initial) :
    (∀ history s, (systemMachine env).Run initial history s →
      ∀ process, process < s.loop.core.arrivalPtr →
        OffSlice (arrivalOf entries process)) ∧
    ((∃ history s, (systemMachine env).Run initial history s ∧ s.stopped = true) ↔
      OffSlices entries) := by
  obtain ⟨found, isStart, isCore, _, waiting, _, serving⟩ := serving_start workable garbage
  cases Except.ok.inj (started.symm.trans isStart)
  have holds (history s) (run : (systemMachine env).Run initial history s) :
      OnTimeOrStranded env entries timeUnit s := by
    apply run.history_invariant fun _ s => OnTimeOrStranded env entries timeUnit s
    · refine Or.inl ⟨[], 0, ⟨serving, ?_⟩, sliced_start workable.order workable.unit started, ?_⟩
      · intro isStopped
        cases waiting.symm.trans isStopped
      · intro process before
        rw [isCore] at before
        cases before
    · intro _ s event later invariant allowed stepped
      rcases invariant with ⟨queue, slices, attending, sliced, arrived⟩ | stranded
      · exact attending.onTimeOrStranded workable sliced arrived allowed stepped
      · exact Or.inr (stranded.step allowed stepped)
  have arrivedOff (history s) (run : (systemMachine env).Run initial history s) :
      ArrivedOff entries s := by
    rcases holds history s run with ⟨_, _, _, _, arrived⟩ | stranded
    · exact arrived
    · exact stranded.arrived
  refine ⟨arrivedOff, ?_, ?_⟩
  · rintro ⟨history, s, run, isStopped⟩ entry member
    rcases holds history s run with ⟨queue, _, attending, _, arrived⟩ | stranded
    · obtain ⟨index, inRange, rfl⟩ := List.getElem_of_mem member
      rw [← RR.arrivalOf_eq inRange]
      apply arrived
      rw [(attending.serving.stops.mp isStopped).1]
      exact inRange
    · cases stranded.waiting.symm.trans isStopped
  · intro offSlices
    have servable : Servable env entries timeUnit .RR :=
      { toWorkable := workable
        offSlices := fun _ => offSlices
        noIdleGap := by
          intro isSJF
          cases isSJF }
    exact exists_stopped_run servable started

/-- The second process comes at the end of the first slice. -/
def tiedEntries : List Entry := [⟨0, 10⟩, ⟨500, 1⟩]

theorem rr_ends_iff_off_slices_tiedEntries :
    ∃ initial, systemStart .RR tiedEntries (fun _ => none) RR.millisecond = .ok initial ∧
      ∀ history s, (systemMachine plainEnvironment).Run initial history s →
        s.stopped = false := by
  have workable : Workable plainEnvironment tiedEntries RR.millisecond .RR :=
    { order := ⟨by decide, by decide, by decide⟩
      unit := RR.millisecond_usable
      works := plainEnvironment_works
      notPSJF := by decide }
  obtain ⟨initial, started, _⟩ := serving_start workable fun _ => none
  refine ⟨initial, started, ?_⟩
  intro history s run
  rw [Bool.eq_false_iff]
  intro isStopped
  have offSlices := (rr_ends_iff_off_slices workable started).2.mp ⟨history, s, run, isStopped⟩
  exact absurd offSlices (by decide)

end UserScheduler
