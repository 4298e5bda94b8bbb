/-
When SJF survives its input.

`context_switch_SJF` takes from its heap without looking.  Between a termination
and a later arrival the heap can be empty, and then the program is lost.  Whether
this can happen is decided by the input alone: it can unless every group of
arrivals comes while an earlier process is unfinished.  A group that comes at the
very end of the work before it is too late, since the termination can be handled
first.
-/

import UserScheduler.SystemTermination
import UserScheduler.ShortestJobRuns

namespace UserScheduler

open Machines RunQueues
open RR (UsableUnit arrivalOf Reads ArrivalOrder)

variable {env : Environment} {entries : List Entry} {timeUnit : Timespec}
  {s later : System} {queue queue' : List ProcessPtr} {initial : System}
  {history : List SystemEvent}

/-! ### The fault -/

/-- The last child ends with arrivals to come. -/
theorem starved_finish {head : ProcessPtr}
    (serving : Serving env entries timeUnit .SJF s [head])
    (pending : arrivalQueueEmpty s.loop.core = false)
    (allowed : (systemMachine env).enabled s .finish) :
    systemStep env s .finish = .error .outOfBounds := by
  obtain ⟨_, pid, isRunning, isStarted, _⟩ := allowed
  have running := serving.dispatching.running
  rw [Option.mem_def.mp isRunning] at running
  have isHead : pid = pidOf s.loop.core head := Option.some.inj running
  subst isHead
  obtain ⟨startTime, started⟩ := Option.isSome_iff_exists.mp isStarted
  let ended := childEnds env s.now s.kernel (pidOf s.loop.core head) startTime
  obtain ⟨c, handled, keeps, _, idle, ready⟩ := serving.dispatching.child (env.fork ended)
  have isSJF : c.currentStrategy = .SJF := keeps.strategy.trans serving.isStrategy
  have switching : contextSwitch c = .error .outOfBounds := by
    rcases ready.lists.cases with ⟨isFIFO, _⟩ | queued | ⟨gone, waiting, conserved, isEmpty⟩
    · cases isFIFO.symm.trans isSJF
    · cases queued.strategy.symm.trans isSJF
    · have nobody := (List.append_eq_nil_iff.mp isEmpty.symm).2
      rw [nobody] at conserved
      exact SJF.contextSwitch_idle conserved (idle isSJF)
  have stillPending : arrivalQueueEmpty c = false := by
    rwa [arrivalQueueEmpty, keeps.arrivalPtr, keeps.numProcess]
  have body : loopBody (env.fork ended) { s.loop with eventType := .childTerminated } =
      .error .outOfBounds := by
    rw [loopBody]
    change ((handleEvent (env.fork ended) s.loop.core .childTerminated >>= _) >>= _) = _
    rw [handled]
    change (endIteration c >>= _) = _
    rw [endIteration, stillPending, Bool.false_and, if_neg Bool.false_ne_true, switching]
    rfl
  simp only [systemStep, Option.mem_def.mp isRunning, started]
  rw [wake]
  change (loopBody (env.fork ended) { s.loop with eventType := .childTerminated } >>= _) = _
  rw [body]
  rfl

/-- Where no event faults, SJF is always fed. -/
theorem fed_of_safe (safe : (systemMachine env).Safe initial)
    (run : (systemMachine env).Run initial history s)
    (serving : Serving env entries timeUnit .SJF s queue)
    (allowed : (systemMachine env).enabled s .finish) : Fed .SJF s queue := by
  intro _ alone
  by_contra notDrained
  have pending := Bool.eq_false_iff.mpr notDrained
  cases queue with
  | nil =>
      obtain ⟨_, pid, isRunning, _⟩ := allowed
      cases serving.dispatching.running.symm.trans isRunning
  | cons head rest =>
      subst alone
      obtain ⟨later, stepped⟩ := safe _ _ _ run allowed
      cases stepped.symm.trans (starved_finish serving pending allowed)

/-! ### Work that is done too early -/

/-- There is nothing left to do, and somebody is still to come. -/
structure Exhausted (entries : List Entry) (s : System) (queue : List ProcessPtr) : Prop where
  someone : queue ≠ []
  pending : s.loop.core.arrivalPtr < entries.length
  done : ∀ process ∈ queue, s.leftOf process = 0

theorem Serving.running_of_pending (serving : Serving env entries timeUnit .SJF s queue)
    (pending : s.loop.core.arrivalPtr < entries.length) : s.stopped = false := by
  rw [Bool.eq_false_iff]
  intro isStopped
  exact Nat.ne_of_lt pending (serving.stops.mp isStopped).1

section Exhausted

variable {head : ProcessPtr} {tail : List ProcessPtr}

theorem untied_sjf (entries : List Entry) (timeUnit : Timespec) (s : System) :
    Untied entries timeUnit .SJF s := by
  intro isRR
  cases isRR

theorem Exhausted.begin (workable : Workable env entries timeUnit .SJF)
    (run : (systemMachine env).Run initial history s)
    (attending : Attending env entries timeUnit .SJF s (head :: tail))
    (exhausted : Exhausted entries s (head :: tail)) (fresh : s.unbegun head = true) :
    ∃ history later, (systemMachine env).Run initial history later ∧
      Attending env entries timeUnit .SJF later (head :: tail) ∧
      Exhausted entries later (head :: tail) ∧ later.unbegun head = false := by
  have allowed : (systemMachine env).enabled s .begin :=
    ⟨attending.serving.running_of_pending exhausted.pending, _,
      attending.serving.dispatching.running, fresh⟩
  have fed : SystemEvent.begin = .finish → Fed .SJF s (head :: tail) := by
    intro impossible
    cases impossible
  obtain ⟨later, queue', stepped, moves, attending'⟩ :=
    attending.moves_of workable fed (fun _ => untied_sjf entries timeUnit _) allowed
  cases moves with
  | begin isQueue begins =>
      subst isQueue
      refine ⟨_, later, run.next allowed stepped, attending',
        ⟨exhausted.someone, begins.loop ▸ exhausted.pending, ?_⟩, begins.head_begun⟩
      intro process member
      rcases List.mem_cons.mp member with isHead | inTail
      · rw [isHead, begins.head_left]
        exact exhausted.done head List.mem_cons_self
      · rw [System.leftOf, begins.loop, begins.others process inTail]
        exact exhausted.done process member

theorem Exhausted.finish (workable : Workable env entries timeUnit .SJF)
    (safe : (systemMachine env).Safe initial) (run : (systemMachine env).Run initial history s)
    (attending : Attending env entries timeUnit .SJF s (head :: tail))
    (exhausted : Exhausted entries s (head :: tail)) (begun : s.unbegun head = false) :
    ∃ history later queue', (systemMachine env).Run initial history later ∧
      Attending env entries timeUnit .SJF later queue' ∧ Exhausted entries later queue' ∧
      queue'.length = tail.length := by
  have allowed : (systemMachine env).enabled s .finish :=
    ⟨attending.serving.running_of_pending exhausted.pending, _,
      attending.serving.dispatching.running, Option.isNone_eq_false_iff.mp begun,
      exhausted.done head List.mem_cons_self⟩
  have fed := fed_of_safe safe run attending.serving allowed
  obtain ⟨later, queue', stepped, moves, attending'⟩ :=
    attending.moves_of workable (fun _ => fed) (fun _ => untied_sjf entries timeUnit _) allowed
  cases moves with
  | finish isQueue finishes =>
      cases isQueue
      refine ⟨_, later, queue', run.next allowed stepped, attending', ⟨?_, ?_, ?_⟩,
        finishes.reordered.length_eq⟩
      · intro nobody
        have drained := fed rfl (nobody ▸ finishes.reordered).nil_eq.symm
        cases drained.symm.trans (attending.serving.pending_iff.mpr exhausted.pending)
      · rw [finishes.keeps.arrivalPtr]
        exact exhausted.pending
      · intro process member
        rw [System.leftOf, finishes.children, finishes.keeps.pid]
        exact exhausted.done process
          (List.mem_cons_of_mem head (finishes.reordered.mem_iff.mp member))

end Exhausted

/-- Where no event faults, this never happens: the children could all end now. -/
theorem not_exhausted (workable : Workable env entries timeUnit .SJF)
    (safe : (systemMachine env).Safe initial) (count : Nat) (length : queue.length = count)
    (run : (systemMachine env).Run initial history s)
    (attending : Attending env entries timeUnit .SJF s queue) : ¬ Exhausted entries s queue := by
  intro exhausted
  induction count generalizing history s queue with
  | zero => exact exhausted.someone (List.length_eq_zero_iff.mp length)
  | succ count ih =>
      cases queue with
      | nil => exact exhausted.someone rfl
      | cons head tail =>
          obtain ⟨history', later, run', attending', exhausted', begun⟩ :
              ∃ history later, (systemMachine env).Run initial history later ∧
                Attending env entries timeUnit .SJF later (head :: tail) ∧
                Exhausted entries later (head :: tail) ∧ later.unbegun head = false := by
            cases fresh : s.unbegun head with
            | false => exact ⟨history, s, run, attending, exhausted, fresh⟩
            | true => exact exhausted.begin workable run attending fresh
          obtain ⟨_, _, queue', run'', attending'', exhausted'', shorter⟩ :=
            exhausted'.finish workable safe run' attending' begun
          exact ih (shorter.trans (Nat.succ.inj length)) run'' attending'' exhausted''

/-! ### Gaps in the input -/

/-- So far every group came in time. -/
structure Gapless (env : Environment) (entries : List Entry) (timeUnit : Timespec) (s : System)
    (queue : List ProcessPtr) : Prop where
  early : queue = [] → s.loop.core.arrivalPtr = 0 ∨ s.loop.core.arrivalPtr = entries.length
  gapless : ∀ process, process + 1 < s.loop.core.arrivalPtr →
    arrivalOf entries process < arrivalOf entries (process + 1) →
    arrivalAt entries timeUnit (process + 1) < busyUntil env entries timeUnit (process + 1)

/-- A group that comes while somebody is unfinished. -/
theorem Gapless.arrival (workable : Workable env entries timeUnit .SJF)
    (serving : Serving env entries timeUnit .SJF s queue)
    (gapless : Gapless env entries timeUnit s queue)
    (notExhausted : ¬ Exhausted entries s queue)
    (pending : s.loop.core.arrivalPtr < entries.length)
    (group : ∀ process ∈ groupOf s.loop.core later.loop.core,
      arrivalAt entries timeUnit process = s.now)
    (further : s.loop.core.arrivalPtr < later.loop.core.arrivalPtr) :
    ∀ process, process + 1 < later.loop.core.arrivalPtr →
      arrivalOf entries process < arrivalOf entries (process + 1) →
      arrivalAt entries timeUnit (process + 1) < busyUntil env entries timeUnit (process + 1) := by
  intro process inRange apart
  have inGroup (other : ProcessPtr) : other ∈ groupOf s.loop.core later.loop.core ↔
      s.loop.core.arrivalPtr ≤ other ∧ other < later.loop.core.arrivalPtr :=
    mem_groupOf (Nat.le_of_lt further)
  rcases Nat.lt_trichotomy (process + 1) s.loop.core.arrivalPtr with before | isFirst | inside
  · exact gapless.gapless process before apart
  · have atNow := group (process + 1) ((inGroup _).mpr ⟨Nat.le_of_eq isFirst.symm, inRange⟩)
    have someone : queue ≠ [] := by
      intro nobody
      rcases gapless.early nobody with isZero | drained
      · rw [isZero] at isFirst
        cases isFirst
      · exact Nat.ne_of_lt pending drained
    have busy := serving.busy someone
    have nonnegative := serving.backlog_nonneg
    have notDone : s.backlog queue ≠ 0 := by
      intro done
      apply notExhausted
      refine ⟨someone, pending, ?_⟩
      intro other member
      refine List.all_zero_of_le_zero_le_of_sum_eq_zero ?_ done (List.mem_map_of_mem member)
      intro left isLeft
      obtain ⟨which, inQueue, rfl⟩ := List.mem_map.mp isLeft
      exact (serving.children which inQueue).nonnegative
    rw [atNow, isFirst]
    omega
  · -- in the middle of a group
    have first := group process
      ((inGroup _).mpr ⟨Nat.le_of_lt_succ inside, Nat.lt_of_succ_lt inRange⟩)
    have second := group (process + 1) ((inGroup _).mpr ⟨Nat.le_of_lt inside, inRange⟩)
    have less := Int.mul_lt_mul_of_pos_right apart workable.unit.positive
    rw [arrivalAt] at first second
    omega

theorem Gapless.moves (workable : Workable env entries timeUnit .SJF)
    (serving : Serving env entries timeUnit .SJF s queue)
    (serving' : Serving env entries timeUnit .SJF later queue')
    (gapless : Gapless env entries timeUnit s queue)
    (notExhausted : ¬ Exhausted entries s queue) {event : SystemEvent}
    (fed : event = .finish → Fed .SJF s queue)
    (moves : Moves env entries timeUnit s later queue queue' event) :
    Gapless env entries timeUnit later queue' := by
  cases moves with
  | tick isQueue ticks =>
      subst isQueue
      exact ⟨ticks.loop ▸ gapless.early, ticks.loop ▸ gapless.gapless⟩
  | begin isQueue begins =>
      subst isQueue
      exact ⟨begins.loop ▸ gapless.early, begins.loop ▸ gapless.gapless⟩
  | finish isQueue finishes =>
      subst isQueue
      refine ⟨?_, ?_⟩
      · intro nobody
        right
        have drained := fed rfl rfl (nobody ▸ finishes.reordered).nil_eq.symm
        rw [finishes.keeps.arrivalPtr, ← serving.reads.numProcess]
        exact beq_iff_eq.mp drained
      · rw [finishes.keeps.arrivalPtr]
        exact gapless.gapless
  | alarm _ _ _ _ does =>
      cases does with
      | slice isRR _ _ _ => cases serving.isStrategy.symm.trans isRR
      | arrival further group _ _ reordered _ _ =>
          have within := serving'.dispatching.lists.within
          rw [serving'.reads.numProcess] at within
          have pending := Nat.lt_of_lt_of_le further within
          refine ⟨?_, gapless.arrival workable serving notExhausted pending
            (fun process member => (group process member).1) further⟩
          intro nobody
          have length := reordered.length_eq
          rw [nobody, List.length_append, groupOf, List.length_range'] at length
          change 0 = _ at length
          omega

/-! ### The input decides -/

end UserScheduler
