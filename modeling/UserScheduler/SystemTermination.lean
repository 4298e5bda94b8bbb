/-
The system always gets to its end.

A budget falls with every event.  It counts the time that is left until all the
work is done, the timer event that is due, and for every process that it has
still to begin and to end.  Until the loop breaks some event is always possible,
so a run that cannot go on is one whose work is done.
-/

import UserScheduler.SystemService

namespace UserScheduler

open Machines RunQueues
open RR (UsableUnit arrivalOf Reads ArrivalOrder OffSlices expiresAt)

variable {env : Environment} {entries : List Entry} {timeUnit : Timespec}
  {strategy : ScheduleStrategy} {s later : System} {queue queue' : List ProcessPtr}

/-! ### The budget -/

/-- How many events can still follow. -/
def System.budget (env : Environment) (entries : List Entry) (timeUnit : Timespec) (s : System)
    (queue : List ProcessPtr) : Nat :=
  2 * (busyUntil env entries timeUnit entries.length - s.now).toNat +
    (if s.deadline = some s.now then 1 else 0) + queue.countP s.unbegun + queue.length +
    2 * (entries.length - s.loop.core.arrivalPtr)

theorem busyUntil_le (env : Environment) (entries : List Entry) (timeUnit : Timespec)
    {fewer more : Nat} (le : fewer ≤ more) :
    busyUntil env entries timeUnit fewer ≤ busyUntil env entries timeUnit more :=
  SingleServer.completion_mono (workOf_nonneg env entries) le

/-- Nothing happens after the end of all the work. -/
theorem Attending.now_le (workable : Workable env entries timeUnit strategy)
    (attending : Attending env entries timeUnit strategy s queue) :
    s.now ≤ busyUntil env entries timeUnit entries.length := by
  have serving := attending.serving
  have within := serving.dispatching.lists.within
  rw [serving.reads.numProcess] at within
  by_cases nobody : queue = []
  · by_cases drained : s.loop.core.arrivalPtr = entries.length
    · exact Int.le_of_eq (attending.ended (serving.stops.mpr ⟨drained, nobody⟩))
    · have pending := Nat.lt_of_le_of_ne within drained
      calc s.now ≤ arrivalAt entries timeUnit s.loop.core.arrivalPtr :=
            serving.now_le_arrivalAt workable (Nat.le_refl _) pending
        _ ≤ busyUntil env entries timeUnit (s.loop.core.arrivalPtr + 1) :=
            SingleServer.arrival_le_completion (workOf_nonneg env entries _)
        _ ≤ busyUntil env entries timeUnit entries.length :=
            busyUntil_le env entries timeUnit pending
  · have busy := serving.busy nobody
    have nonnegative := serving.backlog_nonneg
    have whole := busyUntil_le env entries timeUnit within
    omega

/-! ### Every event draws on it -/

theorem countP_unbegun (same : ∀ process ∈ queue, later.unbegun process = s.unbegun process) :
    queue.countP later.unbegun = queue.countP s.unbegun := by
  apply List.countP_congr
  intro process member
  rw [same process member]

theorem Begins.unbegun (begins : Begins env s later queue) :
    queue.countP later.unbegun + 1 = queue.countP s.unbegun := by
  cases queue with
  | nil => exact absurd rfl begins.someone
  | cons head tail =>
      have others := countP_unbegun fun _ member => begins.tail_unbegun member
      have after := begins.head_begun
      rw [List.countP_cons_of_neg (Bool.eq_false_iff.mp after),
        List.countP_cons_of_pos begins.head_unbegun, others]

theorem Finishes.unbegun {head : ProcessPtr} {rest : List ProcessPtr} {startTime : Timespec}
    (finishes : Finishes env s later head rest queue' startTime) :
    queue'.countP later.unbegun = (head :: rest).countP s.unbegun := by
  rw [List.countP_cons_of_neg (Bool.eq_false_iff.mp finishes.head_begun),
    ← finishes.reordered.countP_eq]
  exact countP_unbegun fun process _ => finishes.unbegun_eq process

/-- A timer event begins nothing, and whoever arrives has to begin and to end. -/
theorem AlarmDoes.unbegun (does : AlarmDoes env entries timeUnit s later queue queue') :
    s.loop.core.arrivalPtr ≤ later.loop.core.arrivalPtr ∧
      queue'.countP later.unbegun + queue'.length ≤ queue.countP s.unbegun + queue.length +
        2 * (later.loop.core.arrivalPtr - s.loop.core.arrivalPtr) := by
  have same := countP_unbegun fun _ member => does.unbegun_eq member
  cases does with
  | slice _ turned keeps children =>
      have reordered : queue'.Perm queue := by
        rw [turned]
        exact RR.rotate_perm queue
      rw [keeps.arrivalPtr, reordered.countP_eq, reordered.length_eq, same]
      omega
  | arrival further _ _ _ reordered _ _ =>
      have group : (groupOf s.loop.core later.loop.core).length =
          later.loop.core.arrivalPtr - s.loop.core.arrivalPtr := List.length_range'
      have new : (groupOf s.loop.core later.loop.core).countP later.unbegun ≤ _ :=
        List.countP_le_length
      rw [reordered.countP_eq, reordered.length_eq, List.countP_append, List.length_append, same,
        group]
      omega

theorem Moves.draws (workable : Workable env entries timeUnit strategy)
    (attending : Attending env entries timeUnit strategy s queue)
    (attending' : Attending env entries timeUnit strategy later queue') {event : SystemEvent}
    (moves : Moves env entries timeUnit s later queue queue' event) :
    later.budget env entries timeUnit queue' < s.budget env entries timeUnit queue := by
  have before := attending.now_le workable
  have after := attending'.now_le workable
  unfold System.budget
  cases moves with
  | tick isQueue ticks =>
      subst isQueue
      have positive := ticks.positive
      rw [ticks.now] at after
      rw [ticks.now, countP_unbegun fun _ member => ticks.unbegun_eq member,
        ticks.loop]
      split <;> split <;> omega
  | begin isQueue begins =>
      subst isQueue
      have one := begins.unbegun
      rw [begins.now, begins.deadline, begins.loop]
      omega
  | finish isQueue finishes =>
      subst isQueue
      have shorter := finishes.reordered.length_eq
      rw [finishes.now, finishes.deadline, finishes.unbegun, finishes.keeps.arrivalPtr, shorter,
        List.length_cons]
      omega
  | alarm isDeadline ahead isNow _ does =>
      obtain ⟨further, share⟩ := does.unbegun
      have within := attending'.serving.dispatching.lists.within
      rw [attending'.serving.reads.numProcess] at within
      have notDue : ¬ later.deadline = some s.now :=
        fun again => Int.lt_irrefl _ (ahead _ again)
      rw [isNow, if_pos isDeadline, if_neg notDue]
      omega

/-! ### Some event is always possible -/

theorem Serving.event_enabled (workable : Workable env entries timeUnit strategy)
    (serving : Serving env entries timeUnit strategy s queue) (waiting : s.stopped = false) :
    ∃ event, (systemMachine env).enabled s event := by
  have running := serving.dispatching.running
  by_cases due : s.deadline = some s.now
  · exact ⟨.alarm, waiting, due⟩
  · have notYet : ∀ deadline ∈ s.deadline, s.now < deadline := by
      intro deadline isDeadline
      apply lt_of_le_of_ne (serving.ahead deadline isDeadline)
      intro same
      rw [same] at due
      exact due isDeadline
    cases queue with
    | nil =>
        have pending : s.loop.core.arrivalPtr < entries.length := by
          have within := serving.dispatching.lists.within
          rw [serving.reads.numProcess] at within
          apply Nat.lt_of_le_of_ne within
          intro drained
          have done := serving.stops.mpr ⟨drained, rfl⟩
          rw [waiting] at done
          cases done
        obtain ⟨time, isDeadline, _⟩ := serving.timed.deadline_le workable.unit pending
        have positive := notYet time isDeadline
        refine ⟨.tick (time - s.now), waiting, by omega, ?_, ?_⟩
        · intro deadline isDeadline'
          have same := Option.some.inj (isDeadline'.symm.trans isDeadline)
          omega
        · intro pid isRunning
          cases running.symm.trans isRunning
    | cons head rest =>
        let child := s.kernel.children (pidOf s.loop.core head)
        have nonnegative := (serving.children head List.mem_cons_self).nonnegative
        have onlyHead : ∀ pid ∈ s.kernel.runQueue.running, pid = pidOf s.loop.core head := by
          intro pid isRunning
          exact (Option.some.inj (running.symm.trans isRunning)).symm
        cases begun : child.startTime with
        | none => exact ⟨.begin, waiting, _, running, Option.isNone_iff_eq_none.mpr begun⟩
        | some startTime =>
            have isSome : child.startTime.isSome = true := Option.isSome_of_eq_some begun
            by_cases done : child.left = 0
            · exact ⟨.finish, waiting, _, running, isSome, done⟩
            · -- up to the deadline, or to the end of the child's loop
              obtain ⟨elapsed, positive, before, enough⟩ : ∃ elapsed, 0 < elapsed ∧
                  (∀ deadline ∈ s.deadline, s.now + elapsed ≤ deadline) ∧
                  elapsed ≤ child.left := by
                have some : 0 < child.left := lt_of_le_of_ne nonnegative (Ne.symm done)
                cases isDeadline : s.deadline with
                | none => exact ⟨child.left, some, nofun, Int.le_refl _⟩
                | some time =>
                    have positive := notYet time isDeadline
                    refine ⟨min child.left (time - s.now), by omega, ?_, min_le_left _ _⟩
                    intro deadline same
                    have isTime := Option.some.inj same
                    omega
              refine ⟨.tick elapsed, waiting, positive, before, ?_⟩
              intro pid isRunning
              rw [onlyHead pid isRunning]
              exact ⟨isSome, enough⟩

/-! ### The end -/

/-- Some run ends. -/
theorem exists_stopped_run (servable : Servable env entries timeUnit strategy)
    {garbage : Nat → Option ProcessPtr} {initial : System}
    (started : systemStart strategy entries garbage timeUnit = .ok initial) :
    ∃ history s, (systemMachine env).Run initial history s ∧ s.stopped = true := by
  have atStart : (systemMachine env).Run initial [] initial := .start
  obtain ⟨queue, attending⟩ := attending_run servable started atStart
  obtain ⟨history, s, _, run, isStopped, _⟩ := atStart.exists_final
    (fun budget s => ∃ queue, Attending env entries timeUnit strategy s queue ∧
      s.budget env entries timeUnit queue = budget)
    (fun s => s.stopped = true)
    (by
      rintro _ _ now _ ⟨queue, attending, rfl⟩
      cases waiting : now.stopped with
      | true => exact Or.inl rfl
      | false =>
          obtain ⟨event, allowed⟩ := attending.serving.event_enabled servable.toWorkable waiting
          obtain ⟨later, queue', stepped, moves, attending'⟩ := attending.moves servable allowed
          exact Or.inr ⟨event, later, _, allowed, stepped,
            moves.draws servable.toWorkable attending attending', queue', attending', rfl⟩)
    _ ⟨queue, attending, rfl⟩
  exact ⟨history, s, run, isStopped⟩

end UserScheduler
