/-
Under RR, whose termination does a removal answer?

Between the end of a child and the iteration that waits for it, the loop may
consume timer messages.  `remove_current_process_RR` trusts the cursor.  An
arrival leaves the cursor on the dead child; a slice end does not, unless the
child is alone.
-/

import UserScheduler.RoundRobinRuns

namespace UserScheduler.RR

open Machines

/-- The running child ends, or the loop consumes one message. -/
inductive Message where
  | ends (process : ProcessPtr)
  | arrival
  | timeslice
  | reap (process : ProcessPtr)
deriving DecidableEq

/-- `ended` are the children whose termination is still to be consumed. -/
structure Mailbox where
  loop : Iteration
  ended : List ProcessPtr
  reaped : List ProcessPtr

def Mailbox.queue (now : Mailbox) : List (Option ProcessPtr) := readyQueue now.loop.core.rr

def messageStep (fork : Core → ProcessPtr → Int) (now : Mailbox) : Message → Result Mailbox
  | .ends process => return { now with ended := now.ended ++ [process] }
  | .arrival => do
      let loop ← iterate fork now.loop .arrival
      return { now with loop := loop }
  | .timeslice => do
      let loop ← iterate fork now.loop .timeslice
      return { now with loop := loop }
  | .reap process => do
      let loop ← iterate fork now.loop (.child process)
      return {
        loop := loop
        ended := now.ended.erase process
        reaped := now.reaped ++ [process] }

def messageMachine (fork : Core → ProcessPtr → Int) : Machine Mailbox Message Fault where
  enabled now message := now.loop.stopped = false ∧
    match message with
    | .ends process =>
        now.loop.core.RunsUnder process now.loop.core.currentStrategy ∧
          process ∉ now.ended ∧ process ∉ now.reaped
    | .arrival => arrivalQueueEmpty now.loop.core = false
    | .timeslice => now.loop.core.currentStrategy = .RR
    | .reap process => process ∈ now.ended
  step := messageStep fork

instance (fork : Core → ProcessPtr → Int) (now : Mailbox) (message : Message) :
    Decidable ((messageMachine fork).enabled now message) :=
  match message with
  | .ends _ => inferInstanceAs (Decidable (_ ∧ _ ∧ _ ∧ _))
  | .arrival => inferInstanceAs (Decidable (_ ∧ arrivalQueueEmpty now.loop.core = false))
  | .timeslice => inferInstanceAs (Decidable (_ ∧ now.loop.core.currentStrategy = .RR))
  | .reap process => inferInstanceAs (Decidable (_ ∧ process ∈ now.ended))

def emptyMailbox (entries : List Entry) (garbage : Nat → Option ProcessPtr) : Mailbox :=
  { loop := start .RR entries garbage
    ended := []
    reaped := [] }

/-- No slice end is consumed while a termination is pending, unless it rotates
a queue of one. -/
def Undisturbed (now : Mailbox) : Message → Prop
  | .timeslice => now.ended = [] ∨ now.loop.core.rr.processCount = 1
  | _ => True

instance (now : Mailbox) (message : Message) : Decidable (Undisturbed now message) :=
  match message with
  | .timeslice => inferInstanceAs (Decidable (_ ∨ _))
  | .ends _ => inferInstanceAs (Decidable True)
  | .arrival => inferInstanceAs (Decidable True)
  | .reap _ => inferInstanceAs (Decidable True)

/-- Consuming the termination of `process` deletes that process and no other. -/
def RemovesOnly (fork : Core → ProcessPtr → Int) (now : Mailbox) (process : ProcessPtr) : Prop :=
  ∃ later, messageStep fork now (.reap process) = .ok later ∧
    now.queue = some process :: later.queue

/-! ### The invariant -/

/-- A pending termination is that of the head. -/
structure Attended (now : Mailbox) (queue : List ProcessPtr) : Prop where
  queued : Queued now.loop.core queue
  pending : now.ended = [] ∨ ∃ process tail, now.ended = [process] ∧ queue = process :: tail
  accounted : (queue ++ now.reaped).Perm (List.range now.loop.core.arrivalPtr)
  stopped : now.loop.stopped = true → queue = []

variable {fork : Core → ProcessPtr → Int} {now : Mailbox} {queue : List ProcessPtr}

theorem emptyMailbox_attended (entries : List Entry) (garbage : Nat → Option ProcessPtr) :
    Attended (emptyMailbox entries garbage) [] where
  queued := start_queued entries garbage
  pending := Or.inl rfl
  accounted := List.Perm.refl []
  stopped _ := rfl

theorem Attended.queue_eq (attended : Attended now queue) : now.queue = queue.map some :=
  attended.queued.readyQueue_eq

theorem Attended.mem_iff (attended : Attended now queue) (process : ProcessPtr) :
    process ∈ queue ↔ process < now.loop.core.arrivalPtr ∧ process ∉ now.reaped := by
  have members := attended.accounted.mem_iff (a := process)
  have distinct := attended.accounted.nodup_iff.mpr List.nodup_range
  rw [List.mem_append, List.mem_range] at members
  rw [List.nodup_append] at distinct
  constructor
  · intro inQueue
    exact ⟨members.mp (Or.inl inQueue), fun inReaped =>
      distinct.2.2 process inQueue process inReaped rfl⟩
  · rintro ⟨arrived, notReaped⟩
    rcases members.mpr arrived with inQueue | inReaped
    · exact inQueue
    · exact absurd inReaped notReaped

/-! ### One message -/

theorem ends_attended (attended : Attended now queue) {process : ProcessPtr}
    (allowed : (messageMachine fork).enabled now (.ends process)) :
    Attended { now with ended := now.ended ++ [process] } queue := by
  obtain ⟨_, runs, notEnded, _⟩ := allowed
  obtain ⟨tail, isHead⟩ := attended.queued.runsUnder runs
  refine ⟨attended.queued, Or.inr ⟨process, tail, ?_, isHead⟩, attended.accounted,
    attended.stopped⟩
  rcases attended.pending with nothing | ⟨other, tail', isOther, isHead'⟩
  · rw [nothing]
    rfl
  · -- the only child that can end is the one under the cursor, and it has ended
    rw [isHead] at isHead'
    rw [isOther, (List.cons.inj isHead').1] at notEnded
    exact absurd List.mem_cons_self notEnded

theorem arrival_attended (fork : Core → ProcessPtr → Int) (attended : Attended now queue)
    (more : arrivalQueueEmpty now.loop.core = false) :
    ∃ later queue', messageStep fork now .arrival = .ok later ∧ Attended later queue' := by
  obtain ⟨loop, arrivalPtr, iterated, further, outcome⟩ :=
    iterate_arrival fork attended.queued more
  refine ⟨{ now with loop := loop }, _, ?_, outcome.queued, ?_, ?_, outcome.stopped⟩
  · rw [messageStep, iterated]
    rfl
  · rcases attended.pending with nothing | ⟨process, tail, isProcess, isHead⟩
    · exact Or.inl nothing
    · refine Or.inr ⟨process, tail ++ List.range' now.loop.core.arrivalPtr
        (arrivalPtr - now.loop.core.arrivalPtr), isProcess, ?_⟩
      rw [isHead]
      rfl
  · let arrivals := List.range' now.loop.core.arrivalPtr (arrivalPtr - now.loop.core.arrivalPtr)
    have extended : List.range arrivalPtr = List.range now.loop.core.arrivalPtr ++ arrivals := by
      have joined := List.range'_append_1 (s := 0) (m := now.loop.core.arrivalPtr)
        (n := arrivalPtr - now.loop.core.arrivalPtr)
      rw [Nat.zero_add, Nat.add_sub_cancel' (Nat.le_of_lt further)] at joined
      rw [List.range_eq_range', List.range_eq_range', joined]
    change (queue ++ arrivals ++ now.reaped).Perm (List.range loop.core.arrivalPtr)
    rw [outcome.arrivalPtr_eq, extended]
    calc queue ++ arrivals ++ now.reaped
        = queue ++ (arrivals ++ now.reaped) := List.append_assoc _ _ _
      _ |>.Perm (queue ++ (now.reaped ++ arrivals)) := List.perm_append_comm.append_left queue
      _ = queue ++ now.reaped ++ arrivals := (List.append_assoc _ _ _).symm
      _ |>.Perm (List.range now.loop.core.arrivalPtr ++ arrivals) :=
          attended.accounted.append_right arrivals

theorem timeslice_attended (fork : Core → ProcessPtr → Int) (attended : Attended now queue)
    (undisturbed : Undisturbed now .timeslice) :
    ∃ later queue', messageStep fork now .timeslice = .ok later ∧ Attended later queue' := by
  obtain ⟨loop, iterated, outcome⟩ := iterate_timeslice fork attended.queued
  have sameMembers : (rotate queue).Perm queue := by
    cases queue with
    | nil => exact List.Perm.refl []
    | cons head tail => exact List.perm_append_singleton head tail
  refine ⟨{ now with loop := loop }, rotate queue, ?_, outcome.queued, ?_, ?_, outcome.stopped⟩
  · rw [messageStep, iterated]
    rfl
  · rcases attended.pending with nothing | ⟨process, tail, isProcess, isHead⟩
    · exact Or.inl nothing
    · rcases undisturbed with nothing | alone
      · exact Or.inl nothing
      · rw [attended.queued.count, isHead, List.length_cons] at alone
        have noTail : tail = [] := List.length_eq_zero_iff.mp (by omega)
        refine Or.inr ⟨process, [], isProcess, ?_⟩
        rw [isHead, noTail]
        rfl
  · change (rotate queue ++ now.reaped).Perm (List.range loop.core.arrivalPtr)
    rw [outcome.arrivalPtr_eq]
    exact (sameMembers.append_right now.reaped).trans attended.accounted

theorem reap_attended (fork : Core → ProcessPtr → Int) (attended : Attended now queue)
    {process : ProcessPtr} (hasEnded : process ∈ now.ended) :
    ∃ later tail, messageStep fork now (.reap process) = .ok later ∧
      queue = process :: tail ∧ Attended later tail := by
  rcases attended.pending with nothing | ⟨other, tail, isOther, isHead⟩
  · rw [nothing] at hasEnded
    cases hasEnded
  · rw [isOther] at hasEnded
    cases List.mem_singleton.mp hasEnded
    subst isHead
    obtain ⟨loop, iterated, outcome⟩ := iterate_child fork attended.queued process
    refine ⟨⟨loop, now.ended.erase process, now.reaped ++ [process]⟩, tail, ?_, rfl,
      outcome.queued, ?_, ?_, outcome.stopped⟩
    · rw [messageStep, iterated]
      rfl
    · left
      change now.ended.erase process = []
      rw [isOther, List.erase_cons_head]
    · change (tail ++ (now.reaped ++ [process])).Perm (List.range loop.core.arrivalPtr)
      rw [outcome.arrivalPtr_eq, ← List.append_assoc]
      exact (List.perm_append_singleton process (tail ++ now.reaped)).trans attended.accounted

theorem messageStep_attended (attended : Attended now queue) {message : Message}
    (allowed : ((messageMachine fork).restrict Undisturbed).enabled now message) :
    ∃ later queue', messageStep fork now message = .ok later ∧ Attended later queue' := by
  obtain ⟨possible, undisturbed⟩ := allowed
  cases message with
  | ends process => exact ⟨_, queue, rfl, ends_attended attended possible⟩
  | arrival => exact arrival_attended fork attended possible.2
  | timeslice => exact timeslice_attended fork attended undisturbed
  | reap process =>
      obtain ⟨later, tail, stepped, _, attended'⟩ := reap_attended fork attended possible.2
      exact ⟨later, tail, stepped, attended'⟩

/-! ### Runs -/

/-- One slice end between the termination and its consumption is enough to
delete a running child and keep the dead one. -/
def OneSliceMisleads (fork : Core → ProcessPtr → Int) (now : Mailbox)
    (process : ProcessPtr) : Prop :=
  ∃ rotated later victim, (messageMachine fork).enabled now .timeslice ∧
    messageStep fork now .timeslice = .ok rotated ∧
    (messageMachine fork).enabled rotated (.reap process) ∧
    messageStep fork rotated (.reap process) = .ok later ∧
    some process ∈ later.queue ∧ some victim ∈ rotated.queue ∧ some victim ∉ later.queue ∧
    victim ∉ rotated.ended ∧ victim ∉ rotated.reaped

theorem oneSliceMisleads (attended : Attended now queue) {process : ProcessPtr}
    (hasEnded : process ∈ now.ended) (shared : 2 ≤ now.loop.core.rr.processCount) :
    OneSliceMisleads fork now process := by
  rcases attended.pending with nothing | ⟨other, tail, isOther, isHead⟩
  · rw [nothing] at hasEnded
    cases hasEnded
  · rw [isOther] at hasEnded
    cases List.mem_singleton.mp hasEnded
    subst isHead
    cases tail with
    | nil =>
        rw [attended.queued.count, List.length_singleton] at shared
        exact absurd shared (by decide)
    | cons victim rest =>
        have distinct := List.nodup_cons.mp attended.queued.distinct
        have running : victim ≠ process := by
          rintro rfl
          exact distinct.1 List.mem_cons_self
        have waiting : now.loop.stopped = false := by
          by_contra breaks
          cases attended.stopped (eq_true_of_ne_false breaks)
        obtain ⟨loop, iterated, outcome⟩ := iterate_timeslice fork attended.queued
        have rotatedQueue : Queued loop.core (victim :: (rest ++ [process])) := outcome.queued
        have stillWaiting : loop.stopped = false := by
          by_contra breaks
          cases outcome.stopped (eq_true_of_ne_false breaks)
        obtain ⟨loop', iterated', outcome'⟩ := iterate_child fork rotatedQueue process
        refine ⟨{ now with loop := loop }, ⟨loop', now.ended.erase process,
          now.reaped ++ [process]⟩, victim, ⟨waiting, attended.queued.strategy⟩, ?_,
          ⟨stillWaiting, ?_⟩, ?_, ?_, ?_, ?_, ?_, ?_⟩
        · rw [messageStep, iterated]
          rfl
        · change process ∈ now.ended
          rw [isOther]
          exact List.mem_cons_self
        · rw [messageStep, iterated']
          rfl
        · change some process ∈ readyQueue loop'.core.rr
          rw [outcome'.queued.mem_readyQueue]
          exact List.mem_append_right rest List.mem_cons_self
        · change some victim ∈ readyQueue loop.core.rr
          rw [rotatedQueue.mem_readyQueue]
          exact List.mem_cons_self
        · change some victim ∉ readyQueue loop'.core.rr
          rw [outcome'.queued.mem_readyQueue]
          exact (List.nodup_cons.mp rotatedQueue.distinct).1
        · change victim ∉ now.ended
          rw [isOther, List.mem_singleton]
          exact running
        · exact ((attended.mem_iff victim).mp
            (List.mem_cons_of_mem process List.mem_cons_self)).2

/-- In every run that never ends a slice under a pending termination, each
consumed termination deletes its own process, the array holds exactly the
arrived processes whose termination was not consumed, and nothing faults.  The
restriction cannot be dropped at any point of such a run. -/
theorem termination_removes_its_process (fork : Core → ProcessPtr → Int)
    (entries : List Entry) (garbage : Nat → Option ProcessPtr) {history : List Message}
    {now : Mailbox}
    (run : ((messageMachine fork).restrict Undisturbed).Run (emptyMailbox entries garbage)
      history now) :
    (∀ process, some process ∈ now.queue ↔
      process < now.loop.core.arrivalPtr ∧ process ∉ now.reaped) ∧
      (∀ process ∈ now.ended, RemovesOnly fork now process) ∧
      (∀ message, (messageMachine fork).enabled now message → Undisturbed now message →
        ∃ later, messageStep fork now message = .ok later) ∧
      ∀ process ∈ now.ended, 2 ≤ now.loop.core.rr.processCount →
        OneSliceMisleads fork now process := by
  obtain ⟨queue, attended⟩ := run.holds_of_progress (fun now => ∃ queue, Attended now queue)
    ⟨[], emptyMailbox_attended entries garbage⟩ (by
      rintro now message ⟨queue, attended⟩ allowed
      obtain ⟨later, queue', stepped, attended'⟩ := messageStep_attended attended allowed
      exact ⟨later, stepped, queue', attended'⟩)
  refine ⟨?_, ?_, ?_, ?_⟩
  · intro process
    exact (attended.queued.mem_readyQueue process).trans (attended.mem_iff process)
  · intro process hasEnded
    obtain ⟨later, tail, stepped, isHead, attended'⟩ := reap_attended fork attended hasEnded
    refine ⟨later, stepped, ?_⟩
    rw [attended.queue_eq, attended'.queue_eq, isHead]
    rfl
  · intro message possible undisturbed
    obtain ⟨later, _, stepped, _⟩ := messageStep_attended attended ⟨possible, undisturbed⟩
    exact ⟨later, stepped⟩
  · intro process hasEnded shared
    exact oneSliceMisleads attended hasEnded shared

/-- Two jobs of one slice each, as in the first lines of RR_1. -/
def sliceEntries : List Entry := [⟨0, 500⟩, ⟨0, 500⟩]

/-- The first job ends, its slice ends too, and the loop sees the slice first:
consuming the termination deletes the second job and keeps the first. -/
theorem slice_end_misleads_removal :
    ValidInput sliceEntries ∧ ∃ now later,
      (messageMachine fun _ process => 100 + process).Run
        (emptyMailbox sliceEntries fun _ => none) [.arrival, .ends 0, .timeslice] now ∧
      (messageMachine fun _ process => 100 + process).enabled now (.reap 0) ∧
      messageStep (fun _ process => 100 + process) now (.reap 0) = .ok later ∧
      now.queue = [some 1, some 0] ∧ later.queue = [some 0] ∧ later.reaped = [0] ∧
      ¬ RemovesOnly (fun _ process => 100 + process) now 0 := by
  refine ⟨⟨by decide, by decide, by decide, by decide⟩, _, _,
    Machine.run_of_replay [Message.arrival, Message.ends 0, Message.timeslice] rfl,
    ⟨rfl, List.mem_cons_self⟩, rfl, rfl, rfl, rfl, ?_⟩
  rintro ⟨later, _, misled⟩
  have heads : some 1 = some 0 := (List.cons.inj misled).1
  cases heads

theorem termination_removes_its_process_sliceEntries :
    ∃ now, ((messageMachine fun _ process => 100 + process).restrict Undisturbed).Run
        (emptyMailbox sliceEntries fun _ => none) [.arrival, .ends 0] now ∧
      now.ended = [0] ∧ RemovesOnly (fun _ process => 100 + process) now 0 := by
  refine ⟨_, Machine.run_of_replay [Message.arrival, Message.ends 0] rfl, rfl, ?_⟩
  apply (termination_removes_its_process (fun _ process => 100 + process) sliceEntries
    (fun _ => none) (Machine.run_of_replay [Message.arrival, Message.ends 0] rfl)).2.1
  exact List.mem_cons_self

end UserScheduler.RR
