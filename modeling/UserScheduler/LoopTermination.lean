/-
The event loop ends exactly when all work is done.

FIFO keeps a counter, RR an array with a cursor, SJF a heap and a pointer.
`Manages` says in each case that the scheduler has so many processes, and every
call of the event loop is followed through all three.  What the loop tests is
then a comparison of two counts: calls of `add_process` and calls of
`remove_current_process`.
-/

import UserScheduler.RoundRobinRuns
import UserScheduler.ShortestJobRuns

namespace UserScheduler

open Machines

/-- Calls of `add_process` so far. -/
def adds (calls : List Call) : Nat := (addedProcesses calls).length

/-- Calls of `remove_current_process` so far. -/
def removes (calls : List Call) : Nat := calls.count .removeCurrentProcess

/-! ### How many processes a scheduler has -/

/-- PSJF is left out: it aborts on its first process. -/
def Manages (c : Core) (live : Nat) : Prop :=
  match c.currentStrategy with
  | .FIFO => c.fifo.countProcess = live
  | .RR => ∃ queue, RR.Queued c queue ∧ queue.length = live
  | .SJF => ∃ gone stored, SJF.Conserved gone c stored ∧
      stored.card + c.sjf.activeProcess.toList.length = live
  | .PSJF => False

variable {fork : Core → ProcessPtr → Int} {c : Core} {live total : Nat}

theorem manages_of_queued {queue : List ProcessPtr} (queued : RR.Queued c queue)
    (length : queue.length = live) : Manages c live := by
  simp only [Manages, queued.strategy]
  exact ⟨queue, queued, length⟩

theorem manages_of_conserved {gone : List ProcessPtr} {stored : Multiset ProcessPtr}
    (conserved : SJF.Conserved gone c stored)
    (count : stored.card + c.sjf.activeProcess.toList.length = live) : Manages c live := by
  simp only [Manages, conserved.strategy]
  exact ⟨gone, stored, conserved, count⟩

theorem Manages.schedulerEmpty_iff (manages : Manages c live) :
    schedulerEmpty c = true ↔ live = 0 := by
  unfold Manages at manages
  cases strategy : c.currentStrategy with
  | FIFO =>
      simp only [strategy] at manages
      simp only [schedulerEmpty, strategy, FIFO.schedulerEmpty, manages, beq_iff_eq,
        Int.natCast_eq_zero]
  | RR =>
      simp only [strategy] at manages
      obtain ⟨queue, queued, length⟩ := manages
      rw [queued.schedulerEmpty_iff, ← length, List.length_eq_zero_iff]
  | SJF =>
      simp only [strategy] at manages
      obtain ⟨gone, stored, conserved, count⟩ := manages
      rw [conserved.schedulerEmpty_iff, ← count, Nat.add_eq_zero_iff, Multiset.card_eq_zero,
        List.length_eq_zero_iff, Option.toList_eq_nil_iff]
  | PSJF =>
      simp only [strategy] at manages

theorem addArrivedProcess_manages (fork : Core → ProcessPtr → Int) (manages : Manages c live)
    (pending : c.arrivalPtr < c.numProcess) :
    ∃ later, addArrivedProcess fork c = .ok later ∧ Manages later (live + 1) := by
  unfold Manages at manages
  cases strategy : c.currentStrategy with
  | FIFO =>
      simp only [strategy] at manages
      let forked := forkSuspended fork { c with arrivalPtr := c.arrivalPtr + 1 } c.arrivalPtr
      let added := FIFO.addProcess forked.allProcessInfo forked.fifo c.arrivalPtr
      have isFIFO : forked.currentStrategy = .FIFO := strategy
      refine ⟨{ forked with fifo := added.1, calls := forked.calls ++ added.2.map .priority },
        ?_, ?_⟩
      · rw [addArrivedProcess, addProcess, if_pos pending, addToScheduler, isFIFO]
        rfl
      · simp only [Manages, isFIFO]
        change c.fifo.countProcess + 1 = ((live + 1 : Nat) : Int)
        rw [manages, Int.natCast_succ]
  | RR =>
      simp only [strategy] at manages
      obtain ⟨queue, queued, length⟩ := manages
      obtain ⟨later, added, _, queued'⟩ := RR.addArrivedProcess_queued fork queued pending
      exact ⟨later, added, manages_of_queued queued'
        (by rw [List.length_append, length, List.length_singleton])⟩
  | SJF =>
      simp only [strategy] at manages
      obtain ⟨gone, stored, conserved, count⟩ := manages
      obtain ⟨later, _, added, conserved', active, _⟩ :=
        SJF.addArrivedProcess_conserved conserved pending
      refine ⟨later, added, manages_of_conserved conserved' ?_⟩
      rw [Multiset.card_cons, active]
      omega
  | PSJF =>
      simp only [strategy] at manages

theorem timesliceOver_manages (manages : Manages c live) (isRR : c.currentStrategy = .RR) :
    ∃ later, timesliceOver c = .ok later ∧ Manages later live := by
  simp only [Manages, isRR] at manages
  obtain ⟨queue, queued, length⟩ := manages
  obtain ⟨later, rotated, _, queued', _⟩ := RR.timesliceOver_queued queued
  refine ⟨later, rotated, manages_of_queued queued' ?_⟩
  cases queue with
  | nil => exact length
  | cons head tail =>
      rw [RR.rotate, List.length_append, List.length_singleton, ← length, List.length_cons]

/-- A child terminates.  Under SJF it must be the active one. -/
theorem removeCurrentProcess_manages (fork : Core → ProcessPtr → Int)
    (manages : Manages c (live + 1))
    (active : c.currentStrategy = .SJF → c.sjf.activeProcess ≠ none) :
    ∃ later, handleEvent fork c .childTerminated = .ok later ∧ Manages later live := by
  unfold Manages at manages
  cases strategy : c.currentStrategy with
  | FIFO =>
      simp only [strategy] at manages
      refine ⟨{ c with
        fifo := FIFO.removeCurrentProcess c.fifo
        calls := c.calls ++ [.wait] ++ [.removeCurrentProcess] }, ?_, ?_⟩
      · simp only [handleEvent, removeCurrentProcess, removeFromScheduler, strategy]
        rfl
      · simp only [Manages, strategy, FIFO.removeCurrentProcess, manages]
        omega
  | RR =>
      simp only [strategy] at manages
      obtain ⟨queue, queued, length⟩ := manages
      cases queue with
      | nil => cases length
      | cons head tail =>
          obtain ⟨later, _, removed, _, queued', _⟩ :=
            RR.removeCurrentProcess_queued (queued.with_calls (c.calls ++ [.wait]))
          exact ⟨later, removed, manages_of_queued queued' (Nat.succ.inj length)⟩
  | SJF =>
      simp only [strategy] at manages
      obtain ⟨gone, stored, conserved, count⟩ := manages
      obtain ⟨process, isActive⟩ := Option.ne_none_iff_exists'.mp (active strategy)
      obtain ⟨later, removed, conserved', idle, _⟩ :=
        SJF.child_conserved fork conserved isActive
      refine ⟨later, removed, manages_of_conserved conserved' ?_⟩
      rw [isActive, Option.toList_some, List.length_singleton] at count
      rw [idle, Option.toList_none, List.length_nil]
      omega
  | PSJF =>
      simp only [strategy] at manages

/-- `context_switch_SJF` has something to run. -/
def SwitchFed (c : Core) : Prop :=
  c.currentStrategy = .SJF →
    ¬ (c.sjf.activeProcess = none ∧ heapEmpty c.sjf.inactiveHeap = true)

theorem contextSwitch_manages (manages : Manages c live) (fed : SwitchFed c) :
    ∃ later, contextSwitch c = .ok later ∧ Manages later live := by
  have whole := manages
  unfold Manages at manages
  cases strategy : c.currentStrategy with
  | FIFO =>
      refine ⟨c, ?_, whole⟩
      rw [contextSwitch, strategy]
      rfl
  | RR =>
      simp only [strategy] at manages
      obtain ⟨queue, queued, length⟩ := manages
      obtain ⟨_, _, _, switched⟩ := RR.contextSwitch_queued queued
      exact ⟨_, switched, manages_of_queued (queued.with_calls _) length⟩
  | SJF =>
      simp only [strategy] at manages
      obtain ⟨gone, stored, conserved, count⟩ := manages
      have ready : c.sjf.activeProcess = none → stored ≠ 0 := fun idle isEmpty =>
        fed strategy ⟨idle, (heapEmpty_iff conserved.stores).mpr isEmpty⟩
      obtain ⟨later, stored', _, process, switched, conserved', active, _⟩ :=
        SJF.contextSwitch_conserved conserved ready
      refine ⟨later, switched, manages_of_conserved conserved' ?_⟩
      have before := conserved.card_eq
      have after := conserved'.card_eq
      rw [(contextSwitch_internal switched).arrivalPtr] at after
      omega
  | PSJF =>
      simp only [strategy] at manages

/-! ### What is counted -/

theorem adds_append (calls made : List Call) : adds (calls ++ made) = adds calls + adds made := by
  rw [adds, addedProcesses_append, List.length_append]
  rfl

theorem removes_append (calls made : List Call) :
    removes (calls ++ made) = removes calls + removes made :=
  List.count_append

theorem adds_priority (made : List PriorityCall) : adds (made.map .priority) = 0 := by
  rw [adds, addedProcesses_priority]
  rfl

theorem removes_priority (made : List PriorityCall) : removes (made.map .priority) = 0 := by
  rw [removes, List.count_eq_zero]
  intro member
  obtain ⟨call, _, impossible⟩ := List.mem_map.mp member
  cases impossible

/-- Priorities are not counted. -/
theorem Internal.counts {later : Core} (internal : Internal c later) :
    adds later.calls = adds c.calls ∧ removes later.calls = removes c.calls := by
  obtain ⟨made, calls⟩ := internal.calls
  rw [calls, adds_append, removes_append, adds_priority, removes_priority]
  exact ⟨rfl, rfl⟩

theorem addArrivedProcess_counts {later : Core} (added : addArrivedProcess fork c = .ok later) :
    adds later.calls = adds c.calls + 1 ∧ removes later.calls = removes c.calls := by
  unfold addArrivedProcess addProcess at added
  split at added
  · obtain ⟨addsEq, removesEq⟩ := (addToScheduler_internal added).counts
    rw [addsEq, removesEq]
    exact ⟨adds_append c.calls _, removes_append c.calls _⟩
  · cases added

/-- The scheduler has as many processes as were added and not removed. -/
structure Counted (total : Nat) (c : Core) (live : Nat) : Prop where
  number : c.numProcess = total
  within : c.arrivalPtr ≤ total
  added : adds c.calls = c.arrivalPtr
  balance : removes c.calls + live = adds c.calls
  manages : Manages c live

theorem Counted.schedulerEmpty_iff (counted : Counted total c live) :
    schedulerEmpty c = true ↔ adds c.calls = removes c.calls := by
  have balance := counted.balance
  rw [counted.manages.schedulerEmpty_iff]
  omega

theorem Counted.breaks_iff (counted : Counted total c live) :
    (arrivalQueueEmpty c && schedulerEmpty c) = true ↔
      adds c.calls = total ∧ removes c.calls = total := by
  rw [Bool.and_eq_true, counted.schedulerEmpty_iff, arrivalQueueEmpty, beq_iff_eq,
    counted.number, counted.added]
  constructor
  · rintro ⟨all, same⟩
    exact ⟨all, same.symm.trans all⟩
  · rintro ⟨all, removed⟩
    exact ⟨all, all.trans removed.symm⟩

theorem start_counted {strategy : ScheduleStrategy} (notPSJF : strategy ≠ .PSJF)
    (entries : List Entry) (garbage : Nat → Option ProcessPtr) :
    Counted entries.length (start strategy entries garbage).core 0 where
  number := rfl
  within := Nat.zero_le _
  added := rfl
  balance := rfl
  manages := by
    cases strategy with
    | FIFO => rfl
    | RR => exact manages_of_queued (RR.start_queued entries garbage) rfl
    | SJF =>
        obtain ⟨stored, conserved, isEmpty⟩ := SJF.start_settled entries garbage
        refine manages_of_conserved conserved ?_
        rw [isEmpty rfl]
        rfl
    | PSJF => exact absurd rfl notPSJF

theorem addArrivedProcess_counted (fork : Core → ProcessPtr → Int)
    (counted : Counted total c live) (pending : c.arrivalPtr < c.numProcess) :
    ∃ later, addArrivedProcess fork c = .ok later ∧ Counted total later (live + 1) := by
  obtain ⟨later, added, manages⟩ := addArrivedProcess_manages fork counted.manages pending
  obtain ⟨input, pointer⟩ := addArrivedProcess_sameInput added
  obtain ⟨addsEq, removesEq⟩ := addArrivedProcess_counts added
  have balance := counted.balance
  have number := counted.number
  refine ⟨later, added, input.numProcess.trans number, ?_, ?_, ?_, manages⟩
  · omega
  · rw [addsEq, pointer, counted.added]
  · omega

/-! ### One event -/

theorem arrival_counted (fork : Core → ProcessPtr → Int) (counted : Counted total c live)
    (pending : arrivalQueueEmpty c = false) :
    ∃ later live', handleEvent fork c .processArrival = .ok later ∧
      Counted total later live' := by
  have notAll := beq_eq_false_iff_ne.mp pending
  have within := counted.within
  have number := counted.number
  obtain ⟨later, untilNext, ended, ⟨live', counted'⟩, _⟩ :=
    processArrival_spec (fun now => ∃ live, Counted total now live)
      (fun now ⟨live, holds⟩ pending' => by
        obtain ⟨later, added, holds'⟩ := addArrivedProcess_counted fork holds pending'
        exact ⟨later, added, live + 1, holds'⟩)
      ⟨live, counted⟩ (by omega)
  refine ⟨later, live', ?_, counted'⟩
  rw [handleEvent, ended]
  rfl

theorem timeslice_counted (fork : Core → ProcessPtr → Int) (counted : Counted total c live)
    (isRR : c.currentStrategy = .RR) :
    ∃ later, handleEvent fork c .timesliceOver = .ok later ∧ Counted total later live := by
  obtain ⟨later, ended, manages⟩ := timesliceOver_manages counted.manages isRR
  refine ⟨later, ended, ?_⟩
  obtain ⟨_, _, isLater⟩ := bind_eq_ok ended
  cases Except.ok.inj isLater
  exact
    { number := counted.number
      within := counted.within
      added := (adds_append c.calls _).trans counted.added
      balance := by
        change removes (c.calls ++ _) + live = adds (c.calls ++ _)
        rw [adds_append, removes_append]
        exact counted.balance
      manages := manages }

/-- A process was added and not removed, so one fewer is left. -/
theorem child_counted (fork : Core → ProcessPtr → Int) (counted : Counted total c live)
    (some_live : removes c.calls < adds c.calls)
    (active : c.currentStrategy = .SJF → c.sjf.activeProcess ≠ none) :
    ∃ later live', handleEvent fork c .childTerminated = .ok later ∧
      Counted total later live' := by
  have balance := counted.balance
  obtain ⟨fewer, isSucc⟩ : ∃ fewer, live = fewer + 1 := ⟨live - 1, by omega⟩
  subst isSucc
  obtain ⟨later, ended, manages⟩ := removeCurrentProcess_manages fork counted.manages active
  have internal := removeFromScheduler_internal ended
  obtain ⟨addsEq, removesEq⟩ := internal.counts
  have addsOne : adds later.calls = adds c.calls := by
    rw [addsEq, adds_append, adds_append]
    rfl
  have removesOne : removes later.calls = removes c.calls + 1 := by
    rw [removesEq, removes_append, removes_append]
    rfl
  refine ⟨later, fewer, ended, internal.numProcess.trans counted.number, ?_, ?_, ?_, manages⟩
  · rw [internal.arrivalPtr]
    exact counted.within
  · rw [addsOne, internal.arrivalPtr]
    exact counted.added
  · rw [addsOne, removesOne]
    omega

/-! ### Iterations -/

instance (c : Core) : Decidable (SwitchFed c) := inferInstanceAs (Decidable (_ → _))

/-- Unless the loop breaks, the switch after an event has something to run. -/
def EntersSwitchFed : Result Core → Prop
  | .ok c => (arrivalQueueEmpty c && schedulerEmpty c) = false → SwitchFed c
  | .error _ => True

instance (handled : Result Core) : Decidable (EntersSwitchFed handled) :=
  match handled with
  | .ok c => inferInstanceAs (Decidable (_ → SwitchFed c))
  | .error _ => inferInstanceAs (Decidable True)

/-- Processes arrive in input order, slices end only under RR, and a child
terminates only while some added process has not been removed. -/
def loopMachine (fork : Core → ProcessPtr → Int) : Machine Iteration LoopEvent Fault where
  enabled now event := now.stopped = false ∧
    (match event with
    | .arrival => arrivalQueueEmpty now.core = false
    | .timeslice => now.core.currentStrategy = .RR
    | .child _ => removes now.core.calls < adds now.core.calls ∧
        (now.core.currentStrategy = .SJF → now.core.sjf.activeProcess ≠ none)) ∧
    EntersSwitchFed (handleEvent fork now.core event.type)
  step := iterate fork

instance (fork : Core → ProcessPtr → Int) (now : Iteration) (event : LoopEvent) :
    Decidable ((loopMachine fork).enabled now event) :=
  match event with
  | .arrival => inferInstanceAs (Decidable (_ ∧ arrivalQueueEmpty now.core = false ∧ _))
  | .timeslice => inferInstanceAs (Decidable (_ ∧ now.core.currentStrategy = .RR ∧ _))
  | .child _ => inferInstanceAs (Decidable (_ ∧
      (removes now.core.calls < adds now.core.calls ∧
        (now.core.currentStrategy = .SJF → now.core.sjf.activeProcess ≠ none)) ∧ _))

theorem handleEvent_counted {now : Iteration} {event : LoopEvent}
    (counted : Counted total now.core live) (allowed : (loopMachine fork).enabled now event) :
    ∃ c live', handleEvent fork now.core event.type = .ok c ∧ Counted total c live' := by
  obtain ⟨_, possible, _⟩ := allowed
  cases event with
  | arrival => exact arrival_counted fork counted possible
  | timeslice =>
      obtain ⟨c, handled, counted'⟩ := timeslice_counted fork counted possible
      exact ⟨c, live, handled, counted'⟩
  | child process => exact child_counted fork counted possible.1 possible.2

theorem endIteration_counted (counted : Counted total c live)
    (fed : (arrivalQueueEmpty c && schedulerEmpty c) = false → SwitchFed c) :
    ∃ later breaks, endIteration c = .ok (later, breaks) ∧ Counted total later live ∧
      (breaks = true ↔ adds c.calls = total ∧ removes c.calls = total) ∧
      (breaks = false → contextSwitch c = .ok later) := by
  rw [← counted.breaks_iff]
  cases test : (arrivalQueueEmpty c && schedulerEmpty c) with
  | true =>
      refine ⟨c, true, ?_, counted, Iff.rfl, fun impossible => by cases impossible⟩
      rw [endIteration, if_pos test]
      rfl
  | false =>
      obtain ⟨later, switched, manages⟩ := contextSwitch_manages counted.manages (fed test)
      have internal := contextSwitch_internal switched
      obtain ⟨addsEq, removesEq⟩ := internal.counts
      refine ⟨later, false, ?_, ?_, Iff.rfl, fun _ => switched⟩
      · rw [endIteration, test, if_neg Bool.false_ne_true, switched]
        rfl
      · exact
          { number := internal.numProcess.trans counted.number
            within := by
              rw [internal.arrivalPtr]
              exact counted.within
            added := by
              rw [addsEq, internal.arrivalPtr]
              exact counted.added
            balance := by
              rw [addsEq, removesEq]
              exact counted.balance
            manages := manages }

/-- `c` is what the end of the iteration tests. -/
structure Decides (fork : Core → ProcessPtr → Int) (total : Nat) (now later : Iteration)
    (event : LoopEvent) (c : Core) : Prop where
  handled : handleEvent fork now.core event.type = .ok c
  emptyIff : schedulerEmpty c = true ↔ adds c.calls = removes c.calls
  breaksIff : later.stopped = true ↔ adds c.calls = total ∧ removes c.calls = total
  /-- A switch is made only with something left to run or to arrive. -/
  switches : later.stopped = false → contextSwitch c = .ok later.core ∧
    (removes c.calls < adds c.calls ∨ adds c.calls < total)

theorem iterate_counted {now : Iteration} {event : LoopEvent}
    (counted : Counted total now.core live) (allowed : (loopMachine fork).enabled now event) :
    ∃ later live' c, iterate fork now event = .ok later ∧ Counted total later.core live' ∧
      Decides fork total now later event c ∧
      adds later.core.calls = adds c.calls ∧ removes later.core.calls = removes c.calls := by
  obtain ⟨c, live', handled, counted'⟩ := handleEvent_counted counted allowed
  have fed := allowed.2.2
  rw [handled] at fed
  obtain ⟨later, breaks, ended, counted'', breaksIff, switched⟩ :=
    endIteration_counted counted' fed
  obtain ⟨addsEq, removesEq⟩ := (endIteration_internal ended).counts
  refine ⟨⟨later, breaks⟩, live', c, ?_, counted'', ?_, addsEq, removesEq⟩
  · rw [iterate, handled, ok_bind, ended]
    rfl
  · exact
      { handled := handled
        emptyIff := counted'.schedulerEmpty_iff
        breaksIff := breaksIff
        switches := by
          intro continues
          refine ⟨switched continues, ?_⟩
          have notDone : ¬ (adds c.calls = total ∧ removes c.calls = total) := by
            rw [← breaksIff]
            exact Bool.eq_false_iff.mp continues
          have balance := counted'.balance
          have added := counted'.added
          have within := counted'.within
          omega }

/-- After every event the test for emptiness compares the two counts, and the
loop breaks at the first iteration after which every process of the input was
added and removed. -/
theorem loop_ends_when_done (fork : Core → ProcessPtr → Int) {strategy : ScheduleStrategy}
    (notPSJF : strategy ≠ .PSJF) (entries : List Entry) (garbage : Nat → Option ProcessPtr)
    {history : List LoopEvent} {now : Iteration}
    (run : (loopMachine fork).Run (start strategy entries garbage) history now) :
    (schedulerEmpty now.core = true ↔ adds now.core.calls = removes now.core.calls) ∧
      (now.stopped = true ↔ history ≠ [] ∧
        adds now.core.calls = entries.length ∧ removes now.core.calls = entries.length) ∧
      ∀ event, (loopMachine fork).enabled now event →
        ∃ later c, (loopMachine fork).step now event = .ok later ∧
          Decides fork entries.length now later event c := by
  have invariant : (∃ live, Counted entries.length now.core live) ∧
      (now.stopped = true ↔ history ≠ [] ∧
        adds now.core.calls = entries.length ∧ removes now.core.calls = entries.length) := by
    apply run.history_invariant fun history now =>
      (∃ live, Counted entries.length now.core live) ∧
        (now.stopped = true ↔ history ≠ [] ∧
          adds now.core.calls = entries.length ∧ removes now.core.calls = entries.length)
    · refine ⟨⟨0, start_counted notPSJF entries garbage⟩, ?_⟩
      constructor
      · intro impossible
        cases impossible
      · intro impossible
        exact absurd rfl impossible.1
    · rintro history now event later ⟨⟨live, counted⟩, _⟩ allowed stepped
      obtain ⟨found, live', c, same, counted', decides, addsEq, removesEq⟩ :=
        iterate_counted counted allowed
      have isLater : found = later := Except.ok.inj (same.symm.trans stepped)
      subst isLater
      refine ⟨⟨live', counted'⟩, ?_⟩
      rw [decides.breaksIff, addsEq, removesEq]
      simp
  obtain ⟨⟨live, counted⟩, stoppedIff⟩ := invariant
  refine ⟨counted.schedulerEmpty_iff, stoppedIff, ?_⟩
  intro event allowed
  obtain ⟨later, _, c, iterated, _, decides, _⟩ := iterate_counted counted allowed
  exact ⟨later, c, iterated, decides⟩

/-- Two processes that never overlap: RR runs empty in between and goes on. -/
def refilledEntries : List Entry := [⟨0, 10⟩, ⟨700, 10⟩]

theorem loop_ends_when_done_refilled :
    ∃ now, (loopMachine fun _ process => 100 + process).Run
        (start .RR refilledEntries fun _ => none)
        [.arrival, .child 0, .timeslice, .arrival, .child 1] now ∧
      now.stopped = true ∧ adds now.core.calls = 2 ∧ removes now.core.calls = 2 := by
  obtain ⟨now, run, stopped⟩ : ∃ now, (loopMachine fun _ process => 100 + process).Run
      (start .RR refilledEntries fun _ => none)
      [.arrival, .child 0, .timeslice, .arrival, .child 1] now ∧ now.stopped = true :=
    Machine.run_of_replay_map _ Iteration.stopped rfl
  have ends := (loop_ends_when_done _ (by decide) refilledEntries _ run).2.1.mp stopped
  exact ⟨now, run, stopped, ends.2⟩

end UserScheduler
