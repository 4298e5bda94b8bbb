/-
Runs of the event loop under SJF.

Along a run the arrived processes are split between the heap, the running
process and the terminated ones.  `context_switch_SJF` takes from the heap
without looking whether it is empty.  That is sound except in one situation: a
termination that leaves nothing to run while processes are still to arrive.
-/

import UserScheduler.EventRuns
import UserScheduler.ShortestJobOrder

namespace UserScheduler

open Machines

theorem terminated_append (history : List LoopEvent) (event : LoopEvent) :
    terminated (history ++ [event]) = terminated history ++ terminated [event] :=
  List.filterMap_append

namespace SJF

/-- Every arrived process is in exactly one place. -/
structure Conserved (gone : List ProcessPtr) (c : Core) (stored : Multiset ProcessPtr) :
    Prop where
  strategy : c.currentStrategy = .SJF
  within : c.arrivalPtr ≤ c.numProcess
  capacity : c.sjf.inactiveHeap.pq.length = c.numProcess
  stores : c.sjf.inactiveHeap.Stores c.allProcessInfo stored
  accounted : stored + (c.sjf.activeProcess.toList : Multiset ProcessPtr) + gone =
    Multiset.range c.arrivalPtr

variable {fork : Core → ProcessPtr → Int} {gone : List ProcessPtr} {c : Core}
  {stored : Multiset ProcessPtr}

theorem Conserved.arrived (conserved : Conserved gone c stored) {process : ProcessPtr}
    (member : process ∈ stored) : process < c.arrivalPtr := by
  have placed : process ∈ Multiset.range c.arrivalPtr := by
    rw [← conserved.accounted]
    exact Multiset.mem_add.mpr (Or.inl (Multiset.mem_add.mpr (Or.inl member)))
  exact Multiset.mem_range.mp placed

theorem Conserved.card_eq (conserved : Conserved gone c stored) :
    stored.card + c.sjf.activeProcess.toList.length + gone.length = c.arrivalPtr := by
  have counted := congrArg Multiset.card conserved.accounted
  simpa only [Multiset.card_add, Multiset.coe_card, Multiset.card_range] using counted

/-- The running process has arrived and has not terminated. -/
theorem Conserved.active_live (conserved : Conserved gone c stored) {process : ProcessPtr}
    (active : c.sjf.activeProcess = some process) :
    process < c.arrivalPtr ∧ process ∉ gone := by
  have accounted : stored + ([process] : Multiset ProcessPtr) + gone =
      Multiset.range c.arrivalPtr := by
    rw [← conserved.accounted, active]
    rfl
  have distinct : (stored + ([process] : Multiset ProcessPtr) + gone).Nodup := by
    rw [accounted]
    exact Multiset.nodup_range _
  constructor
  · have placed : process ∈ Multiset.range c.arrivalPtr := by
      rw [← accounted]
      simp
    exact Multiset.mem_range.mp placed
  · intro isGone
    have apart := (Multiset.nodup_add.mp distinct).2.2
    exact Multiset.disjoint_left.mp apart (by simp) (Multiset.mem_coe.mpr isGone)

theorem Conserved.bounds (conserved : Conserved gone c stored) :
    0 ≤ heapSize c.sjf.inactiveHeap ∧ heapSize c.sjf.inactiveHeap ≤ c.numProcess := by
  have counted := conserved.card_eq
  have within := conserved.within
  rw [heapSize, conserved.stores.size_eq]
  omega

theorem Conserved.schedulerEmpty_iff (conserved : Conserved gone c stored) :
    UserScheduler.schedulerEmpty c = true ↔ stored = 0 ∧ c.sjf.activeProcess = none := by
  rw [UserScheduler.schedulerEmpty, conserved.strategy]
  exact SJF.schedulerEmpty_iff conserved.stores

/-! ### The two events -/

/-- No call in a list raises a priority. -/
def NoResume (made : List Call) : Prop := ∀ pid, Call.priority (.resume pid) ∉ made

theorem addArrivedProcess_conserved (conserved : Conserved gone c stored)
    (pending : c.arrivalPtr < c.numProcess) :
    ∃ later made, addArrivedProcess fork c = .ok later ∧
      Conserved gone later (c.arrivalPtr ::ₘ stored) ∧
      later.sjf.activeProcess = c.sjf.activeProcess ∧
      later.calls = c.calls ++ made ∧ NoResume made := by
  let forked := forkSuspended fork { c with arrivalPtr := c.arrivalPtr + 1 } c.arrivalPtr
  have keys : ∀ process ∈ stored,
      processKey forked.allProcessInfo process = processKey c.allProcessInfo process := by
    intro process member
    have different : process ≠ c.arrivalPtr := Nat.ne_of_lt (conserved.arrived member)
    unfold processKey
    rw [forkSuspended_other fork _ different]
  have room : stored.card < c.sjf.inactiveHeap.pq.length := by
    have counted := conserved.card_eq
    rw [conserved.capacity]
    omega
  obtain ⟨heap, inserted, sameLength, stores⟩ :=
    heapInsert_stores (conserved.stores.congr_mem keys) room c.arrivalPtr
  refine ⟨{ forked with sjf := { c.sjf with inactiveHeap := heap } },
    [.addProcess c.arrivalPtr, .priority (.suspend (fork _ c.arrivalPtr))], ?_, ?_, rfl, rfl, ?_⟩
  · rw [addArrivedProcess, UserScheduler.addProcess, if_pos pending, addToScheduler,
      show forked.currentStrategy = .SJF from conserved.strategy]
    change ((heapInsert forked.allProcessInfo c.sjf.inactiveHeap c.arrivalPtr >>= _) >>= _) = _
    rw [inserted]
    rfl
  · exact
      { strategy := conserved.strategy
        within := pending
        capacity := sameLength.trans conserved.capacity
        stores := stores
        accounted := by
          change c.arrivalPtr ::ₘ stored + _ + _ = Multiset.range (c.arrivalPtr + 1)
          rw [Multiset.range_succ, ← conserved.accounted, Multiset.cons_add, Multiset.cons_add] }
  · intro pid member
    simp at member

theorem arrival_conserved (fork : Core → ProcessPtr → Int) (conserved : Conserved gone c stored)
    (pending : c.arrivalPtr < c.numProcess) :
    ∃ later stored' made, handleEvent fork c .processArrival = .ok later ∧
      Conserved gone later stored' ∧ stored' ≠ 0 ∧
      later.sjf.activeProcess = c.sjf.activeProcess ∧
      later.calls = c.calls ++ made ∧ NoResume made := by
  let invariant (now : Core) : Prop := ∃ stored' made, Conserved gone now stored' ∧
    now.sjf.activeProcess = c.sjf.activeProcess ∧ now.calls = c.calls ++ made ∧ NoResume made
  have initially : invariant c :=
    ⟨stored, [], conserved, rfl, (List.append_nil _).symm, fun _ => List.not_mem_nil⟩
  have progress : ∀ now, invariant now → now.arrivalPtr < now.numProcess →
      ∃ later, addArrivedProcess fork now = .ok later ∧ invariant later := by
    rintro now ⟨stored', made, conserved', active, calls, quiet⟩ pending'
    obtain ⟨later, more, added, conserved'', active', calls', quiet'⟩ :=
      addArrivedProcess_conserved conserved' pending'
    refine ⟨later, added, _, made ++ more, conserved'', active'.trans active, ?_, ?_⟩
    · rw [calls', calls, List.append_assoc]
    · intro pid member
      rcases List.mem_append.mp member with early | late
      · exact quiet pid early
      · exact quiet' pid late
  obtain ⟨later, untilNext, ended, ⟨stored', made, conserved', active, calls, quiet⟩, admitted⟩ :=
    processArrival_spec invariant progress initially pending
  refine ⟨later, stored', made, ?_, conserved', ?_, active, calls, quiet⟩
  · rw [handleEvent, ended]
    rfl
  · intro isEmpty
    have before := conserved.card_eq
    have after := conserved'.card_eq
    have reached := admitted.reached
    rw [isEmpty, Multiset.card_zero, active] at after
    omega

theorem child_conserved (fork : Core → ProcessPtr → Int) (conserved : Conserved gone c stored)
    {process : ProcessPtr} (active : c.sjf.activeProcess = some process) :
    ∃ later, handleEvent fork c .childTerminated = .ok later ∧
      Conserved (gone ++ [process]) later stored ∧ later.sjf.activeProcess = none ∧
      later.sjf.inactiveHeap = c.sjf.inactiveHeap ∧ later.arrivalPtr = c.arrivalPtr ∧
      later.numProcess = c.numProcess ∧
      later.calls = c.calls ++ [.wait, .removeCurrentProcess] := by
  have strategy := conserved.strategy
  refine ⟨{ c with
    sjf := SJF.removeCurrentProcess c.sjf
    calls := c.calls ++ [.wait] ++ [.removeCurrentProcess] }, ?_, ?_, rfl, rfl, rfl, rfl, ?_⟩
  · simp only [handleEvent, UserScheduler.removeCurrentProcess, removeFromScheduler, strategy]
    rfl
  · exact
      { strategy := strategy
        within := conserved.within
        capacity := conserved.capacity
        stores := conserved.stores
        accounted := by
          change stored + 0 + ((gone ++ [process] : List ProcessPtr) : Multiset ProcessPtr) =
            Multiset.range c.arrivalPtr
          rw [← conserved.accounted, active, ← Multiset.coe_add, Multiset.add_zero,
            Option.toList_some, Multiset.add_assoc,
            Multiset.add_comm (gone : Multiset ProcessPtr)] }
  · rw [List.append_assoc]
    rfl

/-! ### The context switch -/

theorem contextSwitch_of_sjf (strategy : c.currentStrategy = .SJF) {sjf : State}
    {made : List PriorityCall} (switching : SJF.contextSwitch c.allProcessInfo c.sjf =
      .ok (sjf, made)) :
    UserScheduler.contextSwitch c =
      .ok { c with sjf := sjf, calls := c.calls ++ made.map .priority } := by
  rw [UserScheduler.contextSwitch, strategy]
  change (SJF.contextSwitch c.allProcessInfo c.sjf >>= _) = _
  rw [switching]
  rfl

theorem contextSwitch_conserved (conserved : Conserved gone c stored)
    (ready : c.sjf.activeProcess = none → stored ≠ 0) :
    ∃ later stored' made process, UserScheduler.contextSwitch c = .ok later ∧
      Conserved gone later stored' ∧ later.sjf.activeProcess = some process ∧
      later.calls = c.calls ++ made ∧
      ∀ pid, Call.priority (.resume pid) ∈ made → (later.allProcessInfo process).pid = pid := by
  have strategy := conserved.strategy
  cases active : c.sjf.activeProcess with
  | some process =>
      refine ⟨c, stored, [], process, ?_, conserved, active, (List.append_nil _).symm, ?_⟩
      · rw [contextSwitch_of_sjf strategy (contextSwitch_keeps _ active), List.map_nil,
          List.append_nil]
      · intro pid member
        exact absurd member List.not_mem_nil
  | none =>
      obtain ⟨top, heap, switching, member, stores, sameLength, _⟩ :=
        contextSwitch_takes conserved.stores (ready active) active
      refine ⟨{ c with
        sjf := { inactiveHeap := heap, activeProcess := some top }
        calls := c.calls ++ [.priority (.resume (c.allProcessInfo top).pid)] },
        stored.erase top, [.priority (.resume (c.allProcessInfo top).pid)], top,
        contextSwitch_of_sjf strategy switching, ?_, rfl, rfl, ?_⟩
      · exact
          { strategy := strategy
            within := conserved.within
            capacity := sameLength.trans conserved.capacity
            stores := stores
            accounted := by
              change stored.erase top + ([top] : List ProcessPtr) + gone = _
              rw [← conserved.accounted, active, Multiset.coe_singleton,
                Multiset.add_comm (stored.erase top), Multiset.singleton_add,
                Multiset.cons_erase member]
              change _ = stored + 0 + _
              rw [Multiset.add_zero] }
      · intro pid inMade
        rw [List.mem_singleton] at inMade
        cases inMade
        rfl

/-- With nothing to run the switch decrements `heap_size` below zero and swaps
the cell at index -1. -/
theorem contextSwitch_idle (conserved : Conserved gone c 0)
    (idle : c.sjf.activeProcess = none) :
    UserScheduler.contextSwitch c = .error .outOfBounds := by
  have size : c.sjf.inactiveHeap.heapSize = 0 := conserved.stores.size_eq
  have popped : heapPop c.allProcessInfo c.sjf.inactiveHeap = .error .outOfBounds := by
    simp only [heapPop, size]
    rfl
  simp only [UserScheduler.contextSwitch, conserved.strategy, SJF.contextSwitch, idle, popped]
  cases top : heapTop c.sjf.inactiveHeap with
  | ok cell => rfl
  | error reason =>
      have outside : reason = .outOfBounds := by
        unfold heapTop Buffer.read at top
        split at top
        · split at top
          · cases top
          · exact (Except.error.inj top).symm
        · exact (Except.error.inj top).symm
      rw [outside]
      rfl

/-! ### Runs -/

/-- After an iteration either some process runs or none is left. -/
def Settled (history : List LoopEvent) (now : Iteration) : Prop :=
  ∃ stored, Conserved (terminated history) now.core stored ∧
    (now.core.sjf.activeProcess = none → stored = 0)

theorem Settled.bounds {history : List LoopEvent} {now : Iteration}
    (settled : Settled history now) :
    0 ≤ heapSize now.core.sjf.inactiveHeap ∧
      heapSize now.core.sjf.inactiveHeap ≤ now.core.numProcess := by
  obtain ⟨_, conserved, _⟩ := settled
  exact conserved.bounds

theorem start_settled (entries : List Entry) (garbage : Nat → Option ProcessPtr) :
    Settled [] (start .SJF entries garbage) := by
  refine ⟨0, ?_, fun _ => rfl⟩
  exact
    { strategy := rfl
      within := Nat.zero_le _
      capacity := malloc_length garbage entries.length
      stores := heapInit_stores _ garbage entries.length
      accounted := rfl }

/-- The heap is not empty whenever `context_switch_SJF` is about to take from it. -/
def DispatchesFromNonempty (fork : Core → ProcessPtr → Int) (now : Iteration)
    (event : LoopEvent) : Prop :=
  ∃ c, handleEvent fork now.core event.type = .ok c ∧
    ((arrivalQueueEmpty c && UserScheduler.schedulerEmpty c) = false →
      c.sjf.activeProcess = none → heapEmpty c.sjf.inactiveHeap = false)

/-- The running child terminates, nothing waits in the heap, and more processes
are still to arrive. -/
def IdleGap (now : Iteration) (event : LoopEvent) : Prop :=
  (∃ process, event = .child process) ∧ heapEmpty now.core.sjf.inactiveHeap = true ∧
    arrivalQueueEmpty now.core = false

/-- What one good iteration guarantees. -/
structure Dispatched (history : List LoopEvent) (now later : Iteration) : Prop where
  bounds : 0 ≤ heapSize later.core.sjf.inactiveHeap ∧
    heapSize later.core.sjf.inactiveHeap ≤ later.core.numProcess
  resumed : ∃ made, later.core.calls = now.core.calls ++ made ∧
    ∀ pid, Call.priority (.resume pid) ∈ made → ∃ process,
      process < later.core.arrivalPtr ∧ process ∉ terminated history ∧
        (later.core.allProcessInfo process).pid = pid

theorem endIteration_ready {history : List LoopEvent} {before made : List Call}
    (conserved : Conserved (terminated history) c stored)
    (ready : c.sjf.activeProcess = none → stored = 0 → arrivalQueueEmpty c = true)
    (calls : c.calls = before ++ made) (quiet : NoResume made) :
    ∃ later stopped, endIteration c = .ok (later, stopped) ∧
      Settled history { core := later, stopped := stopped } ∧
      ∃ more, later.calls = before ++ more ∧
        ∀ pid, Call.priority (.resume pid) ∈ more → ∃ process,
          process < later.arrivalPtr ∧ process ∉ terminated history ∧
            (later.allProcessInfo process).pid = pid := by
  cases stops : (arrivalQueueEmpty c && UserScheduler.schedulerEmpty c) with
  | true =>
      refine ⟨c, true, ?_, ⟨stored, conserved, ?_⟩, made, calls, ?_⟩
      · rw [endIteration, stops]
        rfl
      · intro _
        exact (conserved.schedulerEmpty_iff.mp (Bool.and_eq_true_iff.mp stops).2).1
      · intro pid member
        exact absurd member (quiet pid)
  | false =>
      have nonempty : c.sjf.activeProcess = none → stored ≠ 0 := by
        intro idle isEmpty
        have empty := conserved.schedulerEmpty_iff.mpr ⟨isEmpty, idle⟩
        rw [ready idle isEmpty, empty] at stops
        cases stops
      obtain ⟨later, stored', more, process, switched, conserved', active, calls', resumed⟩ :=
        contextSwitch_conserved conserved nonempty
      refine ⟨later, false, ?_, ⟨stored', conserved', ?_⟩, made ++ more, ?_, ?_⟩
      · rw [endIteration, stops]
        change (UserScheduler.contextSwitch c >>= _) = _
        rw [switched]
        rfl
      · intro idle
        rw [active] at idle
        cases idle
      · rw [calls', calls, List.append_assoc]
      · intro pid member
        obtain ⟨arrived, alive⟩ := conserved'.active_live active
        rcases List.mem_append.mp member with early | late
        · exact absurd early (quiet pid)
        · exact ⟨process, arrived, alive, resumed pid late⟩

/-- Nothing to run although processes are still to arrive. -/
def Starved (c : Core) (stored : Multiset ProcessPtr) : Prop :=
  c.sjf.activeProcess = none ∧ stored = 0 ∧ arrivalQueueEmpty c = false

theorem dispatches_iff_not_starved {now : Iteration} {event : LoopEvent}
    (handled : handleEvent fork now.core event.type = .ok c)
    (conserved : Conserved gone c stored) :
    DispatchesFromNonempty fork now event ↔ ¬ Starved c stored := by
  constructor
  · rintro ⟨found, same, dispatches⟩ ⟨idle, isEmpty, more⟩
    have isC : found = c := Except.ok.inj (same.symm.trans handled)
    subst isC
    have notEmpty := dispatches (by rw [more]; rfl) idle
    rw [(heapEmpty_iff conserved.stores).mpr isEmpty] at notEmpty
    cases notEmpty
  · intro fed
    refine ⟨c, handled, ?_⟩
    intro continues idle
    rw [← Bool.not_eq_true, heapEmpty_iff conserved.stores]
    intro isEmpty
    rw [conserved.schedulerEmpty_iff.mpr ⟨isEmpty, idle⟩, Bool.and_true] at continues
    exact fed ⟨idle, isEmpty, continues⟩

theorem iterate_fed {history : List LoopEvent} {now : Iteration} {event : LoopEvent}
    {made : List Call} (handled : handleEvent fork now.core event.type = .ok c)
    (conserved : Conserved (terminated history) c stored)
    (calls : c.calls = now.core.calls ++ made) (quiet : NoResume made)
    (fed : ¬ Starved c stored) :
    ∃ later, iterate fork now event = .ok later ∧ Settled history later ∧
      Dispatched history now later := by
  have ready : c.sjf.activeProcess = none → stored = 0 → arrivalQueueEmpty c = true := by
    intro idle isEmpty
    by_contra more
    exact fed ⟨idle, isEmpty, Bool.not_eq_true _ ▸ more⟩
  obtain ⟨later, stopped, ended, settled, resumed⟩ :=
    endIteration_ready conserved ready calls quiet
  refine ⟨{ core := later, stopped := stopped }, ?_, settled, settled.bounds, resumed⟩
  rw [iterate, handled, ok_bind, ended]
  rfl

theorem iterate_starved {now : Iteration} {event : LoopEvent}
    (handled : handleEvent fork now.core event.type = .ok c)
    (conserved : Conserved gone c stored) (starved : Starved c stored) :
    iterate fork now event = .error .outOfBounds := by
  obtain ⟨idle, isEmpty, more⟩ := starved
  subst isEmpty
  rw [iterate, handled, ok_bind, endIteration, more, Bool.false_and]
  change ((UserScheduler.contextSwitch c >>= _) >>= _) = _
  rw [contextSwitch_idle conserved idle]
  rfl

/-- Every event is handled; the idle gap is the one that starves the switch. -/
theorem handleEvent_settled {history : List LoopEvent} {now : Iteration} {event : LoopEvent}
    (settled : Settled history now) (allowed : (eventMachine fork).enabled now event) :
    ∃ c stored made, handleEvent fork now.core event.type = .ok c ∧
      Conserved (terminated (history ++ [event])) c stored ∧
      c.calls = now.core.calls ++ made ∧ NoResume made ∧
      (IdleGap now event ↔ Starved c stored) := by
  obtain ⟨stored, conserved, _⟩ := settled
  rw [terminated_append]
  cases event with
  | arrival =>
      have pending : now.core.arrivalPtr < now.core.numProcess := by
        have notEmpty : ¬ now.core.arrivalPtr = now.core.numProcess :=
          beq_eq_false_iff_ne.mp allowed.2
        have within := conserved.within
        omega
      obtain ⟨c, stored', made, handled, conserved', nonempty, _, calls, quiet⟩ :=
        arrival_conserved fork conserved pending
      refine ⟨c, stored', made, handled, ?_, calls, quiet, ?_, ?_⟩
      · change Conserved (terminated history ++ []) c stored'
        rw [List.append_nil]
        exact conserved'
      · rintro ⟨⟨process, impossible⟩, _⟩
        cases impossible
      · rintro ⟨_, isEmpty, _⟩
        exact absurd isEmpty nonempty
  | timeslice =>
      have isRR : now.core.currentStrategy = .RR := allowed.2
      rw [conserved.strategy] at isRR
      cases isRR
  | child process =>
      have active : now.core.sjf.activeProcess = some process := by
        have runs := allowed.2
        rwa [conserved.strategy] at runs
      obtain ⟨c, handled, conserved', idle, _, pointer, total, calls⟩ :=
        child_conserved fork conserved active
      have queue : arrivalQueueEmpty c = arrivalQueueEmpty now.core := by
        rw [arrivalQueueEmpty, arrivalQueueEmpty, pointer, total]
      refine ⟨c, stored, _, handled, conserved', calls, ?_, ?_, ?_⟩
      · intro pid member
        simp at member
      · rintro ⟨_, isEmpty, more⟩
        rw [heapEmpty_iff conserved.stores] at isEmpty
        exact ⟨idle, isEmpty, queue.trans more⟩
      · rintro ⟨_, isEmpty, more⟩
        rw [← heapEmpty_iff conserved.stores] at isEmpty
        exact ⟨⟨process, rfl⟩, isEmpty, queue.symm.trans more⟩

/-- Outside an idle gap an iteration goes through; in one it writes outside the
heap. -/
theorem iterate_settled {history : List LoopEvent} {now : Iteration} {event : LoopEvent}
    (settled : Settled history now) (allowed : (eventMachine fork).enabled now event) :
    (DispatchesFromNonempty fork now event ↔ ¬ IdleGap now event) ∧
      (¬ IdleGap now event → ∃ later, iterate fork now event = .ok later ∧
        Settled (history ++ [event]) later ∧ Dispatched (history ++ [event]) now later) ∧
      (IdleGap now event → iterate fork now event = .error .outOfBounds) := by
  obtain ⟨c, stored, made, handled, conserved, calls, quiet, gapIff⟩ :=
    handleEvent_settled settled allowed
  rw [gapIff]
  exact ⟨dispatches_iff_not_starved handled conserved,
    iterate_fed handled conserved calls quiet, iterate_starved handled conserved⟩

theorem run_settled {entries : List Entry} {garbage : Nat → Option ProcessPtr}
    {history : List LoopEvent} {now : Iteration}
    (run : (eventMachine fork).Run (start .SJF entries garbage) history now) :
    Settled history now := by
  apply run.history_invariant Settled (start_settled entries garbage)
  intro history now event later settled allowed stepped
  obtain ⟨_, goesThrough, faults⟩ := iterate_settled settled allowed
  by_cases gap : IdleGap now event
  · have faulted : (eventMachine fork).step now event = .error .outOfBounds := faults gap
    rw [faulted] at stepped
    cases stepped
  · obtain ⟨found, same, settled', _⟩ := goesThrough gap
    have isLater : found = later := Except.ok.inj (same.symm.trans stepped)
    exact isLater ▸ settled'

/-- In every reachable state the heap size is in range, and for every event
that may follow the switch finds a process exactly when there is no idle gap.
Then only a live process is resumed; in a gap the heap's buffer is left. -/
theorem dispatches_iff_no_idleGap (fork : Core → ProcessPtr → Int) (entries : List Entry)
    (garbage : Nat → Option ProcessPtr) {history : List LoopEvent} {now : Iteration}
    (run : (eventMachine fork).Run (start .SJF entries garbage) history now) :
    (0 ≤ heapSize now.core.sjf.inactiveHeap ∧
      heapSize now.core.sjf.inactiveHeap ≤ now.core.numProcess) ∧
      ∀ event, (eventMachine fork).enabled now event →
        (DispatchesFromNonempty fork now event ↔ ¬ IdleGap now event) ∧
          (¬ IdleGap now event → ∃ later, iterate fork now event = .ok later ∧
            Dispatched (history ++ [event]) now later) ∧
          (IdleGap now event → iterate fork now event = .error .outOfBounds) := by
  have settled := run_settled run
  refine ⟨settled.bounds, ?_⟩
  intro event allowed
  obtain ⟨dispatches, goesThrough, faults⟩ := iterate_settled settled allowed
  refine ⟨dispatches, ?_, faults⟩
  intro noGap
  obtain ⟨later, stepped, _, dispatched⟩ := goesThrough noGap
  exact ⟨later, stepped, dispatched⟩

/-- Two jobs with a gap between them. -/
def gapEntries : List Entry := [⟨0, 1⟩, ⟨5, 1⟩]

def gapState : Iteration :=
  { core := { initCore .SJF gapEntries (fun _ => none) with
      allProcessInfo := (readProcessInfo gapEntries).modify 0
        fun info => { info with pid := 100 }
      arrivalPtr := 1
      sjf := { inactiveHeap := { pq := [some 0, none], heapSize := 0 }, activeProcess := some 0 }
      calls := [.addProcess 0, .priority (.suspend 100), .priority (.resume 100)] }
    stopped := false }

theorem gapState_reached :
    (eventMachine fun _ process => 100 + process).Run (start .SJF gapEntries fun _ => none)
      [.arrival] gapState :=
  Machine.run_of_replay [LoopEvent.arrival] rfl

/-- The first job ends before the second arrives: the switch has nothing to take. -/
theorem gapEntries_break_dispatch :
    ValidInput gapEntries ∧
      (eventMachine fun _ process => 100 + process).Run (start .SJF gapEntries fun _ => none)
        [.arrival] gapState ∧
      (eventMachine fun _ process => 100 + process).enabled gapState (.child 0) ∧
      ¬ DispatchesFromNonempty (fun _ process => 100 + process) gapState (.child 0) ∧
      iterate (fun _ process => 100 + process) gapState (.child 0) = .error .outOfBounds := by
  refine ⟨⟨by decide, by decide, by decide, by decide⟩, gapState_reached, ⟨rfl, rfl⟩, ?_, rfl⟩
  rintro ⟨c, handled, dispatches⟩
  cases Except.ok.inj handled
  exact Bool.noConfusion (dispatches rfl rfl)

theorem dispatches_iff_no_idleGap_batch :
    ∃ later, iterate (fun _ process => 100 + process) gapState .arrival = .ok later := by
  have outcome := dispatches_iff_no_idleGap (fun _ process => 100 + process) gapEntries
    (fun _ => none) gapState_reached
  obtain ⟨_, goesThrough, _⟩ := outcome.2 LoopEvent.arrival ⟨rfl, rfl⟩
  obtain ⟨later, stepped, _⟩ := goesThrough (by
    rintro ⟨⟨process, impossible⟩, _⟩
    cases impossible)
  exact ⟨later, stepped⟩

end SJF

end UserScheduler
