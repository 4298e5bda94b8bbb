/-
The event loop under RR, seen on the ready queue.

`Queued` ties the handler's state to one ready queue.  Each lemma here says what
one handler function returns on such a state and which queue the result has;
nothing later looks at the array again.
-/

import Mathlib.Data.List.Perm.Subperm
import UserScheduler.EventRuns
import UserScheduler.RoundRobinQueue

namespace UserScheduler.RR

open Machines

/-! ### Cells in use -/

section Cells

variable {s : State} {before after : List ProcessPtr} {spare : Buffer}

theorem Arranged.read_cursor {head : ProcessPtr} {tail : List ProcessPtr}
    (arranged : Arranged s before (head :: tail) spare) :
    s.pq.read s.currentProcessId = .ok (some head) := by
  apply read_split arranged.cells
  rw [arranged.occupied (List.cons_ne_nil head tail), List.length_map]

theorem Arranged.read_index (arranged : Arranged s before after spare) {index : Int}
    (nonnegative : 0 ≤ index) (inUse : index < s.processCount) :
    ∃ process, s.pq.read index = .ok (some process) ∧
      (before ++ after)[index.toNat]? = some process := by
  obtain ⟨place, rfl⟩ := Int.eq_ofNat_of_zero_le nonnegative
  have counted := arranged.count
  have bound : place < (before ++ after).length := by
    rw [List.length_append]
    omega
  have found := List.getElem?_eq_getElem bound
  refine ⟨(before ++ after)[place], ?_, found⟩
  apply Buffer.read_eq
  rw [arranged.cells, ← List.append_assoc, ← List.map_append,
    List.getElem?_append_left (by rw [List.length_map]; exact bound), List.getElem?_map, found]
  rfl

/-- Without processes the cursor points nowhere. -/
theorem Arranged.cursor_bounds (arranged : Arranged s before after spare) :
    s.currentProcessId = -1 ∨
      0 ≤ s.currentProcessId ∧ s.currentProcessId < s.processCount := by
  cases after with
  | nil => exact Or.inl (arranged.vacant rfl).2.1
  | cons head tail =>
      right
      rw [arranged.occupied (List.cons_ne_nil head tail), arranged.count, List.length_cons]
      omega

end Cells

/-! ### The handler's state and its queue -/

structure Queued (c : Core) (queue : List ProcessPtr) : Prop where
  strategy : c.currentStrategy = .RR
  within : c.arrivalPtr ≤ c.numProcess
  capacity : c.rr.pq.length = c.numProcess
  arranged : ∃ before after spare, Arranged c.rr before after spare ∧ queue = after ++ before
  arrived : ∀ process ∈ queue, process < c.arrivalPtr
  distinct : queue.Nodup

variable {fork : Core → ProcessPtr → Int} {c : Core} {queue : List ProcessPtr}

theorem Queued.readyQueue_eq (queued : Queued c queue) : readyQueue c.rr = queue.map some := by
  obtain ⟨before, after, spare, arranged, same⟩ := queued.arranged
  rw [arranged.readyQueue_eq, same]

theorem Queued.mem_readyQueue (queued : Queued c queue) (process : ProcessPtr) :
    some process ∈ readyQueue c.rr ↔ process ∈ queue := by
  rw [queued.readyQueue_eq, List.mem_map]
  constructor
  · rintro ⟨other, member, same⟩
    exact Option.some.inj same ▸ member
  · intro member
    exact ⟨process, member, rfl⟩

theorem Queued.count (queued : Queued c queue) : c.rr.processCount = queue.length := by
  obtain ⟨before, after, spare, arranged, same⟩ := queued.arranged
  rw [arranged.count, same, List.length_append, Nat.add_comm]

theorem Queued.length_le (queued : Queued c queue) : queue.length ≤ c.arrivalPtr := by
  have inside : queue ⊆ List.range c.arrivalPtr := by
    intro process member
    exact List.mem_range.mpr (queued.arrived process member)
  have bounded := (queued.distinct.subperm inside).length_le
  rwa [List.length_range] at bounded

theorem Queued.schedulerEmpty_iff (queued : Queued c queue) :
    UserScheduler.schedulerEmpty c = true ↔ queue = [] := by
  obtain ⟨before, after, spare, arranged, same⟩ := queued.arranged
  rw [UserScheduler.schedulerEmpty, queued.strategy]
  change schedulerEmpty c.rr = true ↔ _
  rw [arranged.schedulerEmpty_iff, arranged.readyQueue_eq, same, List.map_eq_nil_iff]

theorem Queued.read_cursor {head : ProcessPtr} {tail : List ProcessPtr}
    (queued : Queued c (head :: tail)) :
    c.rr.pq.read c.rr.currentProcessId = .ok (some head) := by
  obtain ⟨before, after, spare, arranged, same⟩ := queued.arranged
  cases after with
  | nil =>
      rw [(arranged.vacant rfl).1] at same
      cases same
  | cons first rest =>
      rw [(List.cons.inj same).1]
      exact arranged.read_cursor

/-- The child the loop lets terminate is the head of the queue. -/
theorem Queued.runsUnder (queued : Queued c queue) {process : ProcessPtr}
    (runs : c.RunsUnder process c.currentStrategy) : ∃ tail, queue = process :: tail := by
  rw [queued.strategy] at runs
  change c.rr.pq.read c.rr.currentProcessId = .ok (some process) at runs
  cases queue with
  | nil =>
      obtain ⟨before, after, spare, arranged, same⟩ := queued.arranged
      obtain ⟨noneAfter, _⟩ := List.append_eq_nil_iff.mp same.symm
      rw [(arranged.vacant noneAfter).2.1] at runs
      cases runs
  | cons head tail =>
      rw [queued.read_cursor] at runs
      cases Except.ok.inj runs
      exact ⟨tail, rfl⟩

theorem start_queued (entries : List Entry) (garbage : Nat → Option ProcessPtr) :
    Queued (start .RR entries garbage).core [] where
  strategy := rfl
  within := Nat.zero_le _
  capacity := malloc_length garbage entries.length
  arranged := ⟨[], [], _, setStrategy_arranged garbage entries.length, rfl⟩
  arrived := by
    intro process member
    cases member
  distinct := List.nodup_nil

/-! ### Arrivals -/

theorem addToScheduler_eq (strategy : c.currentStrategy = .RR) {process : ProcessPtr}
    {rr : State} (added : addProcess c.rr process = .ok rr) :
    addToScheduler c process = .ok { c with rr := rr } := by
  rw [addToScheduler, strategy]
  change (addProcess c.rr process >>= _) = _
  rw [added]
  rfl

/-- What taking in the next process changes outside the scheduler. -/
structure TakenIn (fork : Core → ProcessPtr → Int) (c later : Core) : Prop where
  numProcess : later.numProcess = c.numProcess
  arrivalPtr : later.arrivalPtr = c.arrivalPtr + 1
  pid : (later.allProcessInfo c.arrivalPtr).pid =
    fork { c with arrivalPtr := c.arrivalPtr + 1 } c.arrivalPtr
  others : ∀ process, process ≠ c.arrivalPtr →
    later.allProcessInfo process = c.allProcessInfo process
  calls : later.calls = c.calls ++ [.addProcess c.arrivalPtr,
    .priority (.suspend (later.allProcessInfo c.arrivalPtr).pid)]

theorem addArrivedProcess_queued (fork : Core → ProcessPtr → Int) (queued : Queued c queue)
    (pending : c.arrivalPtr < c.numProcess) :
    ∃ later, addArrivedProcess fork c = .ok later ∧ TakenIn fork c later ∧
      Queued later (queue ++ [c.arrivalPtr]) := by
  obtain ⟨before, after, spare, arranged, same⟩ := queued.arranged
  have room : spare ≠ [] := by
    intro noSpare
    have length := arranged.length_eq
    have bounded := queued.length_le
    rw [queued.capacity, noSpare, List.length_nil] at length
    rw [same, List.length_append] at bounded
    omega
  have allowed : queueMachine.enabled c.rr (.add c.arrivalPtr) := trivial
  obtain ⟨rr, before', after', spare', added, arranged', sameLength, _, joined⟩ :=
    queueStep_arranged arranged allowed (fun _ => room)
  rw [arranged'.readyQueue_eq, arranged.readyQueue_eq] at joined
  have joinedAs : after' ++ before' = queue ++ [c.arrivalPtr] := by
    apply (List.map_inj_right (fun _ _ => Option.some.inj)).mp
    rw [joined, ← same, List.map_append]
    rfl
  let forked := forkSuspended fork { c with arrivalPtr := c.arrivalPtr + 1 } c.arrivalPtr
  have isRR : forked.currentStrategy = .RR := queued.strategy
  have child : (forked.allProcessInfo c.arrivalPtr).pid =
      fork { c with arrivalPtr := c.arrivalPtr + 1 } c.arrivalPtr := by
    change (c.allProcessInfo.modify c.arrivalPtr _ c.arrivalPtr).pid = _
    rw [Memory.modify_same]
  refine ⟨{ forked with rr := rr }, ?_, ?_, ?_⟩
  · rw [addArrivedProcess, UserScheduler.addProcess, if_pos pending]
    exact addToScheduler_eq isRR added
  · exact
      { numProcess := rfl
        arrivalPtr := rfl
        pid := child
        others := fun process different => forkSuspended_other fork _ different
        calls := by
          change c.calls ++ _ = c.calls ++ [_, .priority (.suspend
            (forked.allProcessInfo c.arrivalPtr).pid)]
          rw [child] }
  · exact
      { strategy := queued.strategy
        within := pending
        capacity := sameLength.trans queued.capacity
        arranged := ⟨before', after', spare', arranged', joinedAs.symm⟩
        arrived := by
          intro process member
          change process < c.arrivalPtr + 1
          rcases List.mem_append.mp member with early | new
          · exact Nat.lt_succ_of_lt (queued.arrived process early)
          · rw [List.mem_singleton.mp new]
            exact Nat.lt_succ_self _
        distinct := by
          rw [List.nodup_append]
          refine ⟨queued.distinct, List.pairwise_singleton _ _, ?_⟩
          intro process early other new
          rw [List.mem_singleton.mp new]
          exact Nat.ne_of_lt (queued.arrived process early) }

/-- A group joins the queue in input order. -/
theorem processArrival_queued (fork : Core → ProcessPtr → Int) (queued : Queued c queue)
    (pending : c.arrivalPtr < c.numProcess) :
    ∃ later untilNext made, processArrival fork c = .ok (later, untilNext) ∧
      Queued later (queue ++ List.range' c.arrivalPtr (later.arrivalPtr - c.arrivalPtr)) ∧
      Admitted c later c.arrivalPtr untilNext ∧ later.calls = c.calls ++ made ∧
      addedProcesses made = List.range' c.arrivalPtr (later.arrivalPtr - c.arrivalPtr) := by
  let group (now : Core) := List.range' c.arrivalPtr (now.arrivalPtr - c.arrivalPtr)
  let invariant (now : Core) : Prop := c.arrivalPtr ≤ now.arrivalPtr ∧
    Queued now (queue ++ group now) ∧
    ∃ made, now.calls = c.calls ++ made ∧ addedProcesses made = group now
  have nothing : group c = [] := by
    change List.range' c.arrivalPtr (c.arrivalPtr - c.arrivalPtr) = []
    rw [Nat.sub_self, List.range'_zero]
  have initially : invariant c := by
    refine ⟨Nat.le_refl _, ?_, [], (List.append_nil _).symm, nothing.symm⟩
    rw [nothing, List.append_nil]
    exact queued
  have progress : ∀ now, invariant now → now.arrivalPtr < now.numProcess →
      ∃ later, addArrivedProcess fork now = .ok later ∧ invariant later := by
    rintro now ⟨reached, queued', made, calls, added⟩ pending'
    obtain ⟨later, adding, taken, queued''⟩ := addArrivedProcess_queued fork queued' pending'
    have pointer := taken.arrivalPtr
    have grown : group later = group now ++ [now.arrivalPtr] := by
      change List.range' c.arrivalPtr (later.arrivalPtr - c.arrivalPtr) = _
      rw [show later.arrivalPtr - c.arrivalPtr = now.arrivalPtr - c.arrivalPtr + 1 by omega,
        List.range'_1_concat, Nat.add_sub_cancel' reached]
    refine ⟨later, adding, by omega, ?_, made ++ [.addProcess now.arrivalPtr,
      .priority (.suspend (later.allProcessInfo now.arrivalPtr).pid)], ?_, ?_⟩
    · rw [grown, ← List.append_assoc]
      exact queued''
    · rw [taken.calls, calls, List.append_assoc]
    · rw [addedProcesses_append, added, grown]
      rfl
  obtain ⟨later, untilNext, ended, ⟨_, queued', made, calls, added⟩, admitted⟩ :=
    processArrival_spec invariant progress initially pending
  exact ⟨later, untilNext, made, ended, queued', admitted, calls, added⟩

/-! ### Slice ends and terminations -/

/-- The queue after a slice end. -/
def rotate : List ProcessPtr → List ProcessPtr
  | [] => []
  | head :: tail => tail ++ [head]

theorem mem_rotate (queue : List ProcessPtr) (process : ProcessPtr) :
    process ∈ rotate queue ↔ process ∈ queue := by
  cases queue with
  | nil => rfl
  | cons head tail => rw [rotate, List.mem_append, List.mem_singleton, List.mem_cons, or_comm]

theorem timesliceOver_queued (queued : Queued c queue) :
    ∃ later, UserScheduler.timesliceOver c = .ok later ∧
      later = { c with rr := timesliceOver c.rr, calls := c.calls ++ [.timesliceOver] } ∧
      Queued later (rotate queue) ∧
      ∀ head tail, queue = head :: tail →
        later.rr.pq.read later.rr.previousActiveId = .ok (some head) := by
  obtain ⟨before, after, spare, arranged, same⟩ := queued.arranged
  have allowed : queueMachine.enabled c.rr .timeslice := trivial
  have notAdd : QueueOp.timeslice.isAdd = true → spare ≠ [] := by
    intro isAdd
    cases isAdd
  obtain ⟨rr, before', after', spare', rotated, arranged', sameLength, _, moved⟩ :=
    queueStep_arranged arranged allowed notAdd
  cases Except.ok.inj rotated
  rw [arranged'.readyQueue_eq, arranged.readyQueue_eq, ← same] at moved
  have movedAs : after' ++ before' = rotate queue := by
    apply (List.map_inj_right (fun _ _ => Option.some.inj)).mp
    rw [moved]
    cases queue with
    | nil => rfl
    | cons head tail =>
        rw [rotate, List.map_append]
        rfl
  have isRR := queued.strategy
  refine ⟨_, ?_, rfl, ?_, ?_⟩
  · rw [UserScheduler.timesliceOver, isRR]
    rfl
  · exact
      { strategy := isRR
        within := queued.within
        capacity := queued.capacity
        arranged := ⟨before', after', spare', arranged', movedAs.symm⟩
        arrived := by
          intro process member
          exact queued.arrived process ((mem_rotate queue process).mp member)
        distinct := by
          cases queue with
          | nil => exact queued.distinct
          | cons head tail =>
              exact (List.perm_append_singleton head tail).nodup_iff.mpr queued.distinct }
  · intro head tail isCons
    rw [isCons] at queued
    exact queued.read_cursor

theorem removeCurrentProcess_queued {head : ProcessPtr} {tail : List ProcessPtr}
    (queued : Queued c (head :: tail)) :
    ∃ later rr, UserScheduler.removeCurrentProcess c = .ok later ∧
      later = { c with rr := rr, calls := c.calls ++ [.removeCurrentProcess] } ∧
      Queued later tail ∧ later.rr.previousActiveId = -1 := by
  obtain ⟨before, after, spare, arranged, same⟩ := queued.arranged
  cases after with
  | nil =>
      rw [(arranged.vacant rfl).1] at same
      cases same
  | cons first rest =>
      obtain ⟨rfl, sameTail⟩ := List.cons.inj same
      change tail = rest ++ before at sameTail
      obtain ⟨rr, spare', removed, longer, unset, next⟩ := removeCurrentProcess_arranged arranged
      have isRR := queued.strategy
      have distinct := List.nodup_cons.mp queued.distinct
      have split : ∃ before' after', Arranged rr before' after' spare' ∧
          tail = after' ++ before' := by
        split at next
        · rename_i isLast
          rw [isLast, List.nil_append] at sameTail
          exact ⟨[], before, next, by rw [List.append_nil, sameTail]⟩
        · exact ⟨before, rest, next, sameTail⟩
      obtain ⟨before', after', arranged', shape⟩ := split
      have sameLength : rr.pq.length = c.rr.pq.length := by
        rw [arranged'.length_eq, arranged.length_eq, longer, List.length_cons]
        have counted := congrArg List.length shape
        rw [sameTail, List.length_append, List.length_append] at counted
        omega
      refine ⟨_, rr, ?_, rfl, ?_, unset⟩
      · rw [UserScheduler.removeCurrentProcess, removeFromScheduler]
        simp only [isRR, removed, ok_bind]
        rfl
      · exact
          { strategy := isRR
            within := queued.within
            capacity := sameLength.trans queued.capacity
            arranged := ⟨before', after', spare', arranged', shape⟩
            arrived := by
              intro process member
              exact queued.arrived process (List.mem_cons_of_mem _ member)
            distinct := distinct.2 }

/-! ### The context switch -/

theorem callAt_read {mem : Memory} {s : State} {index : Int} {process : ProcessPtr}
    (found : s.pq.read index = .ok (some process)) (call : Int → PriorityCall) :
    callAt mem s index call = .ok [call (mem process).pid] := by
  have nonnegative : 0 ≤ index := by
    unfold Buffer.read at found
    split at found
    · assumption
    · cases found
  rw [callAt, if_pos nonnegative, found]
  rfl

/-- `previous_active_id` points nowhere or at some process of the queue. -/
theorem Queued.previous (queued : Queued c queue) :
    c.rr.previousActiveId = -1 ∨
      ∃ process ∈ queue, c.rr.pq.read c.rr.previousActiveId = .ok (some process) := by
  obtain ⟨before, after, spare, arranged, same⟩ := queued.arranged
  rcases arranged.previous with unset | ⟨nonnegative, inUse⟩
  · exact Or.inl unset
  · obtain ⟨process, found, placed⟩ := arranged.read_index nonnegative inUse
    have member : process ∈ before ++ after := List.mem_of_getElem? placed
    refine Or.inr ⟨process, ?_, found⟩
    rw [same, List.mem_append, or_comm, ← List.mem_append]
    exact member

theorem Queued.cursor_unset (queued : Queued c []) : c.rr.currentProcessId = -1 := by
  obtain ⟨before, after, spare, arranged, same⟩ := queued.arranged
  exact (arranged.vacant (List.append_eq_nil_iff.mp same.symm).1).2.1

/-- The head of the queue is resumed last. -/
theorem callAt_cursor (queued : Queued c queue) :
    callAt c.allProcessInfo c.rr c.rr.currentProcessId .resume =
      .ok ((queue.take 1).map fun process => .resume (c.allProcessInfo process).pid) := by
  cases queue with
  | nil =>
      rw [queued.cursor_unset]
      rfl
  | cons head tail => exact callAt_read queued.read_cursor _

/-- The calls made by `context_switch_RR`: the process at `previous_active_id`,
whichever that is by now, then the head of the queue. -/
theorem contextSwitch_queued (queued : Queued c queue) :
    ∃ stopped : Option ProcessPtr, (∀ process ∈ stopped, process ∈ queue) ∧
      (∀ process, c.rr.pq.read c.rr.previousActiveId = .ok (some process) →
        stopped = some process) ∧
      UserScheduler.contextSwitch c = .ok { c with
        calls := c.calls ++
          (stopped.toList.map
              (fun process => .priority (.suspend (c.allProcessInfo process).pid)) ++
            (queue.take 1).map
              (fun process => .priority (.resume (c.allProcessInfo process).pid))) } := by
  have stops : ∃ stopped : Option ProcessPtr, (∀ process ∈ stopped, process ∈ queue) ∧
      (∀ process, c.rr.pq.read c.rr.previousActiveId = .ok (some process) →
        stopped = some process) ∧
      callAt c.allProcessInfo c.rr c.rr.previousActiveId .suspend =
        .ok (stopped.toList.map fun process => .suspend (c.allProcessInfo process).pid) := by
    rcases queued.previous with unset | ⟨process, member, found⟩
    · refine ⟨none, ?_, ?_, ?_⟩
      · intro process impossible
        cases impossible
      · intro process found
        rw [unset] at found
        cases found
      · rw [unset]
        rfl
    · refine ⟨some process, ?_, ?_, callAt_read found _⟩
      · intro other isProcess
        rw [← Option.mem_some.mp isProcess]
        exact member
      · intro other found'
        rw [found] at found'
        exact Except.ok.inj found'
  obtain ⟨stopped, inQueue, atPrevious, suspending⟩ := stops
  refine ⟨stopped, inQueue, atPrevious, ?_⟩
  rw [UserScheduler.contextSwitch, queued.strategy]
  simp only [contextSwitch, suspending, callAt_cursor queued, ok_bind, pure_eq_ok,
    List.map_append, List.map_map]
  rfl

/-- Priorities are nothing to the queue. -/
theorem Queued.with_calls (queued : Queued c queue) (calls : List Call) :
    Queued { c with calls := calls } queue :=
  ⟨queued.strategy, queued.within, queued.capacity, queued.arranged, queued.arrived,
    queued.distinct⟩

/-! ### Whole iterations -/

/-- The loop breaks when nothing is queued and nothing is to arrive. -/
theorem endIteration_queued (queued : Queued c queue) :
    ∃ made : List PriorityCall, endIteration c = .ok
      ({ c with calls := c.calls ++ made.map .priority },
        arrivalQueueEmpty c && queue.isEmpty) := by
  have empty : UserScheduler.schedulerEmpty c = queue.isEmpty := by
    rw [Bool.eq_iff_iff, queued.schedulerEmpty_iff, List.isEmpty_iff]
  rw [endIteration, empty]
  split
  · rename_i breaks
    refine ⟨[], ?_⟩
    rw [breaks, List.map_nil, List.append_nil]
    rfl
  · rename_i continues
    obtain ⟨stopped, _, _, switched⟩ := contextSwitch_queued queued
    refine ⟨stopped.toList.map (fun process => .suspend (c.allProcessInfo process).pid) ++
      (queue.take 1).map (fun process => .resume (c.allProcessInfo process).pid), ?_⟩
    rw [switched, Bool.eq_false_iff.mpr continues, List.map_append, List.map_map, List.map_map]
    rfl

/-- What an iteration leaves on the queue it was left with. -/
structure Iterated (now later : Iteration) (arrivalPtr : Nat) (queue : List ProcessPtr) :
    Prop where
  queued : Queued later.core queue
  numProcess : later.core.numProcess = now.core.numProcess
  arrivalPtr_eq : later.core.arrivalPtr = arrivalPtr
  stopped : later.stopped = true → queue = []

variable {now : Iteration}

theorem iterate_of_handled {event : LoopEvent} {queue' : List ProcessPtr}
    (handled : handleEvent fork now.core event.type = .ok c) (queued : Queued c queue')
    (sameNumber : c.numProcess = now.core.numProcess) :
    ∃ later, iterate fork now event = .ok later ∧ Iterated now later c.arrivalPtr queue' := by
  obtain ⟨made, ended⟩ := endIteration_queued queued
  refine ⟨⟨{ c with calls := c.calls ++ made.map .priority },
    arrivalQueueEmpty c && queue'.isEmpty⟩, ?_, queued.with_calls _, sameNumber, rfl, ?_⟩
  · rw [iterate, handled, ok_bind, ended]
    rfl
  · intro breaks
    exact List.isEmpty_iff.mp (Bool.and_eq_true_iff.mp breaks).2

theorem iterate_arrival (fork : Core → ProcessPtr → Int) (queued : Queued now.core queue)
    (pending : arrivalQueueEmpty now.core = false) :
    ∃ later arrivalPtr, iterate fork now .arrival = .ok later ∧
      now.core.arrivalPtr < arrivalPtr ∧ Iterated now later arrivalPtr
        (queue ++ List.range' now.core.arrivalPtr (arrivalPtr - now.core.arrivalPtr)) := by
  have notAll := beq_eq_false_iff_ne.mp pending
  obtain ⟨c, untilNext, _, admitted, queued', group, _⟩ :=
    processArrival_queued fork queued (Nat.lt_of_le_of_ne queued.within notAll)
  have handled : handleEvent fork now.core LoopEvent.arrival.type = .ok c := by
    change (processArrival fork now.core >>= _) = _
    rw [admitted]
    rfl
  obtain ⟨later, iterated, outcome⟩ := iterate_of_handled handled queued' group.input.numProcess
  exact ⟨later, c.arrivalPtr, iterated, group.reached, outcome⟩

theorem iterate_timeslice (fork : Core → ProcessPtr → Int) (queued : Queued now.core queue) :
    ∃ later, iterate fork now .timeslice = .ok later ∧
      Iterated now later now.core.arrivalPtr (rotate queue) := by
  obtain ⟨c, rotated, isRotated, queued', _⟩ := timesliceOver_queued queued
  have handled : handleEvent fork now.core LoopEvent.timeslice.type = .ok c := rotated
  have pointer : c.arrivalPtr = now.core.arrivalPtr := by rw [isRotated]
  rw [← pointer]
  exact iterate_of_handled handled queued' (by rw [isRotated])

theorem iterate_child (fork : Core → ProcessPtr → Int) {head : ProcessPtr}
    {tail : List ProcessPtr} (queued : Queued now.core (head :: tail)) (reported : ProcessPtr) :
    ∃ later, iterate fork now (.child reported) = .ok later ∧
      Iterated now later now.core.arrivalPtr tail := by
  obtain ⟨c, rr, removed, isRemoved, queued', _⟩ :=
    removeCurrentProcess_queued (queued.with_calls (now.core.calls ++ [.wait]))
  have handled : handleEvent fork now.core (LoopEvent.child reported).type = .ok c := removed
  have pointer : c.arrivalPtr = now.core.arrivalPtr := by rw [isRemoved]
  rw [← pointer]
  exact iterate_of_handled handled queued' (by rw [isRemoved])

end UserScheduler.RR
