/-
SJF dispatches the shortest waiting job and never preempts it.

Runs here are sequences of calls to the functions of SJF.c, each event followed
by a context switch, as the event loop makes them.  A ledger next to the
scheduler records what was added, dispatched and removed.
-/

import Mathlib.Algebra.Order.Ring.Int
import UserScheduler.HeapRefinement
import UserScheduler.JobSchedulers
import UserScheduler.Lib.CompletionTime

namespace UserScheduler.SJF

open Machines
open CompletionTime (totalCompletion totalCompletion_le_of_sorted)

/-! ### The functions of SJF.c on the stored processes -/

/-- `add_process_SJF` for every member of a group. -/
def addGroup (mem : Memory) : State → List ProcessPtr → Result State
  | s, [] => return s
  | s, process :: rest => do
      let s ← addProcess mem s process
      addGroup mem s rest

variable {mem : Memory} {s : State} {stored : Multiset ProcessPtr}

theorem addGroup_stores (stores : s.inactiveHeap.Stores mem stored) (group : List ProcessPtr)
    (room : stored.card + group.length ≤ s.inactiveHeap.pq.length) :
    ∃ heap, addGroup mem s group = .ok { s with inactiveHeap := heap } ∧
      heap.Stores mem (stored + group) ∧ heap.pq.length = s.inactiveHeap.pq.length := by
  induction group generalizing s stored with
  | nil => exact ⟨s.inactiveHeap, rfl, by simpa using stores, rfl⟩
  | cons process rest ih =>
      rw [List.length_cons] at room
      obtain ⟨heap, inserted, sameLength, grown⟩ :=
        heapInsert_stores stores (by omega) process
      have smaller : (process ::ₘ stored).card + rest.length ≤ heap.pq.length := by
        rw [Multiset.card_cons, sameLength]
        omega
      obtain ⟨final, adding, finalStores, finalLength⟩ :=
        ih (s := { s with inactiveHeap := heap }) grown smaller
      refine ⟨final, ?_, ?_, finalLength.trans sameLength⟩
      · rw [addGroup, addProcess, inserted]
        exact adding
      · rw [← Multiset.cons_coe, Multiset.add_cons, ← Multiset.cons_add]
        exact finalStores

/-- An idle scheduler takes the least process from the heap. -/
theorem contextSwitch_takes (stores : s.inactiveHeap.Stores mem stored) (nonempty : stored ≠ 0)
    (idle : s.activeProcess = none) :
    ∃ top heap, contextSwitch mem s = .ok
        ({ inactiveHeap := heap, activeProcess := some top }, [.resume (mem top).pid]) ∧
      top ∈ stored ∧ heap.Stores mem (stored.erase top) ∧
      heap.pq.length = s.inactiveHeap.pq.length ∧
      ∀ other ∈ stored, processKey mem top ≤ processKey mem other := by
  obtain ⟨top, member, atTop, least⟩ := heapTop_stores stores nonempty
  obtain ⟨heap, popped, sameLength, rest⟩ := heapPop_stores stores nonempty atTop
  refine ⟨top, heap, ?_, member, rest, sameLength, least⟩
  simp only [contextSwitch, idle, atTop, popped, ok_bind, load_some, pure_eq_ok]

theorem contextSwitch_keeps (mem : Memory) {process : ProcessPtr}
    (active : s.activeProcess = some process) : contextSwitch mem s = .ok (s, []) := by
  simp only [contextSwitch, active]
  rfl

theorem schedulerEmpty_iff (stores : s.inactiveHeap.Stores mem stored) :
    schedulerEmpty s = true ↔ stored = 0 ∧ s.activeProcess = none := by
  change (heapEmpty s.inactiveHeap && s.activeProcess.isNone) = true ↔ _
  rw [Bool.and_eq_true, heapEmpty_iff stores, Option.isNone_iff_eq_none]

/-! ### Runs with a ledger -/

structure Ledger where
  sjf : State
  added : List ProcessPtr
  dispatched : List ProcessPtr
  removed : List ProcessPtr
  calls : List PriorityCall

inductive JobEvent where
  | arrive (group : List ProcessPtr)
  | finish
deriving DecidableEq

def handleJob (mem : Memory) (s : State) : JobEvent → Result State
  | .arrive group => addGroup mem s group
  | .finish => return removeCurrentProcess s

/-- The processes an event adds. -/
def JobEvent.group : JobEvent → List ProcessPtr
  | .arrive group => group
  | .finish => []

def Ledger.record (now : Ledger) (event : JobEvent) (handled : State) : Ledger :=
  { now with
    sjf := handled
    added := now.added ++ event.group
    removed := now.removed ++ if event = .finish then now.sjf.activeProcess.toList else [] }

/-- Whoever the switch makes active although nobody was before is dispatched. -/
def Ledger.switch (now : Ledger) (switched : State × List PriorityCall) : Ledger :=
  { now with
    sjf := switched.1
    dispatched := now.dispatched ++
      if now.sjf.activeProcess = none then switched.1.activeProcess.toList else []
    calls := now.calls ++ switched.2 }

def jobStep (mem : Memory) (now : Ledger) (event : JobEvent) : Result Ledger := do
  let handled ← handleJob mem now.sjf event
  let switched ← contextSwitch mem handled
  return (now.record event handled).switch switched

def NothingToRun (s : State) : Prop :=
  s.activeProcess = none ∧ heapEmpty s.inactiveHeap = true

instance (s : State) : Decidable (NothingToRun s) := inferInstanceAs (Decidable (_ ∧ _))

/-- The switch after an event is not entered with nothing to run. -/
def EntersSwitchFed : Result State → Prop
  | .ok handled => ¬ NothingToRun handled
  | .error _ => True

instance (handled : Result State) : Decidable (EntersSwitchFed handled) :=
  match handled with
  | .ok s => inferInstanceAs (Decidable (¬ NothingToRun s))
  | .error _ => inferInstanceAs (Decidable True)

/-- Groups of new processes arrive, and the active process terminates. -/
def jobMachine (mem : Memory) (numProcess : Nat) : Machine Ledger JobEvent Fault where
  enabled now event :=
    (match event with
    | .arrive group => ((now.added ++ group).map fun process => (mem process).pid).Nodup ∧
        (∀ process ∈ group, (mem process).remainingTime = (mem process).timeNeeded) ∧
        (now.added ++ group).length ≤ numProcess
    | .finish => now.sjf.activeProcess ≠ none) ∧
      EntersSwitchFed (handleJob mem now.sjf event)
  step := jobStep mem

instance (mem : Memory) (numProcess : Nat) (now : Ledger) (event : JobEvent) :
    Decidable ((jobMachine mem numProcess).enabled now event) :=
  match event with
  | .arrive group => inferInstanceAs (Decidable
      ((((now.added ++ group).map fun process => (mem process).pid).Nodup ∧
        (∀ process ∈ group, (mem process).remainingTime = (mem process).timeNeeded) ∧
        (now.added ++ group).length ≤ numProcess) ∧
          EntersSwitchFed (handleJob mem now.sjf (.arrive group))))
  | .finish => inferInstanceAs (Decidable
      (now.sjf.activeProcess ≠ none ∧ EntersSwitchFed (handleJob mem now.sjf .finish)))

/-- After `set_strategy_SJF`. -/
def opening (garbage : Nat → Option ProcessPtr) (numProcess : Nat) : Ledger :=
  { sjf := setStrategy garbage numProcess
    added := []
    dispatched := []
    removed := []
    calls := [] }

/-! ### The invariant -/

/-- What the ledger and the scheduler say of each other. -/
structure Tracks (mem : Memory) (numProcess : Nat) (now : Ledger) (stored : Multiset ProcessPtr) :
    Prop where
  stores : now.sjf.inactiveHeap.Stores mem stored
  capacity : now.sjf.inactiveHeap.pq.length = numProcess
  fits : now.added.length ≤ numProcess
  pids : (now.added.map fun process => (mem process).pid).Nodup
  whole : ∀ process ∈ now.added, (mem process).remainingTime = (mem process).timeNeeded
  accounted : (now.added : Multiset ProcessPtr) =
    now.removed + now.sjf.activeProcess.toList + stored
  dispatched : now.dispatched = now.removed ++ now.sjf.activeProcess.toList
  resumed : now.calls = now.dispatched.map fun process => .resume (mem process).pid

variable {numProcess : Nat} {now later : Ledger}

theorem opening_tracks (mem : Memory) (garbage : Nat → Option ProcessPtr) (numProcess : Nat) :
    Tracks mem numProcess (opening garbage numProcess) 0 where
  stores := heapInit_stores mem garbage numProcess
  capacity := malloc_length garbage numProcess
  fits := Nat.zero_le _
  pids := List.nodup_nil
  whole _ impossible := absurd impossible List.not_mem_nil
  accounted := rfl
  dispatched := rfl
  resumed := rfl

theorem Tracks.distinct (tracks : Tracks mem numProcess now stored) : now.added.Nodup :=
  List.Nodup.of_map _ tracks.pids

theorem Tracks.stored_added (tracks : Tracks mem numProcess now stored) {process : ProcessPtr}
    (member : process ∈ stored) : process ∈ now.added := by
  rw [← Multiset.mem_coe, tracks.accounted]
  exact Multiset.mem_add.mpr (Or.inr member)

/-- What waits in the heap has not been dispatched. -/
theorem Tracks.waiting_iff (tracks : Tracks mem numProcess now stored) {process : ProcessPtr}
    (member : process ∈ now.added) : process ∉ now.dispatched ↔ process ∈ stored := by
  have accounted := tracks.accounted
  rw [Multiset.coe_add, ← tracks.dispatched] at accounted
  rw [← Multiset.mem_coe, accounted, Multiset.mem_add, Multiset.mem_coe] at member
  have distinct : ((now.dispatched : Multiset ProcessPtr) + stored).Nodup := by
    rw [← accounted]
    exact Multiset.coe_nodup.mpr tracks.distinct
  constructor
  · exact member.resolve_left
  · intro isStored isDispatched
    have apart := (Multiset.nodup_add.mp distinct).2.2
    exact Multiset.disjoint_left.mp apart (Multiset.mem_coe.mpr isDispatched) isStored

theorem Tracks.dispatched_nodup (tracks : Tracks mem numProcess now stored) :
    now.dispatched.Nodup := by
  have accounted := tracks.accounted
  rw [Multiset.coe_add, ← tracks.dispatched] at accounted
  have distinct := Multiset.coe_nodup.mpr tracks.distinct
  rw [accounted] at distinct
  exact Multiset.coe_nodup.mp (Multiset.nodup_add.mp distinct).1

theorem Tracks.dispatched_added (tracks : Tracks mem numProcess now stored) {process : ProcessPtr}
    (member : process ∈ now.dispatched) : process ∈ now.added := by
  rw [tracks.dispatched, ← Multiset.mem_coe, ← Multiset.coe_add] at member
  rw [← Multiset.mem_coe, tracks.accounted]
  exact Multiset.mem_add.mpr (Or.inl member)

theorem Tracks.calls_nodup (tracks : Tracks mem numProcess now stored) : now.calls.Nodup := by
  rw [tracks.resumed]
  apply List.Nodup.map_on _ tracks.dispatched_nodup
  intro first firstIn second secondIn same
  exact List.inj_on_of_nodup_map tracks.pids (tracks.dispatched_added firstIn)
    (tracks.dispatched_added secondIn) (PriorityCall.resume.inj same)

/-! ### One step -/

theorem arrive_tracks (tracks : Tracks mem numProcess now stored) {group : List ProcessPtr}
    (allowed : (jobMachine mem numProcess).enabled now (.arrive group)) :
    ∃ handled, handleJob mem now.sjf (.arrive group) = .ok handled ∧
      Tracks mem numProcess (now.record (.arrive group) handled) (stored + group) ∧
      handled.activeProcess = now.sjf.activeProcess := by
  obtain ⟨⟨pids, whole, fits⟩, _⟩ := allowed
  have counted := congrArg Multiset.card tracks.accounted
  rw [Multiset.card_add, Multiset.card_add, Multiset.coe_card] at counted
  have room : stored.card + group.length ≤ now.sjf.inactiveHeap.pq.length := by
    rw [List.length_append] at fits
    rw [tracks.capacity]
    omega
  obtain ⟨heap, adding, stores, sameLength⟩ := addGroup_stores tracks.stores group room
  refine ⟨{ now.sjf with inactiveHeap := heap }, adding, ?_, rfl⟩
  exact
    { stores := stores
      capacity := sameLength.trans tracks.capacity
      fits := fits
      pids := pids
      whole := by
        intro process member
        rcases List.mem_append.mp member with old | new
        · exact tracks.whole process old
        · exact whole process new
      accounted := by
        change ((now.added ++ group : List ProcessPtr) : Multiset ProcessPtr) =
          ((now.removed ++ [] : List ProcessPtr) : Multiset ProcessPtr) +
            now.sjf.activeProcess.toList + (stored + group)
        rw [List.append_nil, ← Multiset.coe_add, tracks.accounted, Multiset.add_assoc]
      dispatched := by
        change now.dispatched = (now.removed ++ []) ++ now.sjf.activeProcess.toList
        rw [List.append_nil]
        exact tracks.dispatched
      resumed := tracks.resumed }

theorem finish_tracks (tracks : Tracks mem numProcess now stored) :
    Tracks mem numProcess (now.record .finish (removeCurrentProcess now.sjf)) stored where
  stores := tracks.stores
  capacity := tracks.capacity
  fits := by
    change (now.added ++ []).length ≤ numProcess
    rw [List.append_nil]
    exact tracks.fits
  pids := by
    change ((now.added ++ []).map _).Nodup
    rw [List.append_nil]
    exact tracks.pids
  whole := by
    change ∀ process ∈ now.added ++ [], _
    rw [List.append_nil]
    exact tracks.whole
  accounted := by
    change ((now.added ++ [] : List ProcessPtr) : Multiset ProcessPtr) =
      ((now.removed ++ now.sjf.activeProcess.toList : List ProcessPtr) : Multiset ProcessPtr) +
        ([] : List ProcessPtr) + stored
    rw [List.append_nil, tracks.accounted, ← Multiset.coe_add, Multiset.coe_nil,
      Multiset.add_zero]
  dispatched := by
    change now.dispatched = (now.removed ++ now.sjf.activeProcess.toList) ++ []
    rw [List.append_nil]
    exact tracks.dispatched
  resumed := tracks.resumed

/-- The order in which SJF should dispatch. -/
def jobKey (mem : Memory) (process : ProcessPtr) : Int ×ₗ Int :=
  toLex ((mem process).timeNeeded, (mem process).pid)

theorem Tracks.key_eq (tracks : Tracks mem numProcess now stored) {process : ProcessPtr}
    (member : process ∈ stored) : processKey mem process = jobKey mem process := by
  rw [processKey, tracks.whole process (tracks.stored_added member)]
  rfl

/-- The least of all those that were added and not yet dispatched becomes
active. -/
def Dispatches (mem : Memory) (now later : Ledger) : Prop :=
  ∃ process, later.sjf.activeProcess = some process ∧
    later.dispatched = now.dispatched ++ [process] ∧
    process ∈ later.added ∧ process ∉ now.dispatched ∧
    ∀ other ∈ later.added, other ∉ now.dispatched → jobKey mem process ≤ jobKey mem other

theorem switch_active (mem : Memory) {process : ProcessPtr}
    (active : now.sjf.activeProcess = some process) :
    contextSwitch mem now.sjf = .ok (now.sjf, []) ∧ now.switch (now.sjf, []) = now := by
  refine ⟨contextSwitch_keeps mem active, ?_⟩
  simp only [Ledger.switch, active, reduceCtorEq, if_false, List.append_nil]

theorem switch_idle (tracks : Tracks mem numProcess now stored)
    (idle : now.sjf.activeProcess = none) (fed : ¬ NothingToRun now.sjf) :
    ∃ switched stored', contextSwitch mem now.sjf = .ok switched ∧
      Tracks mem numProcess (now.switch switched) stored' ∧
      Dispatches mem now (now.switch switched) := by
  have nonempty : stored ≠ 0 := fun isEmpty =>
    fed ⟨idle, (heapEmpty_iff tracks.stores).mpr isEmpty⟩
  obtain ⟨top, heap, switching, member, stores, sameLength, least⟩ :=
    contextSwitch_takes tracks.stores nonempty idle
  have added := tracks.stored_added member
  have accounted := tracks.accounted
  have dispatched := tracks.dispatched
  rw [idle] at accounted dispatched
  refine ⟨_, stored.erase top, switching, ?_, top, rfl, ?_, added,
    (tracks.waiting_iff added).mpr member, ?_⟩
  · exact
      { stores := stores
        capacity := sameLength.trans tracks.capacity
        fits := tracks.fits
        pids := tracks.pids
        whole := tracks.whole
        accounted := by
          change (now.added : Multiset ProcessPtr) = now.removed + ([top] : List ProcessPtr) + _
          rw [accounted, Option.toList_none, Multiset.coe_nil, Multiset.add_zero,
            Multiset.coe_singleton, Multiset.add_assoc, Multiset.singleton_add,
            Multiset.cons_erase member]
        dispatched := by
          simp only [Ledger.switch, idle, if_true, dispatched, Option.toList_none,
            List.append_nil]
        resumed := by
          simp only [Ledger.switch, idle, if_true, Option.toList_some, List.map_append,
            tracks.resumed, List.map_cons, List.map_nil] }
  · simp only [Ledger.switch, idle, if_true, Option.toList_some]
  · intro other isAdded waiting
    have isStored := (tracks.waiting_iff isAdded).mp waiting
    rw [← tracks.key_eq member, ← tracks.key_eq isStored]
    exact least other isStored

theorem jobStep_eq {event : JobEvent} {handled : State} {switched : State × List PriorityCall}
    (handling : handleJob mem now.sjf event = .ok handled)
    (switching : contextSwitch mem handled = .ok switched) :
    jobStep mem now event = .ok ((now.record event handled).switch switched) := by
  rw [jobStep, handling, ok_bind, switching]
  rfl

/-- An arrival changes the active process only if there is none, and a
termination always does. -/
theorem jobStep_tracks (tracks : Tracks mem numProcess now stored) {event : JobEvent}
    (allowed : (jobMachine mem numProcess).enabled now event) :
    ∃ later stored', jobStep mem now event = .ok later ∧ Tracks mem numProcess later stored' ∧
      (Dispatches mem now later ∨ event ≠ .finish ∧ now.sjf.activeProcess ≠ none ∧
        later.sjf.activeProcess = now.sjf.activeProcess ∧ later.dispatched = now.dispatched) := by
  have fed := allowed.2
  cases event with
  | arrive group =>
      obtain ⟨handled, handling, between, sameActive⟩ := arrive_tracks tracks allowed
      rw [handling] at fed
      cases active : now.sjf.activeProcess with
      | some process =>
          have stillActive : (now.record (.arrive group) handled).sjf.activeProcess =
              some process := sameActive.trans active
          obtain ⟨switching, same⟩ := switch_active mem stillActive
          refine ⟨_, _, jobStep_eq handling switching, by rw [same]; exact between, Or.inr ?_⟩
          rw [same]
          exact ⟨by simp, by simp, stillActive, rfl⟩
      | none =>
          obtain ⟨switched, stored', switching, tracks', dispatches⟩ :=
            switch_idle between (sameActive.trans active) fed
          exact ⟨_, stored', jobStep_eq handling switching, tracks', Or.inl dispatches⟩
  | finish =>
      obtain ⟨switched, stored', switching, tracks', dispatches⟩ :=
        switch_idle (finish_tracks tracks) rfl fed
      exact ⟨_, stored', jobStep_eq rfl switching, tracks', Or.inl dispatches⟩

/-! ### Runs -/

theorem addGroup_active {later : State} (group : List ProcessPtr)
    (added : addGroup mem s group = .ok later) : later.activeProcess = s.activeProcess := by
  induction group generalizing s with
  | nil =>
      cases Except.ok.inj added
      rfl
  | cons process rest ih =>
      obtain ⟨between, adding, added⟩ := bind_eq_ok added
      obtain ⟨heap, _, adding⟩ := bind_eq_ok adding
      cases Except.ok.inj adding
      have kept := ih added
      exact kept

/-- Arrivals do not preempt. -/
theorem jobStep_stays {process : ProcessPtr} {group : List ProcessPtr}
    (active : now.sjf.activeProcess = some process)
    (stepped : jobStep mem now (.arrive group) = .ok later) :
    later.sjf.activeProcess = some process := by
  obtain ⟨handled, handling, stepped⟩ := bind_eq_ok stepped
  obtain ⟨switched, switching, stepped⟩ := bind_eq_ok stepped
  have stillActive := (addGroup_active group handling).trans active
  simp only [contextSwitch, stillActive] at switching
  cases Except.ok.inj switching
  cases Except.ok.inj stepped
  exact stillActive

theorem run_stays {process : ProcessPtr} (active : now.sjf.activeProcess = some process)
    {more : List JobEvent} (run : (jobMachine mem numProcess).Run now more later)
    (unfinished : .finish ∉ more) : later.sjf.activeProcess = some process := by
  apply run.history_invariant (fun more later =>
    .finish ∉ more → later.sjf.activeProcess = some process) (fun _ => active) _ unfinished
  intro history now event later holds _ stepped unfinished
  rw [List.mem_append, not_or] at unfinished
  cases event with
  | arrive group => exact jobStep_stays (holds unfinished.1) stepped
  | finish => exact absurd (List.mem_singleton_self _) unfinished.2

/-- Non-preemptive shortest job first, seen from one reachable state. -/
structure ShortestJobFirst (mem : Memory) (numProcess : Nat) (now : Ledger) : Prop where
  distinct : now.added.Nodup
  partition : ∃ stored, now.sjf.inactiveHeap.Stores mem stored ∧
    (now.added : Multiset ProcessPtr) = now.removed + now.sjf.activeProcess.toList + stored
  /-- Processes are removed in the order in which they were dispatched. -/
  inTurn : now.dispatched = now.removed ++ now.sjf.activeProcess.toList
  resumedOnce : ∀ process ∈ now.added, now.calls.count (.resume (mem process).pid) ≤ 1
  next : ∀ event, (jobMachine mem numProcess).enabled now event →
    ∃ later, (jobMachine mem numProcess).step now event = .ok later ∧
      (Dispatches mem now later ∨ event ≠ .finish ∧ now.sjf.activeProcess ≠ none ∧
        later.sjf.activeProcess = now.sjf.activeProcess ∧ later.dispatched = now.dispatched)
  stays : ∀ process, now.sjf.activeProcess = some process →
    ∀ more later, (jobMachine mem numProcess).Run now more later → .finish ∉ more →
      later.sjf.activeProcess = some process

theorem sjf_shortest_job_first (mem : Memory) (garbage : Nat → Option ProcessPtr)
    (numProcess : Nat) {history : List JobEvent}
    (run : (jobMachine mem numProcess).Run (opening garbage numProcess) history now) :
    ShortestJobFirst mem numProcess now := by
  obtain ⟨stored, tracks⟩ : ∃ stored, Tracks mem numProcess now stored := by
    apply run.holds_of_progress fun now => ∃ stored, Tracks mem numProcess now stored
    · exact ⟨0, opening_tracks mem garbage numProcess⟩
    · rintro now event ⟨stored, tracks⟩ allowed
      obtain ⟨later, stored', stepped, tracks', _⟩ := jobStep_tracks tracks allowed
      exact ⟨later, stepped, stored', tracks'⟩
  exact
    { distinct := tracks.distinct
      partition := ⟨stored, tracks.stores, tracks.accounted⟩
      inTurn := tracks.dispatched
      resumedOnce := fun process _ => List.nodup_iff_count_le_one.mp tracks.calls_nodup _
      next := by
        intro event allowed
        obtain ⟨later, _, stepped, _, outcome⟩ := jobStep_tracks tracks allowed
        exact ⟨later, stepped, outcome⟩
      stays := fun process active more later continued => run_stays active continued }

/-- Four jobs of 9, 3, 6 and 3 units. -/
def mixedMemory : Memory := fun process =>
  let units : Int := if process = 0 then 9 else if process = 2 then 6 else 3
  { arrivalTime := 0, timeNeeded := units, remainingTime := units, pid := 10 + process }

/-- The long job is alone first and runs to its end.  Of the two shortest the
one with the smaller pid follows. -/
theorem sjf_shortest_job_first_mixed :
    ∃ now, (jobMachine mixedMemory 4).Run (opening (fun _ => none) 4)
        [.arrive [0], .arrive [2, 3, 1], .finish, .finish] now ∧
      now.dispatched = [0, 1, 3] ∧ ShortestJobFirst mixedMemory 4 now := by
  obtain ⟨now, run, dispatched⟩ : ∃ now,
      (jobMachine mixedMemory 4).Run (opening (fun _ => none) 4)
        [.arrive [0], .arrive [2, 3, 1], .finish, .finish] now ∧ now.dispatched = [0, 1, 3] :=
    Machine.run_of_replay_map _ Ledger.dispatched rfl
  exact ⟨now, run, dispatched, sjf_shortest_job_first mixedMemory (fun _ => none) 4 run⟩

/-! ### A batch -/

/-- The loop of main after the last arrival: the active process is removed, and
unless nothing is left the next one is switched to.  Returns the processes in
the order in which they were active. -/
def runJobs (mem : Memory) : Nat → State → Result (List ProcessPtr)
  | 0, _ => .error .outOfFuel
  | fuel + 1, s => do
      let ended := removeCurrentProcess s
      if schedulerEmpty ended then return s.activeProcess.toList
      let switched ← contextSwitch mem ended
      let order ← runJobs mem fuel switched.1
      return s.activeProcess.toList ++ order

/-- All processes are added before the first switch. -/
def runBatch (mem : Memory) (garbage : Nat → Option ProcessPtr) (processes : List ProcessPtr) :
    Result (List ProcessPtr) := do
  let s ← addGroup mem (setStrategy garbage processes.length) processes
  let switched ← contextSwitch mem s
  runJobs mem processes.length switched.1

theorem runJobs_sorted (fuel : Nat) {active : ProcessPtr} (enough : stored.card < fuel)
    (stores : s.inactiveHeap.Stores mem stored) (isActive : s.activeProcess = some active)
    (least : ∀ other ∈ stored, processKey mem active ≤ processKey mem other) :
    ∃ order, runJobs mem fuel s = .ok order ∧ (order : Multiset ProcessPtr) = active ::ₘ stored ∧
      order.Pairwise fun first second => processKey mem first ≤ processKey mem second := by
  induction fuel generalizing s stored active with
  | zero => exact absurd enough (Nat.not_lt_zero _)
  | succ fuel ih =>
      let ended := removeCurrentProcess s
      have endedStores : ended.inactiveHeap.Stores mem stored := stores
      rw [runJobs, isActive]
      by_cases isEmpty : stored = 0
      · rw [if_pos ((schedulerEmpty_iff endedStores).mpr ⟨isEmpty, rfl⟩)]
        refine ⟨[active], rfl, ?_, List.pairwise_singleton _ _⟩
        rw [isEmpty]
        rfl
      · obtain ⟨top, heap, switching, member, rest, _, topLeast⟩ :=
          contextSwitch_takes endedStores isEmpty rfl
        have fewer : (stored.erase top).card < fuel := by
          have shrunk := Multiset.card_erase_lt_of_mem member
          omega
        obtain ⟨order, ran, contents, sorted⟩ :=
          ih (s := { inactiveHeap := heap, activeProcess := some top }) fewer rest rfl
            fun other inRest => topLeast other (Multiset.mem_of_mem_erase inRest)
        rw [Multiset.cons_erase member] at contents
        have notEmpty : ¬ schedulerEmpty ended = true := fun empty =>
          isEmpty ((schedulerEmpty_iff endedStores).mp empty).1
        refine ⟨active :: order, ?_, ?_, ?_⟩
        · rw [if_neg notEmpty, switching, ok_bind, ran]
          rfl
        · rw [← Multiset.cons_coe, contents]
        · refine List.pairwise_cons.mpr ⟨?_, sorted⟩
          intro other inOrder
          apply least other
          rw [← contents]
          exact Multiset.mem_coe.mpr inOrder

/-- SJF runs a batch in an order of least total completion time. -/
theorem batch_minimises_completion (mem : Memory) (garbage : Nat → Option ProcessPtr)
    (processes : List ProcessPtr) (nonempty : processes ≠ [])
    (whole : ∀ process ∈ processes, (mem process).remainingTime = (mem process).timeNeeded) :
    ∃ order, runBatch mem garbage processes = .ok order ∧ order.Perm processes ∧
      ∀ other : List ProcessPtr, other.Perm processes →
        totalCompletion (fun process => (mem process).timeNeeded) 0 order ≤
          totalCompletion (fun process => (mem process).timeNeeded) 0 other := by
  obtain ⟨heap, adding, stores, _⟩ := addGroup_stores
    (s := setStrategy garbage processes.length) (heapInit_stores mem garbage processes.length)
    processes (by rw [Multiset.card_zero, Nat.zero_add]; exact (malloc_length _ _).ge)
  rw [Multiset.zero_add] at stores
  have some_stored : (processes : Multiset ProcessPtr) ≠ 0 := by
    intro isEmpty
    exact nonempty (Multiset.coe_eq_zero _ |>.mp isEmpty)
  obtain ⟨top, rest, switching, member, restStores, _, least⟩ :=
    contextSwitch_takes (s := { inactiveHeap := heap, activeProcess := none }) stores
      some_stored rfl
  have enough : ((processes : Multiset ProcessPtr).erase top).card < processes.length :=
    Multiset.card_erase_lt_of_mem member
  obtain ⟨order, ran, contents, sorted⟩ :=
    runJobs_sorted (s := { inactiveHeap := rest, activeProcess := some top }) processes.length
      enough restStores rfl fun other inRest => least other (Multiset.mem_of_mem_erase inRest)
  rw [Multiset.cons_erase member] at contents
  have isPerm : order.Perm processes := Multiset.coe_eq_coe.mp contents
  refine ⟨order, ?_, isPerm, ?_⟩
  · rw [runBatch, adding, ok_bind]
    change (contextSwitch mem { inactiveHeap := heap, activeProcess := none } >>= _) = _
    rw [switching]
    exact ran
  · intro other otherPerm
    refine totalCompletion_le_of_sorted ?_ (otherPerm.trans isPerm.symm)
    apply sorted.imp_of_mem
    intro first second firstIn secondIn ordered
    rw [← whole first (isPerm.mem_iff.mp firstIn), ← whole second (isPerm.mem_iff.mp secondIn)]
    rcases (processKey_le_iff mem mem first second).mp ordered with less | ⟨same, _⟩
    · exact Int.le_of_lt less
    · exact Int.le_of_eq same

theorem batch_minimises_completion_mixed :
    ∃ order, runBatch mixedMemory (fun _ => none) [0, 1, 2, 3] = .ok order ∧
      order = [1, 3, 2, 0] ∧
      ∀ other : List ProcessPtr, other.Perm [0, 1, 2, 3] →
        totalCompletion (fun process => (mixedMemory process).timeNeeded) 0 order ≤
          totalCompletion (fun process => (mixedMemory process).timeNeeded) 0 other := by
  obtain ⟨order, ran, _, minimal⟩ :=
    batch_minimises_completion mixedMemory (fun _ => none) [0, 1, 2, 3] (by decide) (by decide)
  have isOrder : runBatch mixedMemory (fun _ => none) [0, 1, 2, 3] = .ok [1, 3, 2, 0] := rfl
  exact ⟨order, ran, Except.ok.inj (ran.symm.trans isOrder), minimal⟩

end UserScheduler.SJF
