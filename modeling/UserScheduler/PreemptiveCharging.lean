/-
The functions of PSJF.c on the set of stored processes.

PSJF charges its running process in place, at the top of the heap, and only when
another process arrives.  Each lemma says what one function returns in a state
where the top of the heap is active.
-/

import UserScheduler.HeapRefinement
import UserScheduler.JobSchedulers

namespace UserScheduler

open Machines

/-- The running process keeps its place when it is charged. -/
theorem Heap.Stores.lower_top {mem lowered : Memory} {h : Heap} {stored : Multiset ProcessPtr}
    {top : ProcessPtr} (stores : h.Stores mem stored) (distinct : stored.Nodup)
    (atTop : heapTop h = .ok (some top))
    (root : processKey lowered top ≤ processKey mem top)
    (others : ∀ process ∈ stored, process ≠ top →
      processKey lowered process = processKey mem process) :
    h.Stores lowered stored := by
  obtain ⟨cells, sizeEq, holds, ordered, contents⟩ := stores
  refine ⟨cells, sizeEq, holds, ?_, contents⟩
  rcases Nat.eq_zero_or_pos stored.card with isEmpty | positive
  · intro index _ impossible
    omega
  · have isTop : cells 0 = top := heapTop_holds holds positive atTop
    have distinctCells : (BinaryHeap.bag cells stored.card).Nodup := by
      rw [contents]
      exact distinct
    apply ordered.lower_root
    · rw [isTop]
      exact root
    · intro index indexPositive inRange
      apply others
      · rw [← contents]
        exact BinaryHeap.mem_bag.mpr ⟨index, inRange, rfl⟩
      · intro same
        have sameIndex := Multiset.inj_on_of_nodup_map distinctCells index
          (Multiset.mem_range.mpr inRange) 0 (Multiset.mem_range.mpr positive)
          (same.trans isTop.symm)
        omega

namespace PSJF

/-! ### The three functions -/

/-- The heap holds `stored` and its top is the active process. -/
structure Running (mem : Memory) (s : State) (stored : Multiset ProcessPtr)
    (active : ProcessPtr) : Prop where
  stores : s.pq.Stores mem stored
  member : active ∈ stored
  isActive : s.activeProcess = some active
  atTop : heapTop s.pq = .ok (some active)

/-- The process table after the active process was charged up to `time`. -/
def charged (mem : Memory) (s : State) (active : ProcessPtr) (time : Int) : Memory :=
  mem.modify active fun info =>
    { info with remainingTime := info.remainingTime - (time - s.lastContextSwitchTime) }

variable {mem : Memory} {s : State} {stored : Multiset ProcessPtr} {active : ProcessPtr}

theorem charged_active (time : Int) : charged mem s active time active = { mem active with
    remainingTime := (mem active).remainingTime - (time - s.lastContextSwitchTime) } :=
  Memory.modify_same mem active _

theorem charged_other (time : Int) {other : ProcessPtr} (different : other ≠ active) :
    charged mem s active time other = mem other :=
  Memory.modify_other mem _ different

theorem Running.nonempty (running : Running mem s stored active) : stored ≠ 0 := by
  rintro rfl
  exact Multiset.notMem_zero active running.member

theorem Running.least (running : Running mem s stored active) :
    ∀ other ∈ stored, processKey mem active ≤ processKey mem other := by
  obtain ⟨top, _, atTop, least⟩ := heapTop_stores running.stores running.nonempty
  have isActive : top = active :=
    Option.some.inj (Except.ok.inj (atTop.symm.trans running.atTop))
  rw [← isActive]
  exact least

/-- A process alone in the heap runs. -/
theorem running_alone (mem : Memory) (process : ProcessPtr) (rest : Buffer) (time : Int) :
    Running mem
      { pq := { pq := some process :: rest, heapSize := 1 }
        activeProcess := some process
        lastContextSwitchTime := time
        currentTime := time } {process} process where
  stores := by
    refine ⟨fun _ => process, rfl, ?_, ?_, rfl⟩
    · intro index inRange
      rw [Nat.lt_one_iff.mp inRange]
      rfl
    · intro index positive inRange
      have isZero : index = 0 := Nat.lt_one_iff.mp inRange
      omega
  member := Multiset.mem_singleton_self process
  isActive := rfl
  atTop := rfl

theorem addProcess_spec (running : Running mem s stored active) (distinct : stored.Nodup)
    {process : ProcessPtr} (room : stored.card < s.pq.pq.length)
    (forward : s.lastContextSwitchTime ≤ (mem process).arrivalTime) :
    ∃ pq, addProcess mem s process = .ok (charged mem s active (mem process).arrivalTime,
        { s with pq := pq, currentTime := (mem process).arrivalTime }) ∧
      pq.Stores (charged mem s active (mem process).arrivalTime) (process ::ₘ stored) ∧
      pq.pq.length = s.pq.pq.length ∧
      heapTop pq = .ok (some
        (if processKey (charged mem s active (mem process).arrivalTime) process <
          processKey (charged mem s active (mem process).arrivalTime) active
        then process else active)) := by
  let table := charged mem s active (mem process).arrivalTime
  have atActive : table active = { mem active with remainingTime := (mem active).remainingTime -
      ((mem process).arrivalTime - s.lastContextSwitchTime) } := charged_active _
  have elsewhere : ∀ other, other ≠ active → table other = mem other := fun _ different =>
    charged_other _ different
  have lowered : s.pq.Stores table stored := by
    apply running.stores.lower_top distinct running.atTop
    · rw [processKey_le_iff, atActive]
      rcases Int.lt_or_eq_of_le forward with passed | instant
      · left
        change (mem active).remainingTime - _ < (mem active).remainingTime
        omega
      · right
        constructor
        · change (mem active).remainingTime - _ = (mem active).remainingTime
          omega
        · exact Int.le_refl _
    · intro other _ different
      unfold processKey
      rw [elsewhere other different]
  obtain ⟨pq, inserted, sameLength, stores⟩ := heapInsert_stores lowered room process
  refine ⟨pq, ?_, stores, sameLength,
    heapInsert_top lowered room inserted running.nonempty running.atTop⟩
  simp only [addProcess, running.atTop, running.isActive, assertTrue, decide_true, if_true,
    ok_bind, charge, pure_eq_ok]
  change (heapInsert table s.pq process >>= _) = _
  rw [inserted]
  rfl

/-- What a successful call did, whatever the heap looked like. -/
theorem addProcess_inv (isActive : s.activeProcess = some active) {process : ProcessPtr}
    {table : Memory} {later : State} (added : addProcess mem s process = .ok (table, later)) :
    table = charged mem s active (mem process).arrivalTime ∧ later.activeProcess = some active ∧
      later.lastContextSwitchTime = s.lastContextSwitchTime ∧
      later.currentTime = (mem process).arrivalTime := by
  unfold addProcess at added
  obtain ⟨top, _, added⟩ := bind_eq_ok added
  obtain ⟨_, _, added⟩ := bind_eq_ok added
  rw [isActive] at added
  obtain ⟨lowered, charging, added⟩ := bind_eq_ok added
  obtain ⟨pq, _, added⟩ := bind_eq_ok added
  cases Except.ok.inj added
  cases Except.ok.inj charging
  exact ⟨rfl, rfl, rfl, rfl⟩

/-- The assertion stops an addition while another process is on top. -/
theorem addProcess_asserts (isActive : s.activeProcess = some active) {top : ProcessPtr}
    (atTop : heapTop s.pq = .ok (some top)) (different : active ≠ top) (process : ProcessPtr) :
    addProcess mem s process = .error .assertionFailed := by
  have notTop : s.activeProcess ≠ some top := by
    rw [isActive]
    exact fun same => different (Option.some.inj same)
  rw [addProcess, atTop, ok_bind, decide_eq_false notTop]
  rfl

theorem removeCurrentProcess_spec (running : Running mem s stored active) :
    ∃ pq, removeCurrentProcess mem s = .ok { s with
        pq := pq
        activeProcess := none
        currentTime := s.currentTime + (mem active).remainingTime } ∧
      pq.Stores mem (stored.erase active) ∧ pq.pq.length = s.pq.pq.length := by
  obtain ⟨pq, popped, sameLength, stores⟩ :=
    heapPop_stores running.stores running.nonempty running.atTop
  refine ⟨pq, ?_, stores, sameLength⟩
  simp only [removeCurrentProcess, running.atTop, running.isActive, assertTrue, decide_true,
    if_true, ok_bind, load_some, popped, pure_eq_ok]

/-- After a switch the top of the heap runs, if there is one. -/
theorem contextSwitch_spec (stores : s.pq.Stores mem stored) :
    ∃ later made, contextSwitch mem s = .ok (later, made) ∧ later.pq = s.pq ∧
      later.currentTime = s.currentTime ∧ later.lastContextSwitchTime = s.currentTime ∧
      (stored = 0 → later.activeProcess = s.activeProcess) ∧
      (stored ≠ 0 → ∃ active, Running mem later stored active) := by
  by_cases isEmpty : stored = 0
  · have empty : heapEmpty s.pq = true := (heapEmpty_iff stores).mpr isEmpty
    refine ⟨{ s with lastContextSwitchTime := s.currentTime }, [], ?_, rfl, rfl, rfl,
      fun _ => rfl, fun nonempty => absurd isEmpty nonempty⟩
    simp only [contextSwitch, empty, if_true]
    rfl
  · have notEmpty : ¬ heapEmpty s.pq = true := fun empty =>
      isEmpty ((heapEmpty_iff stores).mp empty)
    obtain ⟨top, member, atTop, _⟩ := heapTop_stores stores isEmpty
    by_cases unchanged : s.activeProcess = some top
    · refine ⟨{ s with lastContextSwitchTime := s.currentTime }, [], ?_, rfl, rfl, rfl,
        fun _ => rfl, fun _ => ⟨top, stores, member, unchanged, atTop⟩⟩
      simp only [contextSwitch, if_neg notEmpty, atTop, ok_bind, if_pos unchanged]
      rfl
    · refine ⟨{ s with activeProcess := some top, lastContextSwitchTime := s.currentTime },
        s.activeProcess.toList.map (fun process => .suspend (mem process).pid) ++
          [.resume (mem top).pid], ?_, rfl, rfl, rfl, fun impossible => absurd impossible isEmpty,
        fun _ => ⟨top, stores, member, rfl, atTop⟩⟩
      simp only [contextSwitch, if_neg notEmpty, atTop, ok_bind, if_neg unchanged, load_some]
      rfl

theorem contextSwitch_currentTime {later : State} {made : List PriorityCall}
    (switched : contextSwitch mem s = .ok (later, made)) : later.currentTime = s.currentTime := by
  unfold contextSwitch at switched
  split at switched
  · cases Except.ok.inj switched
    rfl
  · obtain ⟨top, _, switched⟩ := bind_eq_ok switched
    split at switched
    · cases Except.ok.inj switched
      rfl
    · obtain ⟨process, _, switched⟩ := bind_eq_ok switched
      cases Except.ok.inj switched
      rfl

/-- While a process runs, the switch is made exactly if another one is on top. -/
theorem contextSwitch_active (stores : s.pq.Stores mem stored) (nonempty : stored ≠ 0)
    (isActive : s.activeProcess = some active) {top : ProcessPtr}
    (atTop : heapTop s.pq = .ok (some top)) :
    contextSwitch mem s = .ok
      ({ s with activeProcess := some top, lastContextSwitchTime := s.currentTime },
        if active = top then [] else [.suspend (mem active).pid, .resume (mem top).pid]) := by
  have notEmpty : ¬ heapEmpty s.pq = true := fun empty =>
    nonempty ((heapEmpty_iff stores).mp empty)
  rw [contextSwitch, if_neg notEmpty, atTop, ok_bind, isActive]
  by_cases unchanged : active = top
  · rw [if_pos (congrArg some unchanged), if_pos unchanged, ← unchanged, ← isActive]
    rfl
  · rw [if_neg (fun same => unchanged (Option.some.inj same)), if_neg unchanged]
    rfl

end PSJF

end UserScheduler
