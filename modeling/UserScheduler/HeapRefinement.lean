/-
The process heap refines a priority queue.

`Buffer.Holds` ties a buffer of pointer cells to the cell function of the
generic binary heap, and each C function is shown to compute the generic
operation without leaving the buffer.  `Heap.Stores` then forgets the layout:
what a scheduler may rely on is a multiset of processes with a top of least
`(remaining_time, pid)`.
-/

import Mathlib.Data.Prod.Lex
import UserScheduler.Heap
import UserScheduler.Lib.BinaryHeap

namespace UserScheduler

open BinaryHeap (swap bag Ordered siftUp siftDown lesser leastIndex)
open Machines

/-- The heap compares `remaining_time` first and breaks ties by pid. -/
def processKey (mem : Memory) (process : ProcessPtr) : Int ×ₗ Int :=
  toLex ((mem process).remainingTime, (mem process).pid)

theorem processKey_lt_iff (mem : Memory) (lhs rhs : ProcessPtr) :
    processKey mem lhs < processKey mem rhs ↔
      (mem lhs).remainingTime < (mem rhs).remainingTime ∨
        (mem lhs).remainingTime = (mem rhs).remainingTime ∧ (mem lhs).pid < (mem rhs).pid :=
  Prod.Lex.toLex_lt_toLex

theorem processKey_le_iff (mem other : Memory) (lhs rhs : ProcessPtr) :
    processKey mem lhs ≤ processKey other rhs ↔
      (mem lhs).remainingTime < (other rhs).remainingTime ∨
        (mem lhs).remainingTime = (other rhs).remainingTime ∧ (mem lhs).pid ≤ (other rhs).pid :=
  Prod.Lex.toLex_le_toLex

/-! ### Cells -/

/-- The first `size` cells are valid pointers, given by `cells`. -/
def Buffer.Holds (buffer : Buffer) (cells : Nat → ProcessPtr) (size : Nat) : Prop :=
  ∀ index, index < size → buffer[index]? = some (some (cells index))

variable {mem : Memory} {buffer : Buffer} {h : Heap} {cells : Nat → ProcessPtr} {size : Nat}

theorem Buffer.Holds.read (holds : buffer.Holds cells size) {index : Nat}
    (inRange : index < size) : buffer.read index = .ok (some (cells index)) :=
  buffer.read_eq index _ (holds index inRange)

theorem Buffer.Holds.lt_length (holds : buffer.Holds cells size) {index : Nat}
    (inRange : index < size) : index < buffer.length := by
  by_contra beyond
  have found := holds index inRange
  rw [List.getElem?_eq_none (Nat.le_of_not_lt beyond)] at found
  cases found

theorem Buffer.Holds.mono (holds : buffer.Holds cells size) {fewer : Nat}
    (bound : fewer ≤ size) : buffer.Holds cells fewer :=
  fun index inRange => holds index (by omega)

theorem Buffer.Holds.take (holds : buffer.Holds cells size) :
    buffer.take size = (List.range size).map (fun index => some (cells index)) := by
  apply List.ext_getElem?
  intro index
  rw [List.getElem?_take, List.getElem?_map]
  by_cases inRange : index < size
  · rw [if_pos inRange, holds index inRange, List.getElem?_range inRange]
    rfl
  · rw [if_neg inRange, List.getElem?_eq_none (by simpa using Nat.le_of_not_lt inRange)]
    rfl

theorem Buffer.Holds.contents (holds : buffer.Holds cells size) :
    (buffer.take size : Multiset (Option ProcessPtr)) = (bag cells size).map some := by
  rw [holds.take, ← Multiset.map_coe, bag, Multiset.map_map]
  rfl

theorem Buffer.exists_holds (buffer : Buffer) {size : Nat} (fits : size ≤ buffer.length)
    (pointers : none ∉ buffer.take size) : ∃ cells, buffer.Holds cells size := by
  refine ⟨fun index => (buffer[index]?.join).getD 0, ?_⟩
  intro index inRange
  have found : buffer[index]? = some buffer[index] := List.getElem?_eq_getElem (by omega)
  have member : buffer[index] ∈ buffer.take size :=
    List.mem_take_iff_getElem.mpr ⟨index, by omega, rfl⟩
  cases isCell : buffer[index] with
  | none =>
      rw [isCell] at member
      exact absurd member pointers
  | some process =>
      rw [isCell] at found
      simp only [found, Option.join_some, Option.getD_some]

theorem heapElementLt_eq (holds : h.pq.Holds cells size) {lhs rhs : Nat}
    (lhsLt : lhs < size) (rhsLt : rhs < size) :
    heapElementLt mem h lhs rhs =
      .ok (decide (processKey mem (cells lhs) < processKey mem (cells rhs))) := by
  simp only [heapElementLt, holds.read lhsLt, holds.read rhsLt, ok_bind, load_some,
    pure_eq_ok, processKey_lt_iff]
  by_cases same : (mem (cells lhs)).remainingTime = (mem (cells rhs)).remainingTime
  · simp only [same, if_true, lt_irrefl, true_and, false_or]
  · simp only [same, if_false, false_and, or_false]

theorem heapSwap_eq (h : Heap) (holds : h.pq.Holds cells size) {lhs rhs : Nat}
    (lhsLt : lhs < size) (rhsLt : rhs < size) :
    ∃ pq, heapSwap h lhs rhs = .ok { h with pq := pq } ∧ pq.length = h.pq.length ∧
      pq.Holds (swap cells lhs rhs) size := by
  refine ⟨(h.pq.set lhs (some (cells rhs))).set rhs (some (cells lhs)), ?_, ?_, ?_⟩
  · have lhsIn := holds.lt_length lhsLt
    have rhsIn : rhs < (h.pq.set lhs (some (cells rhs))).length := by
      rw [List.length_set]
      exact holds.lt_length rhsLt
    simp only [heapSwap, holds.read lhsLt, holds.read rhsLt, ok_bind,
      Buffer.write_eq _ _ _ lhsIn, Buffer.write_eq _ _ _ rhsIn, pure_eq_ok]
  · rw [List.length_set, List.length_set]
  · intro index inRange
    have indexIn := holds.lt_length inRange
    rw [List.getElem?_set, List.getElem?_set, List.length_set]
    by_cases isRhs : rhs = index
    · subst index
      rw [if_pos rfl, if_pos indexIn, BinaryHeap.swap_right]
    · rw [if_neg isRhs]
      by_cases isLhs : lhs = index
      · subst index
        rw [if_pos rfl, if_pos indexIn, BinaryHeap.swap_left]
      · rw [if_neg isLhs, BinaryHeap.swap_other _ (Ne.symm isLhs) (Ne.symm isRhs)]
        exact holds index inRange

/-! ### The loops -/

theorem parent_natCast (index : Nat) :
    ((index : Int) - 1).tdiv 2 = (BinaryHeap.parent index : Nat) := by
  unfold BinaryHeap.parent
  cases index with
  | zero => rfl
  | succ index =>
      rw [Int.natCast_succ, Int.add_sub_cancel, Nat.add_sub_cancel]
      rfl

theorem upheapLoop_eq (mem : Memory) (fuel : Nat) (h : Heap) (cells : Nat → ProcessPtr)
    (index : Nat) (enough : index < fuel) (holds : h.pq.Holds cells size) (inRange : index < size) :
    ∃ pq, upheapLoop mem fuel h index = .ok { h with pq := pq } ∧
      pq.length = h.pq.length ∧ pq.Holds (siftUp (processKey mem) cells index) size := by
  induction fuel generalizing h cells index with
  | zero => omega
  | succ fuel ih =>
      simp only [upheapLoop, parent_natCast]
      by_cases positive : 0 < index
      · have before := BinaryHeap.parent_lt positive
        have parentLt : BinaryHeap.parent index < size := by omega
        simp only [Int.natCast_pos.mpr positive, if_true, heapElementLt_eq holds inRange parentLt,
          ok_bind, decide_eq_true_eq]
        by_cases smaller : processKey mem (cells index) <
            processKey mem (cells (BinaryHeap.parent index))
        · obtain ⟨pq, swapped, sameLength, swappedHolds⟩ :=
            heapSwap_eq h holds parentLt inRange
          obtain ⟨result, ended, resultLength, resultHolds⟩ :=
            ih { h with pq := pq } _ _ (by omega) swappedHolds parentLt
          rw [if_pos smaller, swapped, ok_bind, BinaryHeap.siftUp_step positive smaller]
          exact ⟨result, ended, resultLength.trans sameLength, resultHolds⟩
        · rw [if_neg smaller, BinaryHeap.siftUp_stop (fun _ => smaller)]
          exact ⟨h.pq, rfl, rfl, holds⟩
      · have notPositive : ¬ (0 : Int) < (index : Int) := by omega
        rw [if_neg notPositive,
          BinaryHeap.siftUp_stop (fun isPositive => absurd isPositive positive)]
        exact ⟨h.pq, rfl, rfl, holds⟩

theorem lesser_natCast (cells : Nat → ProcessPtr) (first second : Nat) :
    (if processKey mem (cells second) < processKey mem (cells first) then
      (second : Int) else (first : Int)) =
      (lesser (processKey mem) cells first second : Nat) := by
  unfold lesser
  split <;> rfl

theorem downheapMin_eq (holds : h.pq.Holds cells size) (sizeEq : h.heapSize = size)
    {index : Nat} (hasChild : 2 * index + 1 < size) :
    downheapMin mem h index =
      .ok (leastIndex (processKey mem) cells size index : Nat) := by
  have left : lchild (index : Int) = ((2 * index + 1 : Nat) : Int) := by
    unfold lchild
    omega
  have right : rchild (index : Int) = ((2 * index + 2 : Nat) : Int) := by
    unfold rchild
    omega
  simp only [downheapMin, left, right, heapElementLt_eq holds hasChild (by omega : index < size),
    ok_bind, decide_eq_true_eq, lesser_natCast, sizeEq, Int.ofNat_lt, pure_eq_ok]
  unfold leastIndex
  by_cases hasRight : 2 * index + 2 < size
  · have firstLt : lesser (processKey mem) cells index (2 * index + 1) < size := by
      rcases BinaryHeap.lesser_cases (processKey mem) cells index (2 * index + 1) with
        same | ⟨same, _⟩ <;> omega
    rw [if_pos hasRight, if_pos hasRight, heapElementLt_eq holds hasRight firstLt]
    simp only [ok_bind, decide_eq_true_eq, lesser_natCast]
  · rw [if_neg hasRight, if_neg hasRight]

theorem downheapLoop_eq (mem : Memory) (fuel : Nat) (h : Heap) (cells : Nat → ProcessPtr)
    (index : Nat) (enough : size < fuel + index) (holds : h.pq.Holds cells size)
    (sizeEq : h.heapSize = size) (positiveFuel : 0 < fuel) :
    ∃ pq, downheapLoop mem fuel h index = .ok { h with pq := pq } ∧
      pq.length = h.pq.length ∧ pq.Holds (siftDown (processKey mem) cells size index) size := by
  induction fuel generalizing h cells index with
  | zero => omega
  | succ fuel ih =>
      have childTest : (lchild (index : Int) < h.heapSize) ↔ 2 * index + 1 < size := by
        unfold lchild
        omega
      simp only [downheapLoop, childTest]
      by_cases hasChild : 2 * index + 1 < size
      · rw [if_pos hasChild, downheapMin_eq holds sizeEq hasChild, ok_bind]
        by_cases stopped : leastIndex (processKey mem) cells size index = index
        · rw [if_pos (by rw [stopped]), BinaryHeap.siftDown_stop (fun _ => stopped)]
          exact ⟨h.pq, rfl, rfl, holds⟩
        · have bounds := BinaryHeap.leastIndex_child hasChild stopped
          obtain ⟨pq, swapped, sameLength, swappedHolds⟩ :=
            heapSwap_eq h holds (by omega : index < size) bounds.2.2.1
          obtain ⟨result, ended, resultLength, resultHolds⟩ :=
            ih { h with pq := pq } _ (leastIndex (processKey mem) cells size index) (by omega)
              swappedHolds sizeEq (by omega)
          rw [if_neg (by omega), swapped, ok_bind, BinaryHeap.siftDown_step hasChild stopped]
          exact ⟨result, ended, resultLength.trans sameLength, resultHolds⟩
      · rw [if_neg hasChild,
          BinaryHeap.siftDown_stop (fun impossible => absurd impossible hasChild)]
        exact ⟨h.pq, rfl, rfl, holds⟩

/-! ### The operations on a stored multiset -/

/-- The heap holds exactly `stored`, laid out in heap order for the keys of `mem`. -/
def Heap.Stores (mem : Memory) (h : Heap) (stored : Multiset ProcessPtr) : Prop :=
  ∃ cells : Nat → ProcessPtr, h.heapSize = stored.card ∧ h.pq.Holds cells stored.card ∧
    Ordered (processKey mem) cells stored.card ∧ bag cells stored.card = stored

variable {stored : Multiset ProcessPtr}

theorem Heap.Stores.size_eq (stores : h.Stores mem stored) : h.heapSize = stored.card := by
  obtain ⟨_, sizeEq, _⟩ := stores
  exact sizeEq

theorem Heap.Stores.card_le (stores : h.Stores mem stored) : stored.card ≤ h.pq.length := by
  obtain ⟨cells, _, holds, _⟩ := stores
  rcases Nat.eq_zero_or_pos stored.card with none | some
  · omega
  · have last := holds.lt_length (by omega : stored.card - 1 < stored.card)
    omega

/-- Only the keys of the stored processes matter. -/
theorem Heap.Stores.congr_mem (stores : h.Stores mem stored) {other : Memory}
    (same : ∀ process ∈ stored, processKey other process = processKey mem process) :
    h.Stores other stored := by
  obtain ⟨cells, sizeEq, holds, ordered, contents⟩ := stores
  refine ⟨cells, sizeEq, holds, ?_, contents⟩
  have stored_cell : ∀ index, index < stored.card → cells index ∈ stored := by
    intro index inRange
    have member : cells index ∈ bag cells stored.card :=
      BinaryHeap.mem_bag.mpr ⟨index, inRange, rfl⟩
    rwa [contents] at member
  intro index positive inRange
  have before := BinaryHeap.parent_lt positive
  rw [same _ (stored_cell index inRange), same _ (stored_cell _ (by omega))]
  exact ordered index positive inRange

theorem heapInit_stores (mem : Memory) (garbage : Nat → Option ProcessPtr) (maxSize : Nat) :
    (heapInit garbage maxSize).Stores mem 0 := by
  refine ⟨fun _ => 0, rfl, ?_, ?_, rfl⟩
  · intro index impossible
    exact absurd impossible (Nat.not_lt_zero index)
  · intro index _ impossible
    exact absurd impossible (Nat.not_lt_zero index)

theorem heapEmpty_iff (stores : h.Stores mem stored) : heapEmpty h = true ↔ stored = 0 := by
  rw [heapEmpty, beq_iff_eq, stores.size_eq, Int.natCast_eq_zero, Multiset.card_eq_zero]

/-- An insertion pushes onto the cells in use. -/
theorem heapInsert_holds {cells : Nat → ProcessPtr} {size : Nat} (sizeEq : h.heapSize = size)
    (holds : h.pq.Holds cells size) (room : size < h.pq.length) (process : ProcessPtr) :
    ∃ later, heapInsert mem h process = .ok later ∧ later.pq.length = h.pq.length ∧
      later.heapSize = (size + 1 : Nat) ∧
      later.pq.Holds (BinaryHeap.push (processKey mem) cells size process) (size + 1) := by
  let appended : Nat → ProcessPtr := fun index =>
    if index = size then process else cells index
  have appendedHolds : Buffer.Holds (h.pq.set size (some process)) appended (size + 1) := by
    intro index inRange
    rw [List.getElem?_set]
    by_cases isLast : size = index
    · subst index
      rw [if_pos rfl, if_pos room]
      simp only [appended, if_true]
    · rw [if_neg isLast, holds index (by omega)]
      simp only [appended, if_neg (Ne.symm isLast)]
  obtain ⟨pq, ended, sameLength, finalHolds⟩ :=
    upheapLoop_eq mem (size + 1)
      { pq := h.pq.set size (some process), heapSize := h.heapSize + 1 }
      appended size (Nat.lt_succ_self _) appendedHolds (Nat.lt_succ_self _)
  refine ⟨{ pq := pq, heapSize := h.heapSize + 1 }, ?_, ?_, ?_, finalHolds⟩
  · simp only [heapInsert, upheap, sizeEq, Buffer.write_eq _ _ _ room, ok_bind,
      Int.toNat_natCast]
    rw [← sizeEq]
    simpa only [sizeEq] using ended
  · rw [sameLength, List.length_set]
  · rw [sizeEq]
    rfl

theorem heapInsert_stores (stores : h.Stores mem stored) (room : stored.card < h.pq.length)
    (process : ProcessPtr) :
    ∃ later, heapInsert mem h process = .ok later ∧ later.pq.length = h.pq.length ∧
      later.Stores mem (process ::ₘ stored) := by
  obtain ⟨cells, sizeEq, holds, ordered, contents⟩ := stores
  obtain ⟨later, inserted, sameLength, laterSize, laterHolds⟩ :=
    heapInsert_holds sizeEq holds room process
  refine ⟨later, inserted, sameLength, BinaryHeap.push (processKey mem) cells stored.card process,
    ?_, ?_, ?_, ?_⟩
  · rw [Multiset.card_cons, laterSize]
  · rw [Multiset.card_cons]
    exact laterHolds
  · rw [Multiset.card_cons]
    exact BinaryHeap.push_ordered ordered process
  · rw [Multiset.card_cons, BinaryHeap.bag_push, contents]

/-- `heap_top` reads the root. -/
theorem heapTop_holds (holds : h.pq.Holds cells size) (positive : 0 < size) {top : ProcessPtr}
    (atTop : heapTop h = .ok (some top)) : cells 0 = top :=
  Option.some.inj (Except.ok.inj ((holds.read positive).symm.trans atTop))

/-- The top gives way only to a process that is strictly smaller. -/
theorem heapInsert_top (stores : h.Stores mem stored) (room : stored.card < h.pq.length)
    {process top : ProcessPtr} {later : Heap} (inserted : heapInsert mem h process = .ok later)
    (nonempty : stored ≠ 0) (atTop : heapTop h = .ok (some top)) :
    heapTop later = .ok (some
      (if processKey mem process < processKey mem top then process else top)) := by
  obtain ⟨cells, sizeEq, holds, ordered, contents⟩ := stores
  have positive : 0 < stored.card := Multiset.card_pos.mpr nonempty
  have isTop : cells 0 = top := heapTop_holds holds positive atTop
  obtain ⟨found, same, _, _, laterHolds⟩ :=
    heapInsert_holds sizeEq holds room process
  have isLater : found = later := Except.ok.inj (same.symm.trans inserted)
  subst isLater
  have root := laterHolds.read (Nat.succ_pos stored.card)
  rw [BinaryHeap.push_root ordered positive, isTop] at root
  exact root

theorem heapTop_stores (stores : h.Stores mem stored) (nonempty : stored ≠ 0) :
    ∃ top, top ∈ stored ∧ heapTop h = .ok (some top) ∧
      ∀ other, other ∈ stored → processKey mem top ≤ processKey mem other := by
  obtain ⟨cells, sizeEq, holds, ordered, contents⟩ := stores
  have positive : 0 < stored.card := Multiset.card_pos.mpr nonempty
  refine ⟨cells 0, ?_, holds.read positive, ?_⟩
  · rw [← contents]
    exact BinaryHeap.mem_bag.mpr ⟨0, positive, rfl⟩
  · intro other member
    rw [← contents] at member
    exact ordered.root_le_of_mem member

theorem heapPop_stores (stores : h.Stores mem stored) {top : ProcessPtr}
    (nonempty : stored ≠ 0) (atTop : heapTop h = .ok (some top)) :
    ∃ later, heapPop mem h = .ok later ∧ later.pq.length = h.pq.length ∧
      later.Stores mem (stored.erase top) := by
  obtain ⟨cells, sizeEq, holds, ordered, contents⟩ := stores
  have positive : 0 < stored.card := Multiset.card_pos.mpr nonempty
  obtain ⟨rest, cardEq⟩ : ∃ rest, stored.card = rest + 1 := ⟨stored.card - 1, by omega⟩
  rw [cardEq] at sizeEq holds ordered contents
  have topEq : cells 0 = top := heapTop_holds holds (Nat.succ_pos rest) atTop
  obtain ⟨swappedPq, swapped, swappedLength, swappedHolds⟩ :=
    heapSwap_eq { h with heapSize := rest } holds (Nat.lt_succ_self rest)
      (Nat.succ_pos rest)
  obtain ⟨pq, ended, sameLength, finalHolds⟩ :=
    downheapLoop_eq mem (rest + 1)
      { pq := swappedPq, heapSize := rest } _ 0 (by omega)
      (swappedHolds.mono (Nat.le_succ rest)) rfl (Nat.succ_pos rest)
  have erased : bag (BinaryHeap.pop (processKey mem) cells rest) rest = stored.erase top := by
    rw [← contents, ← BinaryHeap.bag_pop (processKey mem) cells rest, topEq,
      Multiset.erase_cons_head]
  have erasedCard : (stored.erase top).card = rest := by
    rw [← erased, bag, Multiset.card_map, Multiset.card_range]
  refine ⟨{ pq := pq, heapSize := rest }, ?_, sameLength.trans swappedLength, ?_⟩
  · have shrunk : h.heapSize - 1 = (rest : Int) := by omega
    simp only [heapPop, shrunk]
    rw [show (0 : Int) = ((0 : Nat) : Int) from rfl, swapped, ok_bind]
    exact ended
  · refine ⟨BinaryHeap.pop (processKey mem) cells rest, ?_, ?_, ?_, ?_⟩
    · rw [erasedCard]
    · rw [erasedCard]
      exact finalHolds
    · rw [erasedCard]
      exact BinaryHeap.pop_ordered ordered
    · rw [erasedCard]
      exact erased

/-! ### Runs of insertions and removals -/

inductive HeapOp where
  | insert (process : ProcessPtr)
  | pop

/-- A heap together with the processes inserted into it and not yet popped. -/
structure HeapHistory where
  heap : Heap
  stored : Multiset ProcessPtr

/-- What is popped is what `heap_top` showed before. -/
def heapStep (mem : Memory) (now : HeapHistory) : HeapOp → Result HeapHistory
  | .insert process => do
      let heap ← heapInsert mem now.heap process
      return { heap := heap, stored := process ::ₘ now.stored }
  | .pop => do
      let top ← heapTop now.heap
      let heap ← heapPop mem now.heap
      return { heap := heap, stored := top.elim now.stored now.stored.erase }

def heapMachine (mem : Memory) (maxSize : Nat) : Machine HeapHistory HeapOp Fault where
  enabled now
    | .insert _ => now.stored.card < maxSize
    | .pop => 0 < heapSize now.heap
  step := heapStep mem

instance (mem : Memory) (maxSize : Nat) (now : HeapHistory) (op : HeapOp) :
    Decidable ((heapMachine mem maxSize).enabled now op) :=
  match op with
  | .insert _ => inferInstanceAs (Decidable (now.stored.card < maxSize))
  | .pop => inferInstanceAs (Decidable (0 < heapSize now.heap))

/-- Repeated `heap_top` and `heap_pop` until the heap is empty. -/
def drainLoop (mem : Memory) : Nat → Heap → Result (List ProcessPtr)
  | 0, _ => .error .outOfFuel
  | fuel + 1, h => do
      if heapEmpty h then return []
      let top ← heapTop h
      let later ← heapPop mem h
      match top with
      | none => .error .nullDereference
      | some process => return process :: (← drainLoop mem fuel later)

def drain (mem : Memory) (h : Heap) : Result (List ProcessPtr) :=
  drainLoop mem (h.heapSize.toNat + 1) h

/-- What the layout of a heap owes to the processes it is meant to hold. -/
structure HeapHistory.Faithful (mem : Memory) (maxSize : Nat) (now : HeapHistory) : Prop where
  bounded : now.stored.card ≤ maxSize
  ordered : ∀ index : Int, 0 < index → index < now.heap.heapSize →
    heapElementLt mem now.heap index (parent index) = .ok false
  contents : (now.heap.pq.take now.heap.heapSize.toNat : Multiset (Option ProcessPtr)) =
    now.stored.map some
  empty_iff : heapEmpty now.heap = true ↔ now.stored = 0
  top_least : now.stored ≠ 0 → ∃ top ∈ now.stored, heapTop now.heap = .ok (some top) ∧
    ∀ other ∈ now.stored, processKey mem top ≤ processKey mem other
  pop_removes : ∀ top, now.stored ≠ 0 → heapTop now.heap = .ok (some top) →
    ∃ later, heapPop mem now.heap = .ok later ∧
      (later.pq.take later.heapSize.toNat : Multiset (Option ProcessPtr)) =
        (now.stored.erase top).map some
  drained : ∃ order, drain mem now.heap = .ok order ∧
    (order : Multiset ProcessPtr) = now.stored ∧
    order.Pairwise (fun first second => processKey mem first ≤ processKey mem second)

theorem Heap.Stores.contents (stores : h.Stores mem stored) :
    (h.pq.take h.heapSize.toNat : Multiset (Option ProcessPtr)) = stored.map some := by
  obtain ⟨cells, sizeEq, holds, _, contents⟩ := stores
  rw [sizeEq, Int.toNat_natCast, holds.contents, contents]

theorem Heap.Stores.ordered (stores : h.Stores mem stored) (index : Int)
    (positive : 0 < index) (inRange : index < h.heapSize) :
    heapElementLt mem h index (parent index) = .ok false := by
  obtain ⟨cells, sizeEq, holds, ordered, _⟩ := stores
  obtain ⟨index, rfl⟩ := Int.eq_ofNat_of_zero_le (le_of_lt positive)
  have indexPositive : 0 < index := by omega
  have indexLt : index < stored.card := by omega
  have before := BinaryHeap.parent_lt indexPositive
  rw [parent, parent_natCast, heapElementLt_eq holds indexLt (by omega)]
  rw [decide_eq_false (not_lt_of_ge (ordered index indexPositive indexLt))]

theorem drainLoop_stores (fuel : Nat) (h : Heap) (stored : Multiset ProcessPtr)
    (enough : stored.card < fuel) (stores : h.Stores mem stored) :
    ∃ order, drainLoop mem fuel h = .ok order ∧ (order : Multiset ProcessPtr) = stored ∧
      order.Pairwise (fun first second => processKey mem first ≤ processKey mem second) := by
  induction fuel generalizing h stored with
  | zero => omega
  | succ fuel ih =>
      by_cases isEmpty : stored = 0
      · refine ⟨[], ?_, isEmpty.symm, List.Pairwise.nil⟩
        rw [drainLoop, if_pos ((heapEmpty_iff stores).mpr isEmpty)]
        rfl
      · obtain ⟨top, member, atTop, least⟩ := heapTop_stores stores isEmpty
        obtain ⟨later, popped, _, laterStores⟩ := heapPop_stores stores isEmpty atTop
        have fewer : (stored.erase top).card < fuel := by
          have shrunk := Multiset.card_erase_lt_of_mem member
          omega
        obtain ⟨order, drained, orderEq, sorted⟩ := ih later _ fewer laterStores
        refine ⟨top :: order, ?_, ?_, ?_⟩
        · rw [drainLoop, if_neg (fun empty => isEmpty ((heapEmpty_iff stores).mp empty)),
            atTop, ok_bind, popped, ok_bind]
          simp only [drained, ok_bind, pure_eq_ok]
        · rw [← Multiset.cons_coe, orderEq, Multiset.cons_erase member]
        · refine List.pairwise_cons.mpr ⟨?_, sorted⟩
          intro other inOrder
          apply least other
          have inErased : other ∈ stored.erase top := by
            rw [← orderEq]
            exact Multiset.mem_coe.mpr inOrder
          exact Multiset.mem_of_mem_erase inErased

theorem Heap.Stores.faithful {maxSize : Nat} (stores : h.Stores mem stored)
    (capacity : h.pq.length = maxSize) :
    HeapHistory.Faithful mem maxSize { heap := h, stored := stored } where
  bounded := capacity ▸ stores.card_le
  ordered := stores.ordered
  contents := stores.contents
  empty_iff := heapEmpty_iff stores
  top_least := heapTop_stores stores
  pop_removes top nonempty atTop := by
    obtain ⟨later, popped, _, laterStores⟩ := heapPop_stores stores nonempty atTop
    exact ⟨later, popped, laterStores.contents⟩
  drained := by
    apply drainLoop_stores _ _ _ _ stores
    rw [stores.size_eq, Int.toNat_natCast]
    exact Nat.lt_succ_self _

theorem heapStep_stores {maxSize : Nat} {now : HeapHistory} {op : HeapOp}
    (stores : now.heap.Stores mem now.stored) (capacity : now.heap.pq.length = maxSize)
    (allowed : (heapMachine mem maxSize).enabled now op) :
    ∃ later, heapStep mem now op = .ok later ∧ later.heap.Stores mem later.stored ∧
      later.heap.pq.length = maxSize := by
  cases op with
  | insert process =>
      have room : now.stored.card < now.heap.pq.length := capacity.symm ▸ allowed
      obtain ⟨heap, inserted, sameLength, laterStores⟩ := heapInsert_stores stores room process
      refine ⟨{ heap := heap, stored := process ::ₘ now.stored }, ?_, laterStores,
        sameLength.trans capacity⟩
      rw [heapStep, inserted]
      rfl
  | pop =>
      have nonempty : now.stored ≠ 0 := by
        intro isEmpty
        have sizeEq := stores.size_eq
        rw [isEmpty, Multiset.card_zero] at sizeEq
        have positive : 0 < now.heap.heapSize := allowed
        omega
      obtain ⟨top, _, atTop, _⟩ := heapTop_stores stores nonempty
      obtain ⟨heap, popped, sameLength, laterStores⟩ := heapPop_stores stores nonempty atTop
      refine ⟨{ heap := heap, stored := now.stored.erase top }, ?_, laterStores,
        sameLength.trans capacity⟩
      rw [heapStep, atTop, ok_bind, popped]
      rfl

theorem heapMachine_stores (mem : Memory) (garbage : Nat → Option ProcessPtr) (maxSize : Nat)
    {ops : List HeapOp} {now : HeapHistory}
    (run : (heapMachine mem maxSize).Run { heap := heapInit garbage maxSize, stored := 0 }
      ops now) :
    now.heap.Stores mem now.stored ∧ now.heap.pq.length = maxSize := by
  apply run.holds_of_progress (fun now =>
    now.heap.Stores mem now.stored ∧ now.heap.pq.length = maxSize)
  · exact ⟨heapInit_stores mem garbage maxSize, malloc_length garbage maxSize⟩
  · intro now op holds allowed
    exact heapStep_stores holds.1 holds.2 allowed

/-- Every reachable heap is faithful to what was inserted and not popped, and
no further permitted call leaves the buffer. -/
theorem heap_refines_priorityQueue (mem : Memory) (garbage : Nat → Option ProcessPtr)
    (maxSize : Nat) {ops : List HeapOp} {now : HeapHistory}
    (run : (heapMachine mem maxSize).Run { heap := heapInit garbage maxSize, stored := 0 }
      ops now) :
    now.Faithful mem maxSize ∧
      ∀ op, (heapMachine mem maxSize).enabled now op →
        ∃ later, (heapMachine mem maxSize).step now op = .ok later := by
  obtain ⟨stores, capacity⟩ := heapMachine_stores mem garbage maxSize run
  refine ⟨stores.faithful capacity, ?_⟩
  intro op allowed
  obtain ⟨later, stepped, _⟩ := heapStep_stores stores capacity allowed
  exact ⟨later, stepped⟩

private def heapSampleMemory : Memory := fun process =>
  { arrivalTime := 0, timeNeeded := 4 - process, remainingTime := 4 - process, pid := process }

theorem heap_refines_priorityQueue_three_calls :
    HeapHistory.Faithful heapSampleMemory 2
      { heap := { pq := [some 0, some 1], heapSize := 1 }, stored := {0} } :=
  (heap_refines_priorityQueue heapSampleMemory (fun _ => none) 2
    (Machine.run_of_replay [.insert 0, .insert 1, .pop] rfl)).1

end UserScheduler
