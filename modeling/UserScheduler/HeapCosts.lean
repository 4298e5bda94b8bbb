/-
How many accesses the heap operations make.

A round of a sift makes a fixed number of accesses and goes one level up or
down, so an operation is logarithmic in the number of processes.  As before
nothing is assumed about the order of the contents; the keys may even change
between two operations.
-/

import Mathlib.Data.Nat.Log
import UserScheduler.HeapAccesses

namespace UserScheduler

open Machines
open Traces (Traced recorded erase Yields)

/-! ### Recorded operations -/

def heapInsertRecorded (mem : Memory) (h : Heap) (p : ProcessPtr) : Recording Heap := do
  let childIdx := h.heapSize
  let pq ← h.pq.writeRecorded childIdx (some p)
  upheapRecorded mem { pq := pq, heapSize := h.heapSize + 1 } childIdx

def heapPopRecorded (mem : Memory) (h : Heap) : Recording Heap := do
  let h := { h with heapSize := h.heapSize - 1 }
  let h ← heapSwapRecorded h h.heapSize 0
  downheapRecorded mem h 0

def heapOperation (mem : Memory) (h : Heap) : HeapOp → Result Heap
  | .insert p => heapInsert mem h p
  | .pop => heapPop mem h

def heapOperationRecorded (mem : Memory) (h : Heap) : HeapOp → Recording Heap
  | .insert p => heapInsertRecorded mem h p
  | .pop => heapPopRecorded mem h

/-- Operations one after the other, each with the process table of its time. -/
def heapOperations : Heap → List (Memory × HeapOp) → Result Heap
  | h, [] => return h
  | h, (mem, operation) :: rest => do
      let h ← heapOperation mem h operation
      heapOperations h rest

def heapOperationsRecorded : Heap → List (Memory × HeapOp) → Recording Heap
  | h, [] => return h
  | h, (mem, operation) :: rest => do
      let h ← heapOperationRecorded mem h operation
      heapOperationsRecorded h rest

theorem heapInsertRecorded_erase (mem : Memory) (h : Heap) (p : ProcessPtr) :
    erase (heapInsertRecorded mem h p) = heapInsert mem h p := by
  simp only [heapInsertRecorded, heapInsert, Buffer.writeRecorded, upheapRecorded, upheap,
    upheapLoopRecorded_erase, Traces.erase_bind, Traces.erase_recorded]

theorem heapPopRecorded_erase (mem : Memory) (h : Heap) :
    erase (heapPopRecorded mem h) = heapPop mem h := by
  simp only [heapPopRecorded, heapPop, downheapRecorded, downheap, heapSwapRecorded_erase,
    downheapLoopRecorded_erase, Traces.erase_bind]

theorem heapOperationsRecorded_erase (h : Heap) (operations : List (Memory × HeapOp)) :
    erase (heapOperationsRecorded h operations) = heapOperations h operations := by
  induction operations generalizing h with
  | nil => rfl
  | cons first rest ih =>
      have one : erase (heapOperationRecorded first.1 h first.2) =
          heapOperation first.1 h first.2 := by
        cases first.2 with
        | insert p => exact heapInsertRecorded_erase first.1 h p
        | pop => exact heapPopRecorded_erase first.1 h
      simp only [heapOperationsRecorded, heapOperations, Traces.erase_bind, one, ih]

/-! ### One round -/

theorem Buffer.write_length {buffer written : Buffer} {index : Int} {cell : Option ProcessPtr}
    (wrote : buffer.write index cell = .ok written) :
    0 ≤ index ∧ index < buffer.length ∧ written.length = buffer.length := by
  unfold Buffer.write at wrote
  split at wrote
  · cases wrote
    rw [List.length_set]
    omega
  · cases wrote

theorem Buffer.read_bounds {buffer : Buffer} {index : Int} {cell : Option ProcessPtr}
    (performed : buffer.read index = .ok cell) : 0 ≤ index := by
  unfold Buffer.read at performed
  split at performed
  · assumption
  · cases performed

/-- What stays the same when cells are exchanged. -/
structure SameShape (h later : Heap) : Prop where
  size : later.heapSize = h.heapSize
  capacity : later.pq.length = h.pq.length

theorem SameShape.trans {h now later : Heap} (first : SameShape h now)
    (second : SameShape now later) : SameShape h later :=
  ⟨second.size.trans first.size, second.capacity.trans first.capacity⟩

theorem heapSwapRecorded_cost (h : Heap) (lhs rhs : Int) :
    Yields (heapSwapRecorded h lhs rhs) (fun later trace =>
      trace.length = 4 ∧ 0 ≤ lhs ∧ SameShape h later) := by
  apply Yields.recorded_bind
  intro temp performed
  apply Yields.recorded_bind
  intro other _
  apply Yields.recorded_bind
  intro halfway wroteLhs
  apply Yields.recorded_bind
  intro pq wroteRhs
  apply Yields.pure
  refine ⟨rfl, Buffer.read_bounds performed, rfl, ?_⟩
  exact (Buffer.write_length wroteRhs).2.2.trans (Buffer.write_length wroteLhs).2.2

theorem heapElementLtRecorded_cost (mem : Memory) (h : Heap) (lhs rhs : Int) :
    Yields (heapElementLtRecorded mem h lhs rhs) (fun _ trace => trace.length = 2) := by
  apply (heapElementLtRecorded_trace mem h lhs rhs).weaken
  rintro _ _ rfl
  rfl

theorem downheapMinRecorded_cost (mem : Memory) (h : Heap) (index : Int) :
    Yields (downheapMinRecorded mem h index) (fun minIdx trace => trace.length ≤ 4 ∧
      (minIdx = index ∨ minIdx = lchild index ∨ minIdx = rchild index)) := by
  apply (heapElementLtRecorded_cost mem h (lchild index) index).bind
  intro leftSmaller leftReads two
  have kept : (if leftSmaller = true then lchild index else index) = index ∨
      (if leftSmaller = true then lchild index else index) = lchild index := by
    cases leftSmaller with
    | false => exact Or.inl rfl
    | true => exact Or.inr rfl
  apply Yields.ite
  · intro _
    apply (heapElementLtRecorded_cost mem h (rchild index) _).bind
    intro rightSmaller rightReads two'
    apply Yields.pure
    constructor
    · simp only [List.length_append, List.length_nil, two, two']
      decide
    · cases rightSmaller with
      | false => exact kept.imp id Or.inl
      | true => exact Or.inr (Or.inr rfl)
  · intro _
    apply Yields.pure
    constructor
    · simp only [List.length_append, List.length_nil, two]
      decide
    · exact kept.imp id Or.inl

/-! ### The loops -/

theorem log_halves {more fewer : Nat} (two : 2 ≤ more) (half : fewer ≤ more / 2) :
    Nat.log 2 fewer + 1 ≤ Nat.log 2 more := by
  rw [Nat.log_of_one_lt_of_le (by decide) two]
  exact Nat.succ_le_succ (Nat.log_mono_right half)

/-- Six accesses for each level up to the root. -/
theorem upheapLoopRecorded_cost (mem : Memory) (fuel : Nat) (h : Heap) {index : Int}
    (nonnegative : 0 ≤ index) :
    Yields (upheapLoopRecorded mem fuel h index) (fun later trace =>
      trace.length ≤ 6 * Nat.log 2 (index.toNat + 1) ∧ SameShape h later) := by
  induction fuel generalizing h index with
  | zero => exact Yields.faulted
  | succ fuel ih =>
      apply Yields.ite
      · intro positive
        have isParent : ((index - 1).tdiv 2).toNat + 1 = (index.toNat + 1) / 2 := by
          rw [Int.tdiv_eq_ediv_of_nonneg (by omega)]
          omega
        have oneLevel : Nat.log 2 (((index - 1).tdiv 2).toNat + 1) + 1 ≤
            Nat.log 2 (index.toNat + 1) :=
          log_halves (by omega) isParent.le
        apply (heapElementLtRecorded_cost mem h index _).bind
        intro smaller reads two
        apply Yields.ite
        · intro _
          apply (heapSwapRecorded_cost h _ index).bind
          rintro swapped exchange ⟨four, parentIn, sameShape⟩
          apply (ih swapped parentIn).weaken
          rintro later rest ⟨bounded, sameShape'⟩
          refine ⟨?_, sameShape.trans sameShape'⟩
          simp only [List.length_append, two, four]
          omega
        · intro _
          apply Yields.pure
          refine ⟨?_, rfl, rfl⟩
          simp only [List.length_append, List.length_nil, two]
          omega
      · intro _
        exact Yields.pure ⟨Nat.zero_le _, rfl, rfl⟩

/-- Eight accesses for each level below `index`. -/
theorem downheapLoopRecorded_cost (mem : Memory) (fuel : Nat) (h : Heap) {index : Int}
    (nonnegative : 0 ≤ index) :
    Yields (downheapLoopRecorded mem fuel h index) (fun later trace =>
      trace.length ≤ 8 * Nat.log 2 (h.heapSize.toNat / (index.toNat + 1)) ∧
        SameShape h later) := by
  induction fuel generalizing h index with
  | zero => exact Yields.faulted
  | succ fuel ih =>
      apply Yields.ite
      · intro hasChild
        have two : 2 ≤ h.heapSize.toNat / (index.toNat + 1) := by
          rw [Nat.le_div_iff_mul_le (Nat.succ_pos _)]
          unfold lchild at hasChild
          omega
        have positive : 1 ≤ Nat.log 2 (h.heapSize.toNat / (index.toNat + 1)) :=
          Nat.log_pos (by decide) two
        apply (downheapMinRecorded_cost mem h index).bind
        rintro minIdx reads ⟨four, place⟩
        apply Yields.ite
        · intro _
          apply Yields.pure
          refine ⟨?_, rfl, rfl⟩
          simp only [List.length_append, List.length_nil]
          omega
        · intro moved
          have child := place.resolve_left (Ne.symm moved)
          apply (heapSwapRecorded_cost h index minIdx).bind
          rintro swapped exchange ⟨four', _, sameShape⟩
          have minIn : 0 ≤ minIdx := by
            unfold lchild rchild at child
            omega
          have half : h.heapSize.toNat / (minIdx.toNat + 1) ≤
              h.heapSize.toNat / (index.toNat + 1) / 2 := by
            rw [Nat.div_div_eq_div_mul]
            apply Nat.div_le_div_left _ (by omega)
            unfold lchild rchild at child
            omega
          have oneLevel := log_halves two half
          apply (ih swapped minIn).weaken
          rintro later rest ⟨bounded, sameShape'⟩
          rw [sameShape.size] at bounded
          refine ⟨?_, sameShape.trans sameShape'⟩
          simp only [List.length_append, four']
          omega
      · intro _
        exact Yields.pure ⟨Nat.zero_le _, rfl, rfl⟩

/-! ### Operations -/

/-- The elements of a heap have room in its buffer. -/
structure Fits (capacity : Nat) (h : Heap) : Prop where
  nonnegative : 0 ≤ h.heapSize
  room : h.heapSize ≤ capacity
  length : h.pq.length = capacity

theorem heapOperationRecorded_cost {capacity : Nat} {h : Heap} (fits : Fits capacity h)
    (mem : Memory) (operation : HeapOp) :
    Yields (heapOperationRecorded mem h operation) (fun later trace =>
      trace.length ≤ 8 * Nat.log 2 capacity + 4 ∧ Fits capacity later) := by
  obtain ⟨nonnegative, room, length⟩ := fits
  cases operation with
  | insert p =>
      apply Yields.recorded_bind
      intro pq wrote
      obtain ⟨_, inRange, sameLength⟩ := Buffer.write_length wrote
      apply (upheapLoopRecorded_cost mem _ { pq := pq, heapSize := h.heapSize + 1 }
        nonnegative).weaken
      rintro later trace ⟨bounded, size, sameLength'⟩
      dsimp only at size
      have level : Nat.log 2 (h.heapSize.toNat + 1) ≤ Nat.log 2 capacity :=
        Nat.log_mono_right (by omega)
      constructor
      · rw [List.length_append, List.length_singleton]
        omega
      · exact ⟨by omega, by omega, sameLength'.trans (sameLength.trans length)⟩
  | pop =>
      -- popping an empty heap reads in front of the buffer, so the size stays nonnegative
      apply (heapSwapRecorded_cost { h with heapSize := h.heapSize - 1 } _ 0).bind
      rintro swapped exchange ⟨four, remains, size, sameLength⟩
      apply (downheapLoopRecorded_cost mem _ swapped (Int.le_refl 0)).weaken
      rintro later trace ⟨bounded, size', sameLength'⟩
      dsimp only at size sameLength remains
      have level : Nat.log 2 (swapped.heapSize.toNat / (Int.toNat 0 + 1)) ≤
          Nat.log 2 capacity := by
        apply Nat.log_mono_right
        rw [Int.toNat_zero, Nat.zero_add, Nat.div_one]
        omega
      constructor
      · rw [List.length_append, four]
        omega
      · exact ⟨by omega, by omega, sameLength'.trans (sameLength.trans length)⟩

theorem heapOperationsRecorded_cost {capacity : Nat} {h : Heap} (fits : Fits capacity h)
    (operations : List (Memory × HeapOp)) :
    Yields (heapOperationsRecorded h operations) (fun later trace =>
      trace.length ≤ operations.length * (8 * Nat.log 2 capacity + 4) ∧ Fits capacity later) := by
  induction operations generalizing h with
  | nil => exact Yields.pure ⟨Nat.zero_le _, fits⟩
  | cons first rest ih =>
      apply (heapOperationRecorded_cost fits first.1 first.2).bind
      rintro now made ⟨bounded, fits'⟩
      apply (ih fits').weaken
      rintro later others ⟨bounded', fits''⟩
      refine ⟨?_, fits''⟩
      rw [List.length_append, List.length_cons, Nat.succ_mul]
      omega

/-- Processes with a later number need less time. -/
def costSampleMemory : Memory := fun process =>
  { arrivalTime := 0, timeNeeded := 10 - process, remainingTime := 10 - process, pid := process }

def costSample : List (Memory × HeapOp) :=
  [.insert 1, .insert 2, .insert 3, .pop].map fun operation => (costSampleMemory, operation)

end UserScheduler
