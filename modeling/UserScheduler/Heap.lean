/-
The process heap of heap.c.

Definitions follow the C functions one by one.  Indices are C ints, so that
`heap_size` can be seen to go negative, and division truncates towards zero.
The loops carry fuel; that the fuel never runs out is proved, not assumed.
-/

import UserScheduler.Process

namespace UserScheduler

structure Heap where
  pq : Buffer
  heapSize : Int
deriving DecidableEq, Repr

def heapInit (garbage : Nat → Option ProcessPtr) (maxSize : Nat) : Heap :=
  { pq := malloc garbage maxSize
    heapSize := 0 }

def heapElementLt (mem : Memory) (h : Heap) (lhsIdx rhsIdx : Int) : Result Bool := do
  let lhs ← load mem (← h.pq.read lhsIdx)
  let rhs ← load mem (← h.pq.read rhsIdx)
  if lhs.remainingTime = rhs.remainingTime then
    return decide (lhs.pid < rhs.pid)
  return decide (lhs.remainingTime < rhs.remainingTime)

def lchild (parentIdx : Int) : Int := parentIdx * 2 + 1

def rchild (parentIdx : Int) : Int := parentIdx * 2 + 2

def parent (childIdx : Int) : Int := (childIdx - 1).tdiv 2

def heapSwap (h : Heap) (lhs rhs : Int) : Result Heap := do
  let temp ← h.pq.read lhs
  let other ← h.pq.read rhs
  let pq ← h.pq.write lhs other
  let pq ← pq.write rhs temp
  return { h with pq := pq }

/-- The loop of `upheap`.  `parentIdx` is recomputed from `childIdx` before
every test, as the C code keeps it. -/
def upheapLoop (mem : Memory) : Nat → Heap → Int → Result Heap
  | 0, _, _ => .error .outOfFuel
  | fuel + 1, h, childIdx => do
      let parentIdx := (childIdx - 1).tdiv 2
      if 0 < childIdx then
        if ← heapElementLt mem h childIdx parentIdx then
          let h ← heapSwap h parentIdx childIdx
          upheapLoop mem fuel h parentIdx
        else return h
      else return h

def upheap (mem : Memory) (h : Heap) (childIdx : Int) : Result Heap :=
  upheapLoop mem (childIdx.toNat + 1) h childIdx

def heapInsert (mem : Memory) (h : Heap) (p : ProcessPtr) : Result Heap := do
  let childIdx := h.heapSize
  let pq ← h.pq.write childIdx (some p)
  upheap mem { pq := pq, heapSize := h.heapSize + 1 } childIdx

def heapTop (h : Heap) : Result (Option ProcessPtr) := h.pq.read 0

/-- The two comparisons of one round of `downheap`. -/
def downheapMin (mem : Memory) (h : Heap) (parentIdx : Int) : Result Int := do
  let minIdx :=
    if ← heapElementLt mem h (lchild parentIdx) parentIdx then lchild parentIdx else parentIdx
  if rchild parentIdx < h.heapSize then
    return if ← heapElementLt mem h (rchild parentIdx) minIdx then rchild parentIdx else minIdx
  return minIdx

def downheapLoop (mem : Memory) : Nat → Heap → Int → Result Heap
  | 0, _, _ => .error .outOfFuel
  | fuel + 1, h, parentIdx => do
      if lchild parentIdx < h.heapSize then
        let minIdx ← downheapMin mem h parentIdx
        if parentIdx = minIdx then return h
        let h ← heapSwap h parentIdx minIdx
        downheapLoop mem fuel h minIdx
      else return h

def downheap (mem : Memory) (h : Heap) (parentIdx : Int) : Result Heap :=
  downheapLoop mem (h.heapSize.toNat + 1) h parentIdx

def heapPop (mem : Memory) (h : Heap) : Result Heap := do
  let h := { h with heapSize := h.heapSize - 1 }
  let h ← heapSwap h h.heapSize 0
  downheap mem h 0

def heapSize (h : Heap) : Int := h.heapSize

def heapEmpty (h : Heap) : Bool := h.heapSize == 0

end UserScheduler
