/-
Which cells of the process heap the two sifts touch.

The recorded functions below are the functions of heap.c with every access to
`pq` written to a trace; erasing the trace gives back the model.  Bounds and
footprint of a sift follow from its indices alone.  Nothing is assumed about
the order of the contents, which PSJF disturbs when it charges a running
process in place.  Indices are exact: `2 * heap_size + 2` is taken to fit an int.
-/

import Mathlib.Logic.Relation
import UserScheduler.Lib.Trace
import UserScheduler.HeapRefinement

namespace UserScheduler

open Machines
open Traces (Traced recorded erase Yields)

/-! ### Recorded accesses -/

/-- One evaluation of `pq[index]`. -/
inductive Access where
  | read (index : Int)
  | write (index : Int)
deriving DecidableEq, Repr

def Access.index : Access → Int
  | .read index => index
  | .write index => index

abbrev Recording := Traced Access Fault

def Buffer.readRecorded (buffer : Buffer) (index : Int) : Recording (Option ProcessPtr) :=
  recorded [.read index] (buffer.read index)

def Buffer.writeRecorded (buffer : Buffer) (index : Int) (cell : Option ProcessPtr) :
    Recording Buffer :=
  recorded [.write index] (buffer.write index cell)

def heapElementLtRecorded (mem : Memory) (h : Heap) (lhsIdx rhsIdx : Int) :
    Recording Bool := do
  let lhs ← recorded [] (load mem (← h.pq.readRecorded lhsIdx))
  let rhs ← recorded [] (load mem (← h.pq.readRecorded rhsIdx))
  if lhs.remainingTime = rhs.remainingTime then
    return decide (lhs.pid < rhs.pid)
  return decide (lhs.remainingTime < rhs.remainingTime)

def heapSwapRecorded (h : Heap) (lhs rhs : Int) : Recording Heap := do
  let temp ← h.pq.readRecorded lhs
  let other ← h.pq.readRecorded rhs
  let pq ← h.pq.writeRecorded lhs other
  let pq ← pq.writeRecorded rhs temp
  return { h with pq := pq }

def upheapLoopRecorded (mem : Memory) : Nat → Heap → Int → Recording Heap
  | 0, _, _ => recorded [] (.error .outOfFuel)
  | fuel + 1, h, childIdx => do
      let parentIdx := (childIdx - 1).tdiv 2
      if 0 < childIdx then
        if ← heapElementLtRecorded mem h childIdx parentIdx then
          let h ← heapSwapRecorded h parentIdx childIdx
          upheapLoopRecorded mem fuel h parentIdx
        else return h
      else return h

def upheapRecorded (mem : Memory) (h : Heap) (childIdx : Int) : Recording Heap :=
  upheapLoopRecorded mem (childIdx.toNat + 1) h childIdx

def downheapMinRecorded (mem : Memory) (h : Heap) (parentIdx : Int) : Recording Int := do
  let minIdx :=
    if ← heapElementLtRecorded mem h (lchild parentIdx) parentIdx then lchild parentIdx
    else parentIdx
  if rchild parentIdx < h.heapSize then
    return if ← heapElementLtRecorded mem h (rchild parentIdx) minIdx then rchild parentIdx
      else minIdx
  return minIdx

def downheapLoopRecorded (mem : Memory) : Nat → Heap → Int → Recording Heap
  | 0, _, _ => recorded [] (.error .outOfFuel)
  | fuel + 1, h, parentIdx => do
      if lchild parentIdx < h.heapSize then
        let minIdx ← downheapMinRecorded mem h parentIdx
        if parentIdx = minIdx then return h
        let h ← heapSwapRecorded h parentIdx minIdx
        downheapLoopRecorded mem fuel h minIdx
      else return h

def downheapRecorded (mem : Memory) (h : Heap) (parentIdx : Int) : Recording Heap :=
  downheapLoopRecorded mem (h.heapSize.toNat + 1) h parentIdx

/-! ### Erasing the trace -/

@[simp] theorem heapElementLtRecorded_erase (mem : Memory) (h : Heap) (lhsIdx rhsIdx : Int) :
    erase (heapElementLtRecorded mem h lhsIdx rhsIdx) =
      heapElementLt mem h lhsIdx rhsIdx := by
  simp only [heapElementLtRecorded, heapElementLt, Buffer.readRecorded, Traces.erase_bind,
    Traces.erase_recorded, Traces.erase_ite, Traces.erase_pure, pure_eq_ok]

@[simp] theorem heapSwapRecorded_erase (h : Heap) (lhs rhs : Int) :
    erase (heapSwapRecorded h lhs rhs) = heapSwap h lhs rhs := by
  simp only [heapSwapRecorded, heapSwap, Buffer.readRecorded, Buffer.writeRecorded,
    Traces.erase_bind, Traces.erase_recorded, Traces.erase_pure, pure_eq_ok]

@[simp] theorem downheapMinRecorded_erase (mem : Memory) (h : Heap) (parentIdx : Int) :
    erase (downheapMinRecorded mem h parentIdx) = downheapMin mem h parentIdx := by
  simp only [downheapMinRecorded, downheapMin, heapElementLtRecorded_erase,
    Traces.erase_bind, Traces.erase_ite, Traces.erase_pure, pure_eq_ok]

theorem upheapLoopRecorded_erase (mem : Memory) (fuel : Nat) (h : Heap) (childIdx : Int) :
    erase (upheapLoopRecorded mem fuel h childIdx) = upheapLoop mem fuel h childIdx := by
  induction fuel generalizing h childIdx with
  | zero => rfl
  | succ fuel ih =>
      simp only [upheapLoopRecorded, upheapLoop, heapElementLtRecorded_erase,
        heapSwapRecorded_erase, Traces.erase_bind, Traces.erase_ite, Traces.erase_pure,
        pure_eq_ok, ih]

theorem downheapLoopRecorded_erase (mem : Memory) (fuel : Nat) (h : Heap) (parentIdx : Int) :
    erase (downheapLoopRecorded mem fuel h parentIdx) = downheapLoop mem fuel h parentIdx := by
  induction fuel generalizing h parentIdx with
  | zero => rfl
  | succ fuel ih =>
      simp only [downheapLoopRecorded, downheapLoop, downheapMinRecorded_erase,
        heapSwapRecorded_erase, Traces.erase_bind, Traces.erase_ite, Traces.erase_pure,
        pure_eq_ok, ih]

/-! ### Footprints -/

/-- Only reads, and only of cells in use. -/
def ReadsWithin (size : Int) (trace : List Access) : Prop :=
  ∀ access ∈ trace, ∃ index, access = .read index ∧ 0 ≤ index ∧ index < size

/-- A piece of a sift touches cells in use only, and writes those in `movable` only. -/
structure Confined (size : Int) (movable : Int → Prop) (h later : Heap)
    (trace : List Access) : Prop where
  inRange : ∀ access ∈ trace, 0 ≤ access.index ∧ access.index < size
  written : ∀ index, Access.write index ∈ trace → movable index
  unwritten : ∀ cell : Nat, Access.write cell ∉ trace → later.pq[cell]? = h.pq[cell]?

variable {movable : Int → Prop} {now later : Heap} {bound : Int} {trace more : List Access}

theorem ReadsWithin.nil (bound : Int) : ReadsWithin bound [] :=
  fun _ impossible => nomatch impossible

theorem ReadsWithin.append (earlier : ReadsWithin bound trace) (after : ReadsWithin bound more) :
    ReadsWithin bound (trace ++ more) := by
  intro access member
  rcases List.mem_append.mp member with before | behind
  · exact earlier access before
  · exact after access behind

theorem ReadsWithin.confined (reads : ReadsWithin bound trace) :
    Confined bound movable h h trace where
  inRange access member := by
    obtain ⟨index, rfl, nonnegative, below⟩ := reads access member
    exact ⟨nonnegative, below⟩
  written index member := by
    obtain ⟨_, impossible, _⟩ := reads _ member
    cases impossible
  unwritten _ _ := rfl

/-- Nothing was touched. -/
theorem Confined.refl (bound : Int) (movable : Int → Prop) (h : Heap) :
    Confined bound movable h h [] :=
  (ReadsWithin.nil bound).confined

theorem Confined.trans (earlier : Confined bound movable h now trace)
    (after : Confined bound movable now later more) :
    Confined bound movable h later (trace ++ more) where
  inRange access member := by
    rcases List.mem_append.mp member with before | behind
    · exact earlier.inRange access before
    · exact after.inRange access behind
  written index member := by
    rcases List.mem_append.mp member with before | behind
    · exact earlier.written index before
    · exact after.written index behind
  unwritten cell absent := by
    have absentBefore : Access.write cell ∉ trace :=
      fun member => absent (List.mem_append_left more member)
    have absentBehind : Access.write cell ∉ more :=
      fun member => absent (List.mem_append_right trace member)
    rw [after.unwritten cell absentBehind, earlier.unwritten cell absentBefore]

/-- A cell that no write may reach keeps its contents. -/
theorem Confined.unchanged (confined : Confined bound movable h later trace) {cell : Nat}
    (fixed : ¬ movable cell) : later.pq[cell]? = h.pq[cell]? :=
  confined.unwritten cell (fun member => fixed (confined.written cell member))

theorem Confined.beyond (confined : Confined bound movable h later trace) {cell : Nat}
    (outside : bound ≤ cell) : later.pq[cell]? = h.pq[cell]? := by
  apply confined.unwritten cell
  intro member
  have below : (cell : Int) < bound := (confined.inRange _ member).2
  omega

/-! ### One comparison and one exchange -/

theorem heapElementLtRecorded_trace (mem : Memory) (h : Heap) (lhs rhs : Int) :
    Yields (heapElementLtRecorded mem h lhs rhs)
      (fun _ trace => trace = [.read lhs, .read rhs]) := by
  apply Yields.recorded_bind
  intro lhsCell _
  apply Yields.recorded_bind
  intro lhsInfo _
  apply Yields.recorded_bind
  intro rhsCell _
  apply Yields.recorded_bind
  intro rhsInfo _
  exact Yields.ite (fun _ => Yields.pure rfl) (fun _ => Yields.pure rfl)

theorem heapElementLtRecorded_reads (mem : Memory) (h : Heap) {lhs rhs : Int}
    (lhsIn : 0 ≤ lhs ∧ lhs < bound) (rhsIn : 0 ≤ rhs ∧ rhs < bound) :
    Yields (heapElementLtRecorded mem h lhs rhs) (fun _ trace => ReadsWithin bound trace) := by
  apply (heapElementLtRecorded_trace mem h lhs rhs).weaken
  rintro _ _ rfl access member
  simp only [List.mem_cons, List.not_mem_nil, or_false] at member
  rcases member with rfl | rfl
  · exact ⟨lhs, rfl, lhsIn⟩
  · exact ⟨rhs, rfl, rhsIn⟩

theorem heapSwapRecorded_trace (h : Heap) (lhs rhs : Int) :
    Yields (heapSwapRecorded h lhs rhs) (fun later trace =>
      trace = [.read lhs, .read rhs, .write lhs, .write rhs] ∧ later.heapSize = h.heapSize ∧
        ∀ cell : Nat, (cell : Int) ≠ lhs → (cell : Int) ≠ rhs →
          later.pq[cell]? = h.pq[cell]?) := by
  apply Yields.recorded_bind
  intro temp _
  apply Yields.recorded_bind
  intro other _
  apply Yields.recorded_bind
  intro halfway wroteLhs
  apply Yields.recorded_bind
  intro pq wroteRhs
  apply Yields.pure
  refine ⟨rfl, rfl, ?_⟩
  intro cell notLhs notRhs
  exact (Buffer.write_other wroteRhs notRhs).trans (Buffer.write_other wroteLhs notLhs)

theorem heapSwapRecorded_confined (h : Heap) {lhs rhs : Int} (lhsIn : 0 ≤ lhs ∧ lhs < bound)
    (rhsIn : 0 ≤ rhs ∧ rhs < bound) (lhsMoves : movable lhs) (rhsMoves : movable rhs) :
    Yields (heapSwapRecorded h lhs rhs) (fun later trace =>
      Confined bound movable h later trace ∧ later.heapSize = h.heapSize) := by
  apply (heapSwapRecorded_trace h lhs rhs).weaken
  rintro later _ ⟨rfl, sameSize, others⟩
  refine ⟨⟨?_, ?_, ?_⟩, sameSize⟩
  · intro access member
    simp only [List.mem_cons, List.not_mem_nil, or_false] at member
    rcases member with rfl | rfl | rfl | rfl
    · exact lhsIn
    · exact rhsIn
    · exact lhsIn
    · exact rhsIn
  · intro index member
    simp only [List.mem_cons, List.not_mem_nil, or_false, reduceCtorEq, false_or,
      Access.write.injEq] at member
    rcases member with rfl | rfl
    · exact lhsMoves
    · exact rhsMoves
  · intro cell absent
    simp only [List.mem_cons, List.not_mem_nil, or_false, reduceCtorEq, false_or,
      Access.write.injEq, not_or] at absent
    exact others cell absent.1 absent.2

/-! ### The loops -/

/-- The cells an element can pass on its way from `start` to the root. -/
def OnPathToRoot (start index : Int) : Prop :=
  Relation.ReflTransGen (fun child above => above = parent child) start index

/-- The cells an element can pass on its way down from `root`. -/
def InSubtree (root index : Int) : Prop :=
  Relation.ReflTransGen (fun above child => child = lchild above ∨ child = rchild above)
    root index

theorem parent_bounds {index : Int} (positive : 0 < index) :
    0 ≤ parent index ∧ parent index < index := by
  rw [parent, Int.tdiv_eq_ediv_of_nonneg (by omega)]
  omega

/-- The bounds and the path need no fact about the contents: each round goes on
with the parent of an index in use. -/
theorem upheapLoopRecorded_confined (mem : Memory) (fuel : Nat) (h : Heap) {start index : Int}
    (onPath : OnPathToRoot start index) (indexIn : 0 ≤ index ∧ index < bound) :
    Yields (upheapLoopRecorded mem fuel h index) (Confined bound (OnPathToRoot start) h) := by
  induction fuel generalizing h index with
  | zero => exact Yields.faulted
  | succ fuel ih =>
      apply Yields.ite
      · intro positive
        have above := parent_bounds positive
        have parentIn : 0 ≤ parent index ∧ parent index < bound := ⟨above.1, by omega⟩
        have parentOnPath : OnPathToRoot start (parent index) := onPath.tail rfl
        apply (heapElementLtRecorded_reads mem h indexIn parentIn).bind
        intro smaller reads readsOnly
        apply Yields.ite
        · intro _
          apply (heapSwapRecorded_confined h parentIn indexIn parentOnPath onPath).bind
          rintro swapped exchange ⟨exchanged, _⟩
          apply (ih swapped parentOnPath parentIn).weaken
          intro later rest moved
          exact readsOnly.confined.trans (exchanged.trans moved)
        · intro _
          apply Yields.pure
          exact readsOnly.confined.trans (Confined.refl bound _ h)
      · intro _
        exact Yields.pure (Confined.refl bound _ h)

/-- A round of `downheap` stays where it is or goes on with a child in use. -/
theorem downheapMinRecorded_reads (mem : Memory) (h : Heap) {index : Int} (nonnegative : 0 ≤ index)
    (hasChild : lchild index < h.heapSize) :
    Yields (downheapMinRecorded mem h index) (fun minIdx trace =>
      ReadsWithin h.heapSize trace ∧ minIdx < h.heapSize ∧
        (minIdx = index ∨ minIdx = lchild index ∨ minIdx = rchild index)) := by
  have indexIn : 0 ≤ index ∧ index < h.heapSize := by
    unfold lchild at hasChild
    omega
  have leftIn : 0 ≤ lchild index ∧ lchild index < h.heapSize := by
    unfold lchild at hasChild ⊢
    omega
  apply (heapElementLtRecorded_reads mem h leftIn indexIn).bind
  intro leftSmaller leftReads leftOnly
  -- the second comparison is made against whichever index the first one kept
  have kept : (if leftSmaller = true then lchild index else index) = index ∨
      (if leftSmaller = true then lchild index else index) = lchild index := by
    cases leftSmaller with
    | false => exact Or.inl rfl
    | true => exact Or.inr rfl
  generalize (if leftSmaller = true then lchild index else index) = minIdx at kept
  have minIn : 0 ≤ minIdx ∧ minIdx < h.heapSize := by
    rcases kept with same | same
    · rwa [same]
    · rwa [same]
  apply Yields.ite
  · intro hasRight
    have rightIn : 0 ≤ rchild index ∧ rchild index < h.heapSize := by
      refine ⟨?_, hasRight⟩
      unfold rchild
      omega
    apply (heapElementLtRecorded_reads mem h rightIn minIn).bind
    intro rightSmaller rightReads rightOnly
    apply Yields.pure
    refine ⟨leftOnly.append (rightOnly.append (ReadsWithin.nil _)), ?_⟩
    cases rightSmaller with
    | false => exact ⟨minIn.2, kept.imp id Or.inl⟩
    | true => exact ⟨hasRight, Or.inr (Or.inr rfl)⟩
  · intro _
    apply Yields.pure
    refine ⟨leftOnly.append (ReadsWithin.nil _), minIn.2, ?_⟩
    exact kept.imp id Or.inl

theorem downheapLoopRecorded_confined (mem : Memory) (fuel : Nat) (h : Heap) {start index : Int}
    (below : InSubtree start index) (nonnegative : 0 ≤ index) (sizeEq : h.heapSize = bound) :
    Yields (downheapLoopRecorded mem fuel h index) (Confined bound (InSubtree start) h) := by
  induction fuel generalizing h index with
  | zero => exact Yields.faulted
  | succ fuel ih =>
      apply Yields.ite
      · intro hasChild
        apply (downheapMinRecorded_reads mem h nonnegative hasChild).bind
        intro minIdx reads chosen
        obtain ⟨readsOnly, minLt, place⟩ := chosen
        rw [sizeEq] at readsOnly minLt
        apply Yields.ite
        · intro _
          apply Yields.pure
          exact readsOnly.confined.trans (Confined.refl bound _ h)
        · intro moved
          -- the break was not taken, so the loop goes on with a child
          have child : minIdx = lchild index ∨ minIdx = rchild index :=
            place.resolve_left (Ne.symm moved)
          have minBelow : InSubtree start minIdx := below.tail child
          have minIn : index < minIdx := by
            unfold lchild rchild at child
            omega
          apply (heapSwapRecorded_confined h ⟨nonnegative, by omega⟩ ⟨by omega, minLt⟩
            below minBelow).bind
          intro swapped exchange outcome
          apply (ih swapped minBelow (by omega) (outcome.2.trans sizeEq)).weaken
          intro later rest continued
          exact readsOnly.confined.trans (outcome.1.trans continued)
      · intro _
        exact Yields.pure (Confined.refl bound _ h)

/-! ### Whole sifts -/

/-- What a sift from one index may do to a heap of arbitrary contents. -/
structure SafelySifted (movable : Int → Prop) (h later : Heap) (trace : List Access) :
    Prop where
  accesses : ∀ access ∈ trace, 0 ≤ access.index ∧ access.index < h.heapSize
  writes : ∀ index, Access.write index ∈ trace → movable index
  sameSize : later.heapSize = h.heapSize
  permuted : (later.pq.take h.heapSize.toNat).Perm (h.pq.take h.heapSize.toNat)
  beyond : ∀ cell : Nat, h.heapSize ≤ cell → later.pq[cell]? = h.pq[cell]?
  elsewhere : ∀ cell : Nat, ¬ movable cell → later.pq[cell]? = h.pq[cell]?

/-- A recorded run whose original ends in a permutation of the cells in use is
a safe sift as soon as it is confined. -/
theorem safelySifted_of_confined {recording : Recording Heap} {original : Result Heap}
    {pq : Buffer} {cells other : Nat → ProcessPtr} {size : Nat}
    (erased : erase recording = original) (ended : original = .ok { h with pq := pq })
    (confined : Yields recording (Confined h.heapSize movable h))
    (sizeEq : h.heapSize = size) (holds : h.pq.Holds cells size) (laterHolds : pq.Holds other size)
    (sameBag : BinaryHeap.bag other size = BinaryHeap.bag cells size) :
    ∃ later trace, original = .ok later ∧ recording.run = .ok (later, trace) ∧
      SafelySifted movable h later trace := by
  obtain ⟨trace, ran⟩ := Traces.exists_trace (erased.trans ended)
  have footprint := confined.ends _ _ ran
  refine ⟨{ h with pq := pq }, trace, ended, ran, ?_⟩
  constructor
  · exact footprint.inRange
  · exact footprint.written
  · rfl
  · apply Multiset.coe_eq_coe.mp
    rw [sizeEq, Int.toNat_natCast, laterHolds.contents, holds.contents, sameBag]
  · intro cell outside
    exact footprint.beyond outside
  · intro cell fixed
    exact footprint.unchanged fixed

/-- Both sifts end, whatever the contents and wherever they start.  They touch
cells in use only and permute them; `upheap` moves nothing off the path to the
root, and `downheap` nothing outside the subtree. -/
theorem sifts_safe_on_any_contents (mem : Memory) (h : Heap)
    (withinCapacity : h.heapSize ≤ h.pq.length)
    (pointers : none ∉ h.pq.take h.heapSize.toNat) (start : Int) (nonnegative : 0 ≤ start)
    (inUse : start < h.heapSize) :
    (∃ later trace, upheap mem h start = .ok later ∧
      (upheapRecorded mem h start).run = .ok (later, trace) ∧
      SafelySifted (OnPathToRoot start) h later trace) ∧
    (∃ later trace, downheap mem h start = .ok later ∧
      (downheapRecorded mem h start).run = .ok (later, trace) ∧
      SafelySifted (InSubtree start) h later trace) := by
  obtain ⟨size, sizeEq⟩ := Int.eq_ofNat_of_zero_le (by omega : 0 ≤ h.heapSize)
  obtain ⟨index, rfl⟩ := Int.eq_ofNat_of_zero_le nonnegative
  rw [sizeEq, Int.toNat_natCast] at pointers
  obtain ⟨cells, holds⟩ := h.pq.exists_holds (by omega) pointers
  have indexLt : index < size := by omega
  constructor
  · obtain ⟨pq, ended, _, laterHolds⟩ :=
      upheapLoop_eq mem (index + 1) h cells index (Nat.lt_succ_self index) holds indexLt
    exact safelySifted_of_confined (upheapLoopRecorded_erase mem _ h _) ended
      (upheapLoopRecorded_confined mem _ h Relation.ReflTransGen.refl ⟨nonnegative, inUse⟩)
      sizeEq holds laterHolds (BinaryHeap.bag_siftUp _ cells size index indexLt)
  · obtain ⟨pq, ended, _, laterHolds⟩ :=
      downheapLoop_eq mem (h.heapSize.toNat + 1) h cells index (by omega) holds sizeEq
        (Nat.succ_pos _)
    exact safelySifted_of_confined (downheapLoopRecorded_erase mem _ h _) ended
      (downheapLoopRecorded_confined mem _ h Relation.ReflTransGen.refl nonnegative rfl)
      sizeEq holds laterHolds (BinaryHeap.bag_siftDown _ cells size index)

private def siftSampleMemory : Memory := fun process =>
  { arrivalTime := 0, timeNeeded := 10 - process, remainingTime := 10 - process, pid := process }

private def unorderedHeap : Heap :=
  { pq := [some 3, some 0, some 4, some 1, some 2, none, some 9], heapSize := 5 }

theorem sifts_safe_on_unordered_heap :
    heapElementLt siftSampleMemory unorderedHeap 2 (parent 2) = .ok true ∧
    heapElementLt siftSampleMemory unorderedHeap 4 (parent 4) = .ok true ∧
    (∃ later trace, upheap siftSampleMemory unorderedHeap 4 = .ok later ∧
      (upheapRecorded siftSampleMemory unorderedHeap 4).run = .ok (later, trace) ∧
      SafelySifted (OnPathToRoot 4) unorderedHeap later trace) ∧
    (∃ later trace, downheap siftSampleMemory unorderedHeap 4 = .ok later ∧
      (downheapRecorded siftSampleMemory unorderedHeap 4).run = .ok (later, trace) ∧
      SafelySifted (InSubtree 4) unorderedHeap later trace) :=
  ⟨rfl, rfl, sifts_safe_on_any_contents siftSampleMemory unorderedHeap (by decide) (by decide) 4
    (by decide) (by decide)⟩

end UserScheduler
