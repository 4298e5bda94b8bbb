/-
The round-robin array refines a ready queue.

The array is a queue read from the cursor to the end and then from the start
to the cursor.  `Arranged` splits the cells in use at the cursor, so that an
insertion, a removal and a slice end each move one process across the split.
-/

import Mathlib.Data.List.Induction
import UserScheduler.RoundRobin

namespace UserScheduler.RR

open Machines

/-- `pq[current_process_id .. process_count)` then `pq[0 .. current_process_id)`. -/
def readyQueue (s : State) : List (Option ProcessPtr) :=
  (s.pq.take s.processCount.toNat).drop s.currentProcessId.toNat ++
    (s.pq.take s.processCount.toNat).take s.currentProcessId.toNat

/-- The cells before the cursor, the cells from the cursor on, and the rest of
the buffer. -/
structure Arranged (s : State) (before after : List ProcessPtr) (spare : Buffer) : Prop where
  cells : s.pq = before.map some ++ (after.map some ++ spare)
  count : s.processCount = (before.length + after.length : Nat)
  occupied : after ≠ [] → s.currentProcessId = before.length
  vacant : after = [] → before = [] ∧ s.currentProcessId = -1 ∧ s.previousActiveId = -1
  previous : s.previousActiveId = -1 ∨
    0 ≤ s.previousActiveId ∧ s.previousActiveId < s.processCount

variable {s : State} {before after : List ProcessPtr} {spare : Buffer}

theorem Arranged.readyQueue_eq (arranged : Arranged s before after spare) :
    readyQueue s = (after ++ before).map some := by
  have inUse : s.pq.take s.processCount.toNat = before.map some ++ after.map some := by
    rw [arranged.cells, arranged.count, Int.toNat_natCast, ← List.append_assoc]
    apply List.take_left'
    rw [List.length_append, List.length_map, List.length_map]
  cases after with
  | nil =>
      obtain ⟨noneBefore, cursor, _⟩ := arranged.vacant rfl
      subst before
      rw [readyQueue, inUse, cursor]
      rfl
  | cons head tail =>
      have cursor := arranged.occupied (List.cons_ne_nil head tail)
      have width : (before.map (some : ProcessPtr → Option ProcessPtr)).length =
          before.length := List.length_map _
      rw [readyQueue, inUse, cursor, Int.toNat_natCast, List.drop_left' width,
        List.take_left' width, List.map_append]

/-! ### Reads and writes at a split -/

theorem read_split {buffer front rest : Buffer} {cell : Option ProcessPtr} {index : Int}
    (shape : buffer = front ++ cell :: rest) (place : index = front.length) :
    buffer.read index = .ok cell := by
  subst shape place
  apply Buffer.read_eq
  rw [List.getElem?_append_right (Nat.le_refl _), Nat.sub_self]
  rfl

theorem write_split {buffer front rest : Buffer} {old : Option ProcessPtr} {index : Int}
    (shape : buffer = front ++ old :: rest) (place : index = front.length)
    (new : Option ProcessPtr) : buffer.write index new = .ok (front ++ new :: rest) := by
  subst shape place
  have inRange : front.length < (front ++ old :: rest).length := by
    rw [List.length_append, List.length_cons]
    omega
  rw [Buffer.write_eq _ _ _ inRange, List.set_append_right _ _ (Nat.le_refl _), Nat.sub_self]
  rfl

/-- Shifting a block right by one frees its first cell. -/
theorem shiftRight_eq (front block rest : Buffer) (last : Option ProcessPtr) :
    ∃ kept, shiftRight block.length (front ++ (block ++ last :: rest))
      ((front.length : Int) + block.length - 1) = .ok (front ++ kept :: (block ++ rest)) := by
  induction block using List.reverseRecOn generalizing last rest with
  | nil => exact ⟨last, rfl⟩
  | append_singleton block cell ih =>
      obtain ⟨kept, shifted⟩ := ih (cell :: rest) cell
      refine ⟨kept, ?_⟩
      have shape : front ++ (block ++ [cell] ++ last :: rest) =
          (front ++ block) ++ cell :: last :: rest := by
        simp only [List.append_assoc, List.cons_append, List.nil_append]
      have width : ((front ++ block).length : Int) = front.length + block.length := by
        rw [List.length_append, Int.natCast_add]
      have target : front ++ (block ++ [cell] ++ last :: rest) =
          (front ++ (block ++ [cell])) ++ last :: rest := by
        simp only [List.append_assoc]
      rw [List.length_append, List.length_singleton, shiftRight,
        read_split shape (by rw [width]; omega), ok_bind,
        write_split target (by simp), ok_bind]
      have next : (front.length : Int) + (block.length + 1 : Nat) - 1 - 1 =
          front.length + block.length - 1 := by
        omega
      rw [next]
      simpa only [List.append_assoc, List.cons_append, List.nil_append] using shifted

/-- Shifting a block left by one overwrites the cell before it. -/
theorem shiftLeft_eq (front block rest : Buffer) (first : Option ProcessPtr) :
    ∃ kept, shiftLeft block.length (front ++ first :: (block ++ rest))
      ((front.length : Int) + 1) = .ok (front ++ (block ++ kept :: rest)) := by
  induction block generalizing front first with
  | nil => exact ⟨first, rfl⟩
  | cons cell block ih =>
      obtain ⟨kept, shifted⟩ := ih (front ++ [cell]) cell
      refine ⟨kept, ?_⟩
      have shape : front ++ first :: (cell :: block ++ rest) =
          (front ++ [first]) ++ cell :: (block ++ rest) := by
        simp only [List.append_assoc, List.cons_append, List.nil_append]
      rw [List.length_cons, shiftLeft,
        read_split shape (by rw [List.length_append, List.length_singleton]; rfl), ok_bind,
        write_split rfl (by omega : (front.length : Int) + 1 - 1 = front.length), ok_bind]
      rw [List.length_append, List.length_singleton, Int.natCast_add, Int.natCast_one] at shifted
      simpa only [List.append_assoc, List.cons_append, List.nil_append] using shifted

/-! ### The three operations -/

theorem setStrategy_arranged (garbage : Nat → Option ProcessPtr) (numProcess : Nat) :
    Arranged (setStrategy garbage numProcess) [] [] (malloc garbage numProcess) where
  cells := rfl
  count := rfl
  occupied impossible := absurd rfl impossible
  vacant _ := ⟨rfl, rfl, rfl⟩
  previous := Or.inl rfl

theorem addProcess_vacant {free : Option ProcessPtr} {rest : Buffer}
    (arranged : Arranged s before [] (free :: rest)) (process : ProcessPtr) :
    ∃ later, addProcess s process = .ok later ∧ later.previousActiveId = s.previousActiveId ∧
      Arranged later [] [process] rest := by
  obtain ⟨noneBefore, cursor, previous⟩ := arranged.vacant rfl
  subst before
  have isZero : s.processCount = 0 := arranged.count
  have shape : s.pq = [] ++ free :: rest := arranged.cells
  have written : s.pq.write 0 (some process) = .ok ([] ++ some process :: rest) :=
    write_split shape rfl (some process)
  refine ⟨{ s with
    pq := some process :: rest
    currentProcessId := 0
    processCount := s.processCount + 1 }, ?_, rfl, ?_⟩
  · rw [addProcess, if_pos isZero, previous]
    simp only [written, ok_bind]
    rfl
  · exact
      { cells := rfl
        count := by rw [isZero]; rfl
        occupied := fun _ => rfl
        vacant := fun impossible => absurd impossible (List.cons_ne_nil _ _)
        previous := Or.inl previous }

theorem addProcess_occupied {head : ProcessPtr} {tail : List ProcessPtr}
    {free : Option ProcessPtr} {rest : Buffer}
    (arranged : Arranged s before (head :: tail) (free :: rest)) (process : ProcessPtr) :
    ∃ later, addProcess s process = .ok later ∧ later.previousActiveId = s.previousActiveId ∧
      Arranged later (before ++ [process]) (head :: tail) rest := by
  have count := arranged.count
  have cursor := arranged.occupied (List.cons_ne_nil head tail)
  have notZero : s.processCount ≠ 0 := by
    rw [count, List.length_cons]
    omega
  obtain ⟨kept, shifted⟩ := shiftRight_eq (before.map some) ((head :: tail).map some) rest free
  rw [List.length_map, List.length_map] at shifted
  have written : Buffer.write (before.map some ++ kept :: ((head :: tail).map some ++ rest))
      before.length (some process) =
      .ok (before.map some ++ some process :: ((head :: tail).map some ++ rest)) :=
    write_split rfl (by rw [List.length_map]) (some process)
  have rounds : (s.processCount - s.currentProcessId).toNat = (head :: tail).length := by
    rw [count, cursor]
    omega
  have startIndex : s.processCount - 1 =
      (before.length : Int) + ((head :: tail).length : Nat) - 1 := by
    rw [count]
    omega
  refine ⟨{ s with
    pq := before.map some ++ some process :: ((head :: tail).map some ++ rest)
    currentProcessId := s.currentProcessId + 1
    processCount := s.processCount + 1 }, ?_, rfl, ?_⟩
  · rw [addProcess, if_neg notZero, rounds, startIndex, arranged.cells, shifted, ok_bind, cursor,
      written]
    rfl
  · exact
      { cells := by
          simp only [List.map_append, List.map_cons, List.map_nil, List.append_assoc,
            List.cons_append, List.nil_append]
        count := by
          change s.processCount + 1 = _
          rw [count, List.length_append, List.length_singleton]
          omega
        occupied := by
          intro _
          rw [cursor, List.length_append, List.length_singleton]
          rfl
        vacant := fun impossible => absurd impossible (List.cons_ne_nil _ _)
        previous := by
          rcases arranged.previous with unset | inRange
          · exact Or.inl unset
          · exact Or.inr ⟨inRange.1, Int.lt_trans inRange.2 (Int.lt_succ _)⟩ }

/-- A new process goes to the end of the queue, just before the cursor, or
starts the queue. -/
theorem addProcess_arranged (arranged : Arranged s before after spare) (room : spare ≠ [])
    (process : ProcessPtr) :
    ∃ later rest, addProcess s process = .ok later ∧ spare.length = rest.length + 1 ∧
      later.previousActiveId = s.previousActiveId ∧
      if after = [] then Arranged later [] [process] rest
      else Arranged later (before ++ [process]) after rest := by
  obtain ⟨free, rest, rfl⟩ := List.exists_cons_of_ne_nil room
  cases after with
  | nil =>
      obtain ⟨later, added, previous, laterArranged⟩ := addProcess_vacant arranged process
      refine ⟨later, rest, added, rfl, previous, ?_⟩
      rw [if_pos rfl]
      exact laterArranged
  | cons head tail =>
      obtain ⟨later, added, previous, laterArranged⟩ := addProcess_occupied arranged process
      refine ⟨later, rest, added, rfl, previous, ?_⟩
      rw [if_neg (List.cons_ne_nil head tail)]
      exact laterArranged

/-- The process under the cursor goes; the cursor stays, or wraps to the start. -/
theorem removeCurrentProcess_arranged {head : ProcessPtr} {tail : List ProcessPtr}
    (arranged : Arranged s before (head :: tail) spare) :
    ∃ later rest, removeCurrentProcess s = .ok later ∧ rest.length = spare.length + 1 ∧
      later.previousActiveId = -1 ∧
      if tail = [] then Arranged later [] before rest
      else Arranged later before tail rest := by
  have cells := arranged.cells
  have count := arranged.count
  have cursor := arranged.occupied (List.cons_ne_nil head tail)
  obtain ⟨kept, shifted⟩ := shiftLeft_eq (before.map some) (tail.map some) spare (some head)
  rw [List.length_map, List.length_map] at shifted
  have rounds : (s.processCount - (s.currentProcessId + 1)).toNat = tail.length := by
    rw [count, cursor, List.length_cons]
    omega
  have shrunk : s.processCount - 1 = (before.length + tail.length : Nat) := by
    rw [count, List.length_cons]
    omega
  refine ⟨{
    pq := before.map some ++ (tail.map some ++ kept :: spare)
    previousActiveId := -1
    processCount := (before.length + tail.length : Nat)
    currentProcessId :=
      if ((before.length + tail.length : Nat) : Int) = 0 then -1
      else if (before.length : Int) = (before.length + tail.length : Nat) then 0
      else before.length }, kept :: spare, ?_, rfl, rfl, ?_⟩
  · rw [removeCurrentProcess, rounds, cursor, cells]
    simp only [List.map_cons, List.cons_append, shifted, ok_bind, shrunk]
    rfl
  · cases tail with
    | nil =>
        rw [if_pos rfl]
        exact
          { cells := rfl
            count := by rw [List.length_nil, Nat.zero_add]; rfl
            occupied := by
              intro someBefore
              have positive := List.length_pos_iff.mpr someBefore
              simp only [List.length_nil, Nat.add_zero, if_true]
              rw [if_neg (by omega)]
              rfl
            vacant := by
              intro noneBefore
              subst before
              exact ⟨rfl, rfl, rfl⟩
            previous := Or.inl rfl }
    | cons second others =>
        rw [if_neg (List.cons_ne_nil second others)]
        exact
          { cells := by rw [List.map_cons]
            count := rfl
            occupied := by
              intro _
              simp only [List.length_cons]
              rw [if_neg (by omega), if_neg (by omega)]
            vacant := fun impossible => absurd impossible (List.cons_ne_nil _ _)
            previous := Or.inl rfl }

/-- The cursor moves on by one process, or back to the start. -/
theorem timesliceOver_arranged {head : ProcessPtr} {tail : List ProcessPtr}
    (arranged : Arranged s before (head :: tail) spare) :
    (timesliceOver s).previousActiveId = before.length ∧
      if tail = [] then Arranged (timesliceOver s) [] (before ++ [head]) spare
      else Arranged (timesliceOver s) (before ++ [head]) tail spare := by
  have cells := arranged.cells
  have count := arranged.count
  have cursor := arranged.occupied (List.cons_ne_nil head tail)
  have inRange : (timesliceOver s).previousActiveId = -1 ∨
      0 ≤ (timesliceOver s).previousActiveId ∧
        (timesliceOver s).previousActiveId < (timesliceOver s).processCount := by
    right
    change 0 ≤ s.currentProcessId ∧ s.currentProcessId < s.processCount
    rw [cursor, count, List.length_cons]
    omega
  have notNegative : ¬ (before.length : Int) < 0 := by omega
  refine ⟨cursor, ?_⟩
  cases tail with
  | nil =>
      rw [if_pos rfl]
      exact
        { cells := by
            change s.pq = _
            simp only [cells, List.map_append, List.map_cons, List.map_nil, List.nil_append,
              List.cons_append, List.append_assoc]
          count := by
            change s.processCount = _
            rw [count, List.length_append, List.length_nil, Nat.zero_add]
          occupied := by
            intro _
            have atEnd : (before.length : Int) + 1 = s.processCount := by
              rw [count]
              rfl
            simp only [timesliceOver, advance, cursor, if_neg notNegative, if_pos atEnd]
            rfl
          vacant := by
            intro impossible
            cases before <;> cases impossible
          previous := inRange }
  | cons second others =>
      rw [if_neg (List.cons_ne_nil second others)]
      exact
        { cells := by
            change s.pq = _
            simp only [cells, List.map_append, List.map_cons, List.map_nil, List.nil_append,
              List.cons_append, List.append_assoc]
          count := by
            change s.processCount = _
            rw [count, List.length_append, List.length_singleton, List.length_cons]
            omega
          occupied := by
            intro _
            have notAtEnd : ¬ (before.length : Int) + 1 = s.processCount := by
              rw [count, List.length_cons, List.length_cons]
              omega
            simp only [timesliceOver, advance, cursor, if_neg notNegative, if_neg notAtEnd]
            rw [List.length_append, List.length_singleton]
            rfl
          vacant := fun impossible => absurd impossible (List.cons_ne_nil _ _)
          previous := inRange }

/-- An empty queue has nothing to rotate. -/
theorem timesliceOver_vacant (arranged : Arranged s before [] spare) :
    timesliceOver s = s := by
  obtain ⟨_, cursor, previous⟩ := arranged.vacant rfl
  have advanced : advance s s.currentProcessId = s.currentProcessId := by
    rw [advance, cursor]
    rfl
  cases s with
  | mk pq currentProcessId previousActiveId processCount =>
      change currentProcessId = -1 at cursor
      change previousActiveId = -1 at previous
      simp only [timesliceOver] at advanced ⊢
      rw [advanced]
      simp only [cursor, previous]

/-! ### Runs -/

inductive QueueOp where
  | add (process : ProcessPtr)
  | timeslice
  | remove
deriving DecidableEq

/-- A ready queue: arrivals join at the tail, a slice end moves the head there,
and a termination drops the head. -/
def QueueOp.apply (queue : List (Option ProcessPtr)) : QueueOp → List (Option ProcessPtr)
  | .add process => queue ++ [some process]
  | .timeslice =>
      match queue with
      | [] => []
      | head :: tail => tail ++ [head]
  | .remove => queue.tail

def QueueOp.isAdd : QueueOp → Bool
  | .add _ => true
  | _ => false

/-- How many `add_process_RR` calls a history holds. -/
def adds (history : List QueueOp) : Nat := history.countP QueueOp.isAdd

def queueStep (s : State) : QueueOp → Result State
  | .add process => addProcess s process
  | .timeslice => return timesliceOver s
  | .remove => removeCurrentProcess s

def queueMachine : Machine State QueueOp Fault where
  enabled s
    | .remove => 0 < s.processCount
    | _ => True
  step := queueStep

instance (s : State) (op : QueueOp) : Decidable (queueMachine.enabled s op) :=
  match op with
  | .remove => inferInstanceAs (Decidable (0 < s.processCount))
  | .add _ => inferInstanceAs (Decidable True)
  | .timeslice => inferInstanceAs (Decidable True)

theorem Arranged.length_eq (arranged : Arranged s before after spare) :
    s.pq.length = before.length + after.length + spare.length := by
  rw [arranged.cells]
  simp only [List.length_append, List.length_map]
  omega

theorem Arranged.schedulerEmpty_iff (arranged : Arranged s before after spare) :
    schedulerEmpty s = true ↔ readyQueue s = [] := by
  rw [arranged.readyQueue_eq]
  have count := arranged.count
  cases after with
  | nil =>
      obtain ⟨noneBefore, cursor, _⟩ := arranged.vacant rfl
      subst before
      have isZero : s.processCount = 0 := count
      simp [schedulerEmpty, isZero, cursor]
  | cons head tail =>
      have notZero : s.processCount ≠ 0 := by
        rw [count, List.length_cons]
        omega
      simp [schedulerEmpty, notZero]

/-- A call that succeeds, keeps the array split and does to the queue what its
operation says. -/
def Carries (s : State) (spare : Buffer) (op : QueueOp) : Prop :=
  ∃ later before' after' spare', queueStep s op = .ok later ∧
    Arranged later before' after' spare' ∧ later.pq.length = s.pq.length ∧
    spare'.length + adds [op] ≥ spare.length ∧
    readyQueue later = op.apply (readyQueue s)

theorem add_carries (arranged : Arranged s before after spare) (room : spare ≠ [])
    (process : ProcessPtr) : Carries s spare (.add process) := by
  obtain ⟨later, rest, added, shorter, _, next⟩ := addProcess_arranged arranged room process
  have counted : adds [QueueOp.add process] = 1 := rfl
  have queue := arranged.readyQueue_eq
  have sameLength := arranged.length_eq
  split at next
  · rename_i isEmpty
    subst isEmpty
    obtain ⟨noneBefore, _, _⟩ := arranged.vacant rfl
    subst before
    refine ⟨later, [], [process], rest, added, next, ?_, by omega, ?_⟩
    · rw [next.length_eq, sameLength, shorter]
      simp only [List.length_nil, List.length_cons]
      omega
    · rw [next.readyQueue_eq, queue]
      rfl
  · refine ⟨later, before ++ [process], after, rest, added, next, ?_, by omega, ?_⟩
    · rw [next.length_eq, sameLength, shorter, List.length_append, List.length_singleton]
      omega
    · rw [next.readyQueue_eq, queue, QueueOp.apply, ← List.append_assoc, List.map_append]
      rfl

theorem timeslice_carries (arranged : Arranged s before after spare) :
    Carries s spare .timeslice := by
  have queue := arranged.readyQueue_eq
  cases after with
  | nil =>
      refine ⟨s, before, [], spare, ?_, arranged, rfl, Nat.le_add_right _ _, ?_⟩
      · rw [queueStep, timesliceOver_vacant arranged]
        rfl
      · obtain ⟨noneBefore, _, _⟩ := arranged.vacant rfl
        subst before
        rw [queue]
        rfl
  | cons head tail =>
      have next := (timesliceOver_arranged arranged).2
      split at next
      · rename_i isLast
        subst isLast
        refine ⟨timesliceOver s, [], before ++ [head], spare, rfl, next, rfl,
          Nat.le_add_right _ _, ?_⟩
        rw [next.readyQueue_eq, queue]
        simp [QueueOp.apply]
      · refine ⟨timesliceOver s, before ++ [head], tail, spare, rfl, next, rfl,
          Nat.le_add_right _ _, ?_⟩
        rw [next.readyQueue_eq, queue]
        simp [QueueOp.apply]

theorem remove_carries {head : ProcessPtr} {tail : List ProcessPtr}
    (arranged : Arranged s before (head :: tail) spare) : Carries s spare .remove := by
  obtain ⟨later, rest, removed, longer, _, next⟩ := removeCurrentProcess_arranged arranged
  have queue := arranged.readyQueue_eq
  have sameLength := arranged.length_eq
  split at next
  · rename_i isLast
    subst isLast
    refine ⟨later, [], before, rest, removed, next, ?_, by omega, ?_⟩
    · rw [next.length_eq, sameLength, longer]
      simp only [List.length_nil, List.length_cons]
      omega
    · rw [next.readyQueue_eq, queue]
      simp [QueueOp.apply]
  · refine ⟨later, before, tail, rest, removed, next, ?_, by omega, ?_⟩
    · rw [next.length_eq, sameLength, longer, List.length_cons]
      omega
    · rw [next.readyQueue_eq, queue]
      simp [QueueOp.apply]

/-- One call, seen on the split array and on the queue. -/
theorem queueStep_arranged (arranged : Arranged s before after spare) {op : QueueOp}
    (allowed : queueMachine.enabled s op) (room : op.isAdd = true → spare ≠ []) :
    Carries s spare op := by
  cases op with
  | add process => exact add_carries arranged (room rfl) process
  | timeslice => exact timeslice_carries arranged
  | remove =>
      cases after with
      | nil =>
          obtain ⟨noneBefore, _, _⟩ := arranged.vacant rfl
          subst before
          have positive : 0 < s.processCount := allowed
          rw [arranged.count] at positive
          exact absurd positive (by decide)
      | cons head tail => exact remove_carries arranged

theorem adds_append (history : List QueueOp) (op : QueueOp) :
    adds (history ++ [op]) = adds history + adds [op] := List.countP_append

/-- A call that still fits finds a free cell. -/
theorem spare_left_for_add {numProcess : Nat} {history : List QueueOp} {op : QueueOp}
    (free : numProcess ≤ spare.length + adds history)
    (fits : adds (history ++ [op]) ≤ numProcess) : op.isAdd = true → spare ≠ [] := by
  intro isAdd noSpare
  have counted : adds [op] = 1 := by
    rw [adds, List.countP_singleton, if_pos isAdd]
  rw [adds_append] at fits
  rw [noSpare, List.length_nil] at free
  omega

/-- As long as the buffer was allocated for all arrivals, some arrangement
explains every reachable state, and free cells only go to arrivals. -/
theorem queueMachine_arranged (garbage : Nat → Option ProcessPtr) (numProcess : Nat)
    {history : List QueueOp} {now : State}
    (run : queueMachine.Run (setStrategy garbage numProcess) history now)
    (bounded : adds history ≤ numProcess) :
    (∃ before after spare, Arranged now before after spare ∧
      numProcess ≤ spare.length + adds history) ∧
      now.pq.length = numProcess ∧ readyQueue now = history.foldl QueueOp.apply [] := by
  revert bounded
  apply run.history_invariant (fun history now => adds history ≤ numProcess →
    (∃ before after spare, Arranged now before after spare ∧
      numProcess ≤ spare.length + adds history) ∧
      now.pq.length = numProcess ∧ readyQueue now = history.foldl QueueOp.apply [])
  · intro _
    have arranged := setStrategy_arranged garbage numProcess
    refine ⟨⟨[], [], _, arranged, ?_⟩, malloc_length garbage numProcess, ?_⟩
    · rw [malloc_length]
      exact Nat.le_add_right _ _
    · rw [arranged.readyQueue_eq]
      rfl
  · intro history now op later earlier allowed stepped bounded
    have counted := adds_append history op
    obtain ⟨⟨before, after, spare, arranged, free⟩, capacity, queue⟩ := earlier (by omega)
    have room := spare_left_for_add free bounded
    obtain ⟨found, before', after', spare', same, arranged', sameLength, kept, queue'⟩ :=
      queueStep_arranged arranged allowed room
    have isLater : found = later := Except.ok.inj (same.symm.trans stepped)
    subst isLater
    refine ⟨⟨before', after', spare', arranged', by omega⟩, sameLength.trans capacity, ?_⟩
    rw [queue', queue, List.foldl_append]
    rfl

/-- Every sequence of calls with room for its arrivals acts on the array as on
a ready queue, and faults nowhere. -/
theorem roundRobin_refines_readyQueue (garbage : Nat → Option ProcessPtr) (numProcess : Nat)
    {history : List QueueOp} {now : State}
    (run : queueMachine.Run (setStrategy garbage numProcess) history now)
    (bounded : adds history ≤ numProcess) :
    now.pq.length = numProcess ∧ readyQueue now = history.foldl QueueOp.apply [] ∧
      (schedulerEmpty now = true ↔ readyQueue now = []) ∧
      ∀ op, queueMachine.enabled now op → adds (history ++ [op]) ≤ numProcess →
        ∃ later, queueMachine.step now op = .ok later ∧
          readyQueue later = op.apply (readyQueue now) := by
  obtain ⟨⟨before, after, spare, arranged, free⟩, capacity, queue⟩ :=
    queueMachine_arranged garbage numProcess run bounded
  refine ⟨capacity, queue, arranged.schedulerEmpty_iff, ?_⟩
  intro op allowed fits
  have room := spare_left_for_add free fits
  obtain ⟨later, _, _, _, stepped, _, _, _, queue'⟩ := queueStep_arranged arranged allowed room
  exact ⟨later, stepped, queue'⟩

theorem roundRobin_refines_readyQueue_five_calls :
    let calls : List QueueOp := [.add 4, .add 7, .timeslice, .remove, .add 2]
    ∃ now, queueMachine.Run (setStrategy (fun _ => none) 3) calls now ∧
      readyQueue now = [some 4, some 2] := by
  refine ⟨_, Machine.run_of_replay _ rfl, ?_⟩
  exact (roundRobin_refines_readyQueue (fun _ => none) 3
    (Machine.run_of_replay [.add 4, .add 7, .timeslice, .remove, .add 2] rfl) (by decide)).2.1

end UserScheduler.RR
