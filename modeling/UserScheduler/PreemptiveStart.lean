/-
The PSJF scheduler cannot take in its first process.

`add_process_PSJF` asserts that the running process is the heap's top and then
charges it.  Before the first arrival there is no running process, and the top
is an unwritten cell: either the assertion fails, or it holds because the cell
happens to be null and the charge dereferences it.  This does not depend on the
input, on the pids, or on what malloc returned.
-/

import UserScheduler.EventRuns

namespace UserScheduler

open Machines

/-- The assertions of PSJF.c hold and its pointer to the running process is
valid in every call the event loop makes. -/
def PSJF.NeverAborts (fork : Core → ProcessPtr → Int) (entries : List Entry)
    (garbage : Nat → Option ProcessPtr) : Prop :=
  ∀ history now event, (eventMachine fork).Run (start .PSJF entries garbage) history now →
    (eventMachine fork).enabled now event →
      iterate fork now event ≠ .error .assertionFailed ∧
        iterate fork now event ≠ .error .nullDereference

/-- Adding to an idle PSJF scheduler faults whatever the top cell holds. -/
theorem PSJF.addProcess_idle (mem : Memory) (s : PSJF.State) (process : ProcessPtr)
    (idle : s.activeProcess = none) {top : Option ProcessPtr} (atTop : heapTop s.pq = .ok top) :
    PSJF.addProcess mem s process = .error .assertionFailed ∨
      PSJF.addProcess mem s process = .error .nullDereference := by
  unfold PSJF.addProcess
  rw [atTop, ok_bind, idle]
  cases top with
  | none =>
      right
      rfl
  | some stale =>
      left
      rfl

theorem heapTop_init (garbage : Nat → Option ProcessPtr) {maxSize : Nat}
    (positive : 0 < maxSize) : heapTop (heapInit garbage maxSize) = .ok (garbage 0) := by
  apply Buffer.read_eq
  rw [heapInit, malloc, List.getElem?_map, List.getElem?_range positive]
  rfl

/-- Before the first arrival no child runs, so nothing else can happen. -/
theorem PSJF.first_event (fork : Core → ProcessPtr → Int) (entries : List Entry)
    (garbage : Nat → Option ProcessPtr) (event : LoopEvent)
    (allowed : (eventMachine fork).enabled (start .PSJF entries garbage) event) :
    event = .arrival := by
  cases event with
  | arrival => rfl
  | timeslice =>
      have isRR : ScheduleStrategy.PSJF = .RR := allowed.2
      cases isRR
  | child process =>
      have running : (none : Option ProcessPtr) = some process := allowed.2
      cases running

theorem PSJF.first_arrival_faults (fork : Core → ProcessPtr → Int) (entries : List Entry)
    (garbage : Nat → Option ProcessPtr) (nonempty : entries ≠ []) :
    iterate fork (start .PSJF entries garbage) .arrival = .error .assertionFailed ∨
      iterate fork (start .PSJF entries garbage) .arrival = .error .nullDereference := by
  have positive : 0 < entries.length := List.length_pos_iff.mpr nonempty
  have unwritten : heapTop (initCore .PSJF entries garbage).psjf.pq = .ok (garbage 0) :=
    heapTop_init garbage positive
  let forked := forkSuspended fork { initCore .PSJF entries garbage with arrivalPtr := 1 } 0
  have adding : addArrivedProcess fork (initCore .PSJF entries garbage) =
      addToScheduler forked 0 := if_pos positive
  -- a fault of the first `add_process_PSJF` is the outcome of the iteration
  have outcome (reason : Fault)
      (faulted : PSJF.addProcess forked.allProcessInfo forked.psjf 0 = .error reason) :
      iterate fork (start .PSJF entries garbage) .arrival = .error reason := by
    have atScheduler : addToScheduler forked 0 = .error reason := by
      change (PSJF.addProcess forked.allProcessInfo forked.psjf 0 >>= _) = _
      rw [faulted]
      rfl
    change (addArrivedProcess fork (initCore .PSJF entries garbage) >>= _) >>= _ >>= _ = _
    rw [adding, atScheduler]
    rfl
  rcases PSJF.addProcess_idle forked.allProcessInfo forked.psjf 0 rfl unwritten with
    aborted | aborted
  · exact Or.inl (outcome _ aborted)
  · exact Or.inr (outcome _ aborted)

/-- No input gets past its first event, and so none meets the contract. -/
theorem PSJF.aborts_on_every_input (fork : Core → ProcessPtr → Int) (entries : List Entry)
    (garbage : Nat → Option ProcessPtr) (valid : ValidInput entries) :
    ¬ PSJF.NeverAborts fork entries garbage ∧
      ∀ event, (eventMachine fork).enabled (start .PSJF entries garbage) event →
        iterate fork (start .PSJF entries garbage) event = .error .assertionFailed ∨
          iterate fork (start .PSJF entries garbage) event = .error .nullDereference := by
  have faults := PSJF.first_arrival_faults fork entries garbage valid.nonempty
  constructor
  · intro never
    have pending : arrivalQueueEmpty (initCore .PSJF entries garbage) = false := by
      have positive : 0 < entries.length := List.length_pos_iff.mpr valid.nonempty
      exact beq_eq_false_iff_ne.mpr (Nat.ne_of_lt positive)
    obtain ⟨noAssertion, noNull⟩ := never [] _ .arrival .start ⟨rfl, pending⟩
    rcases faults with aborted | aborted
    · exact noAssertion aborted
    · exact noNull aborted
  · intro event allowed
    rw [PSJF.first_event fork entries garbage event allowed]
    exact faults

/-- The shipped input PSJF_4.txt. -/
def psjf4 : List Entry :=
  [⟨0, 7000⟩, ⟨0, 2000⟩, ⟨100, 1000⟩, ⟨200, 4000⟩]

theorem psjf4_valid : ValidInput psjf4 := by
  constructor
  · decide
  · decide
  · decide
  · decide

/-- With zeroed memory from malloc the first arrival dereferences null. -/
theorem PSJF.aborts_on_psjf4 :
    ¬ PSJF.NeverAborts (fun _ process => 100 + process) psjf4 (fun _ => none) ∧
      iterate (fun _ process => 100 + process) (start .PSJF psjf4 fun _ => none) .arrival =
        .error .nullDereference := by
  have aborted : iterate (fun _ process => 100 + process) (start .PSJF psjf4 fun _ => none)
      .arrival = .error .nullDereference := rfl
  refine ⟨?_, aborted⟩
  intro never
  exact (never [] _ .arrival .start ⟨rfl, rfl⟩).2 aborted

theorem PSJF.aborts_on_every_input_psjf4 :
    ValidInput psjf4 ∧ ¬ PSJF.NeverAborts (fun _ process => 100 + process) psjf4 (fun _ => none) :=
  ⟨psjf4_valid, (PSJF.aborts_on_every_input _ psjf4 _ psjf4_valid).1⟩

end UserScheduler
