/-
The whole program, from the text on its standard input to the lines that it
prints.

`measure_time_unit` and the children run the same loop, so with true clocks the
unit of the timer is the unit of the work.  Whether an input can be served, and
how long it takes, is then a matter of the numbers in the file.
-/

import UserScheduler.ProgramStart
import UserScheduler.SystemOrder
import UserScheduler.SystemTermination

namespace UserScheduler

open Machines Tokens
open RR (UsableUnit arrivalOf ArrivalOrder OffSlices)
open Input (Unwritten NamedEntry Writable fileWords readInput readInput_written)

/-! ### Conditions on the input -/

/-- What main prints after its loop. -/
def mainPrint (names : List (List Char)) (core : Core) : List Char :=
  names.zipIdx.flatMap fun process =>
    process.1 ++ ' ' :: decimal (pidOf core process.2) ++ ['\n']

/-- The units of time that a process runs. -/
def unitsOf (entries : List Entry) (process : ProcessPtr) : Int :=
  max 0 (readProcessInfo entries process).timeNeeded

/-- When the first so many processes are done, in units. -/
def unitsUntil (entries : List Entry) (count : Nat) : Int :=
  SingleServer.completion (arrivalOf entries) (unitsOf entries) count

/-- The inputs that a strategy serves. -/
structure Runnable (entries : List Entry) (strategy : ScheduleStrategy) : Prop where
  order : ArrivalOrder entries
  notPSJF : strategy ≠ .PSJF
  offSlices : strategy = .RR → OffSlices entries
  noIdleGap : strategy = .SJF → ∀ process, process + 1 < entries.length →
    arrivalOf entries process < arrivalOf entries (process + 1) →
    arrivalOf entries (process + 1) < unitsUntil entries (process + 1)

variable {env : Environment} {entries : List Entry} {timeUnit : Timespec}
  {strategy : ScheduleStrategy}

theorem busyUntil_eq (entries : List Entry) (sameUnit : nanoseconds timeUnit = env.unitTime)
    (count : Nat) :
    busyUntil env entries timeUnit count = unitsUntil entries count * env.unitTime := by
  have inUnits : arrivalAt entries timeUnit = fun process =>
      AddMonoidHom.mulRight env.unitTime (arrivalOf entries process) := by
    funext process
    rw [arrivalAt, sameUnit]
    rfl
  rw [busyUntil, inUnits]
  exact SingleServer.completion_map (AddMonoidHom.mulRight env.unitTime)
    (fun _ _ le => Int.mul_le_mul_of_nonneg_right le env.nonnegative) count

theorem Runnable.servable (runnable : Runnable entries strategy) (works : ForkWorks env)
    (unit : UsableUnit timeUnit) (sameUnit : nanoseconds timeUnit = env.unitTime) :
    Servable env entries timeUnit strategy where
  order := runnable.order
  unit := unit
  works := works
  notPSJF := runnable.notPSJF
  offSlices := runnable.offSlices
  noIdleGap isSJF := by
    intro process inRange later
    rw [busyUntil_eq entries sameUnit, arrivalAt, sameUnit]
    exact Int.mul_lt_mul_of_pos_right (runnable.noIdleGap isSJF process inRange later)
      (sameUnit ▸ unit.positive)

/-! ### From the input to the report -/

def mixedProcesses : List NamedEntry :=
  [⟨"P1".toList, ⟨1, 3⟩⟩, ⟨"P2".toList, ⟨1, 2⟩⟩, ⟨"P3".toList, ⟨4, 700⟩⟩]

theorem mixedProcesses_writable : ∀ process ∈ mixedProcesses, Writable process := by
  simp only [mixedProcesses, List.forall_mem_cons]
  refine ⟨⟨?_, ?_, ?_, ?_⟩, ⟨?_, ?_, ?_, ?_⟩, ⟨?_, ?_, ?_, ?_⟩, nofun⟩ <;>
    simp [Input.PROCESS_NAME_MAX, Input.IsInt]

theorem mixedProcesses_runnable :
    Runnable (mixedProcesses.map NamedEntry.entry) .FIFO where
  order := ⟨by decide, by decide, by decide⟩
  notPSJF := by decide
  offSlices := nofun
  noIdleGap := nofun

end UserScheduler
