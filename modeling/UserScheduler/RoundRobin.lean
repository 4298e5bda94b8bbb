/-
The round-robin scheduler of RR.c.

The statics of the file are the fields of `State`.  The two `for` loops that
shift the array are written over their number of rounds, each round reading and
writing one checked cell.
-/

import UserScheduler.Process

namespace UserScheduler.RR

structure State where
  pq : Buffer
  currentProcessId : Int
  previousActiveId : Int
  processCount : Int
deriving DecidableEq, Repr

def advance (s : State) (n : Int) : Int :=
  if n < 0 then n
  else if n + 1 = s.processCount then 0
  else n + 1

def setStrategy (garbage : Nat → Option ProcessPtr) (numProcess : Nat) : State :=
  { pq := malloc garbage numProcess
    currentProcessId := -1
    previousActiveId := -1
    processCount := 0 }

/-- `for (i = start; rounds more times; i--) pq[i+1] = pq[i]` -/
def shiftRight : Nat → Buffer → Int → Result Buffer
  | 0, pq, _ => return pq
  | rounds + 1, pq, i => do
      let cell ← pq.read i
      let pq ← pq.write (i + 1) cell
      shiftRight rounds pq (i - 1)

/-- `for (i = start; rounds more times; i++) pq[i-1] = pq[i]` -/
def shiftLeft : Nat → Buffer → Int → Result Buffer
  | 0, pq, _ => return pq
  | rounds + 1, pq, i => do
      let cell ← pq.read i
      let pq ← pq.write (i - 1) cell
      shiftLeft rounds pq (i + 1)

def addProcess (s : State) (p : ProcessPtr) : Result State := do
  if s.processCount = 0 then
    assertTrue (s.previousActiveId < 0)
    let pq ← s.pq.write 0 (some p)
    return { s with pq := pq, currentProcessId := 0, processCount := s.processCount + 1 }
  else
    -- i runs from process_count - 1 down to current_process_id
    let pq ← shiftRight (s.processCount - s.currentProcessId).toNat s.pq (s.processCount - 1)
    let pq ← pq.write s.currentProcessId (some p)
    return { s with
      pq := pq
      currentProcessId := s.currentProcessId + 1
      processCount := s.processCount + 1 }

def removeCurrentProcess (s : State) : Result State := do
  -- i runs from current_process_id + 1 up to process_count - 1
  let pq ← shiftLeft (s.processCount - (s.currentProcessId + 1)).toNat s.pq
    (s.currentProcessId + 1)
  let count := s.processCount - 1
  return {
    pq := pq
    previousActiveId := -1
    processCount := count
    currentProcessId :=
      if count = 0 then -1
      else if s.currentProcessId = count then 0
      else s.currentProcessId }

def timesliceOver (s : State) : State :=
  { s with
    previousActiveId := s.currentProcessId
    currentProcessId := advance s s.currentProcessId }

/-- `if (index >= 0) call(pq[index]->pid);` -/
def callAt (mem : Memory) (s : State) (index : Int) (call : Int → PriorityCall) :
    Result (List PriorityCall) :=
  if 0 ≤ index then do
    let process ← load mem (← s.pq.read index)
    return [call process.pid]
  else return []

/-- Only the priorities of children change; the calls are returned in order. -/
def contextSwitch (mem : Memory) (s : State) : Result (List PriorityCall) := do
  let suspended ← callAt mem s s.previousActiveId .suspend
  let resumed ← callAt mem s s.currentProcessId .resume
  return suspended ++ resumed

def schedulerEmpty (s : State) : Bool :=
  s.processCount == 0 && decide (s.currentProcessId < 0)

end UserScheduler.RR
