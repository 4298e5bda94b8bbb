/-
The FIFO, SJF and PSJF schedulers of FIFO.c, SJF.c and PSJF.c.

Each file's statics are a `State`.  A function that changes the priority of a
child returns the calls it makes, in order.  PSJF charges its running process
through the pointer it keeps, so its operations also return the process table.
-/

import UserScheduler.Heap

namespace UserScheduler

/-! ### FIFO -/

namespace FIFO

structure State where
  countProcess : Int
deriving DecidableEq, Repr

def setStrategy : State := { countProcess := 0 }

def addProcess (mem : Memory) (s : State) (p : ProcessPtr) : State × List PriorityCall :=
  ({ countProcess := s.countProcess + 1 }, [.resume (mem p).pid])

def removeCurrentProcess (s : State) : State :=
  { countProcess := s.countProcess - 1 }

def schedulerEmpty (s : State) : Bool := s.countProcess == 0

end FIFO

/-! ### Shortest job first -/

namespace SJF

structure State where
  inactiveHeap : Heap
  activeProcess : Option ProcessPtr
deriving DecidableEq, Repr

def setStrategy (garbage : Nat → Option ProcessPtr) (numProcess : Nat) : State :=
  { inactiveHeap := heapInit garbage numProcess
    activeProcess := none }

def addProcess (mem : Memory) (s : State) (newProcess : ProcessPtr) : Result State := do
  let heap ← heapInsert mem s.inactiveHeap newProcess
  return { s with inactiveHeap := heap }

def removeCurrentProcess (s : State) : State :=
  { s with activeProcess := none }

/-- There is no test for an empty heap before `heap_top` and `heap_pop`. -/
def contextSwitch (mem : Memory) (s : State) : Result (State × List PriorityCall) :=
  match s.activeProcess with
  | some _ => return (s, [])
  | none => do
      let top ← heapTop s.inactiveHeap
      let heap ← heapPop mem s.inactiveHeap
      let process ← load mem top
      return ({ inactiveHeap := heap, activeProcess := top }, [.resume process.pid])

def schedulerEmpty (s : State) : Bool :=
  heapSize s.inactiveHeap == 0 && s.activeProcess.isNone

end SJF

/-! ### Preemptive shortest job first -/

namespace PSJF

structure State where
  pq : Heap
  activeProcess : Option ProcessPtr
  lastContextSwitchTime : Int
  currentTime : Int
deriving DecidableEq, Repr

def setStrategy (garbage : Nat → Option ProcessPtr) (numProcess : Nat) : State :=
  { pq := heapInit garbage numProcess
    activeProcess := none
    lastContextSwitchTime := 0
    currentTime := 0 }

/-- `process->remaining_time -= amount` through a pointer that may be null. -/
def charge (mem : Memory) (amount : Int) : Option ProcessPtr → Result Memory
  | none => .error .nullDereference
  | some process => return mem.modify process fun info =>
      { info with remainingTime := info.remainingTime - amount }

def addProcess (mem : Memory) (s : State) (newProcess : ProcessPtr) :
    Result (Memory × State) := do
  let top ← heapTop s.pq
  assertTrue (s.activeProcess = top)
  let currentTime := (mem newProcess).arrivalTime
  let mem ← charge mem (currentTime - s.lastContextSwitchTime) s.activeProcess
  -- the charged process stays where it is: it was already at the top
  let pq ← heapInsert mem s.pq newProcess
  return (mem, { s with pq := pq, currentTime := currentTime })

def removeCurrentProcess (mem : Memory) (s : State) : Result State := do
  let top ← heapTop s.pq
  assertTrue (s.activeProcess = top)
  let process ← load mem s.activeProcess
  let pq ← heapPop mem s.pq
  return { s with
    pq := pq
    activeProcess := none
    currentTime := s.currentTime + process.remainingTime }

def contextSwitch (mem : Memory) (s : State) : Result (State × List PriorityCall) := do
  if heapEmpty s.pq then
    return ({ s with lastContextSwitchTime := s.currentTime }, [])
  let top ← heapTop s.pq
  if s.activeProcess = top then
    return ({ s with lastContextSwitchTime := s.currentTime }, [])
  let suspended := s.activeProcess.toList.map fun process =>
    PriorityCall.suspend (mem process).pid
  let process ← load mem top
  return ({ s with activeProcess := top, lastContextSwitchTime := s.currentTime },
    suspended ++ [.resume process.pid])

def schedulerEmpty (s : State) : Bool :=
  s.activeProcess.isNone && heapEmpty s.pq

end PSJF

end UserScheduler
