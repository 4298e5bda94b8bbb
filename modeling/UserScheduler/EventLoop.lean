/-
The event handler of main.c.

`Core` is what the handler and the job schedulers share: the process table,
the arrival pointer and the schedulers' statics.  The timer is kept apart in
`LoopState`, since no scheduler sees it.  Every call the handler makes is also
appended to `calls`, which nothing reads back.

The kernel enters in two places.  `fork` gives the pid of the child forked for
a process, in whatever way from the state so far, and `timer_settime` refuses a
value that is not a valid timespec.
-/

import UserScheduler.JobSchedulers
import UserScheduler.RoundRobin
import UserScheduler.Timespec

namespace UserScheduler

/-- Observable actions of the handler, in the order it performs them. -/
inductive Call where
  | timerExpired
  | addProcess (process : ProcessPtr)
  | timesliceOver
  | wait
  | removeCurrentProcess
  | priority (call : PriorityCall)
deriving DecidableEq, Repr

structure Core where
  currentStrategy : ScheduleStrategy
  allProcessInfo : Memory
  numProcess : Nat
  arrivalPtr : Nat
  fifo : FIFO.State
  rr : RR.State
  sjf : SJF.State
  psjf : PSJF.State
  calls : List Call

/-! ### Interaction with the scheduler -/

/-- `p->pid = fork_a_child(p->time_needed); suspend_process(p->pid);` -/
def forkSuspended (fork : Core → ProcessPtr → Int) (c : Core) (p : ProcessPtr) : Core :=
  { c with
    allProcessInfo := c.allProcessInfo.modify p fun info => { info with pid := fork c p }
    calls := c.calls ++ [.addProcess p, .priority (.suspend (fork c p))] }

/-- The switch of `add_process`. -/
def addToScheduler (c : Core) (p : ProcessPtr) : Result Core :=
  match c.currentStrategy with
  | .FIFO =>
      let added := FIFO.addProcess c.allProcessInfo c.fifo p
      return { c with fifo := added.1, calls := c.calls ++ added.2.map .priority }
  | .RR => do
      let rr ← RR.addProcess c.rr p
      return { c with rr := rr }
  | .SJF => do
      let sjf ← SJF.addProcess c.allProcessInfo c.sjf p
      return { c with sjf := sjf }
  | .PSJF => do
      let added ← PSJF.addProcess c.allProcessInfo c.psjf p
      return { c with allProcessInfo := added.1, psjf := added.2 }

def addProcess (fork : Core → ProcessPtr → Int) (c : Core) (p : ProcessPtr) : Result Core :=
  if p < c.numProcess then addToScheduler (forkSuspended fork c p) p
  else .error .outOfBounds

/-- The switch of `remove_current_process`. -/
def removeFromScheduler (c : Core) : Result Core :=
  match c.currentStrategy with
  | .FIFO => return { c with fifo := FIFO.removeCurrentProcess c.fifo }
  | .RR => do
      let rr ← RR.removeCurrentProcess c.rr
      return { c with rr := rr }
  | .SJF => return { c with sjf := SJF.removeCurrentProcess c.sjf }
  | .PSJF => do
      let psjf ← PSJF.removeCurrentProcess c.allProcessInfo c.psjf
      return { c with psjf := psjf }

def removeCurrentProcess (c : Core) : Result Core :=
  removeFromScheduler { c with calls := c.calls ++ [.removeCurrentProcess] }

def timesliceOver (c : Core) : Result Core := do
  assertTrue (c.currentStrategy = .RR)
  return { c with rr := RR.timesliceOver c.rr, calls := c.calls ++ [.timesliceOver] }

def contextSwitch (c : Core) : Result Core :=
  match c.currentStrategy with
  | .FIFO => return c
  | .RR => do
      let made ← RR.contextSwitch c.allProcessInfo c.rr
      return { c with calls := c.calls ++ made.map .priority }
  | .SJF => do
      let switched ← SJF.contextSwitch c.allProcessInfo c.sjf
      return { c with sjf := switched.1, calls := c.calls ++ switched.2.map .priority }
  | .PSJF => do
      let switched ← PSJF.contextSwitch c.allProcessInfo c.psjf
      return { c with psjf := switched.1, calls := c.calls ++ switched.2.map .priority }

def schedulerEmpty (c : Core) : Bool :=
  match c.currentStrategy with
  | .FIFO => FIFO.schedulerEmpty c.fifo
  | .RR => RR.schedulerEmpty c.rr
  | .SJF => SJF.schedulerEmpty c.sjf
  | .PSJF => PSJF.schedulerEmpty c.psjf

/-! ### The arrival queue -/

def arrivalQueueEmpty (c : Core) : Bool := c.arrivalPtr == c.numProcess

def timeunitsUntilNextArrival (c : Core) : Result Int := do
  assertTrue (!arrivalQueueEmpty c)
  if c.arrivalPtr = 0 then
    return (c.allProcessInfo c.arrivalPtr).arrivalTime
  return (c.allProcessInfo c.arrivalPtr).arrivalTime -
    (c.allProcessInfo (c.arrivalPtr - 1)).arrivalTime

/-- `add_process(get_arrived_process())` -/
def addArrivedProcess (fork : Core → ProcessPtr → Int) (c : Core) : Result Core :=
  addProcess fork { c with arrivalPtr := c.arrivalPtr + 1 } c.arrivalPtr

/-- The `while` loop that takes in everything due at the same instant.  The
second component is the local variable `arrival_time`. -/
def addSimultaneous (fork : Core → ProcessPtr → Int) : Nat → Core → Int → Result (Core × Int)
  | 0, _, _ => .error .outOfFuel
  | fuel + 1, c, arrivalTime => do
      if arrivalQueueEmpty c then return (c, arrivalTime)
      let arrivalTime ← timeunitsUntilNextArrival c
      if arrivalTime = 0 then
        let c ← addArrivedProcess fork c
        addSimultaneous fork fuel c arrivalTime
      else return (c, arrivalTime)

def processArrival (fork : Core → ProcessPtr → Int) (c : Core) : Result (Core × Int) := do
  let c ← addArrivedProcess fork c
  addSimultaneous fork (c.numProcess + 1) c 0

/-- The branch of the loop for one event, without the timer. -/
def handleEvent (fork : Core → ProcessPtr → Int) (c : Core) : EventType → Result Core
  | .processArrival => do
      let admitted ← processArrival fork c
      return admitted.1
  | .timesliceOver => timesliceOver c
  | .childTerminated => removeCurrentProcess { c with calls := c.calls ++ [.wait] }
  | .timerExpired => return c

/-- The test at the end of the loop: `true` when it breaks. -/
def endIteration (c : Core) : Result (Core × Bool) :=
  if arrivalQueueEmpty c && schedulerEmpty c then return (c, true)
  else do
    let switched ← contextSwitch c
    return (switched, false)

/-! ### The timer -/

def RR_TIMES_OF_UNIT : Int := 500

structure TimerInfo where
  timeUnit : Timespec
  arrivalRemaining : Timespec
  timesliceRemaining : Timespec
deriving DecidableEq, Repr

def initTimesliceRemaining (c : Core) (ti : TimerInfo) : TimerInfo :=
  if c.currentStrategy ≠ .RR then ti
  else { ti with timesliceRemaining := timespecMultiply ti.timeUnit RR_TIMES_OF_UNIT }

def getExpireReason (c : Core) (ti : TimerInfo) : EventType :=
  if c.currentStrategy ≠ .RR then .processArrival
  else if arrivalQueueEmpty c then .timesliceOver
  else
    match minTimespecp ti.arrivalRemaining ti.timesliceRemaining with
    | .lhs => .processArrival
    | .rhs => .timesliceOver

def subtractTimePassed (c : Core) (ti : TimerInfo) : TimerInfo :=
  if c.currentStrategy = .RR ∧ arrivalQueueEmpty c = false then
    match minTimespecp ti.arrivalRemaining ti.timesliceRemaining with
    | .lhs =>
        { ti with
          timesliceRemaining := timespecSubtract ti.timesliceRemaining ti.arrivalRemaining
          arrivalRemaining := zeroTimespec }
    | .rhs =>
        { ti with
          arrivalRemaining := timespecSubtract ti.arrivalRemaining ti.timesliceRemaining
          timesliceRemaining := zeroTimespec }
  else ti

/-- The `it_value` that `set_timer` computes. -/
def itValue (c : Core) (ti : TimerInfo) : Timespec :=
  if c.currentStrategy ≠ .RR then ti.arrivalRemaining
  else if arrivalQueueEmpty c then ti.timesliceRemaining
  else
    match minTimespecp ti.arrivalRemaining ti.timesliceRemaining with
    | .lhs => ti.arrivalRemaining
    | .rhs => ti.timesliceRemaining

/-- `timer_settime` fails with EINVAL outside this range, and the scheduler
exits. -/
def timerSettime (value : Timespec) : Result Timespec :=
  if 0 ≤ value.tvSec ∧ 0 ≤ value.tvNsec ∧ value.tvNsec < BILLION then return value
  else .error .schedulerExit

def setTimer (c : Core) (ti : TimerInfo) : Result Timespec :=
  timerSettime (itValue c ti)

def assertNonnegetiveRemaining (remaining : Timespec) : Result Unit :=
  assertTrue (0 ≤ remaining.tvSec ∧ 0 ≤ remaining.tvNsec)

def updateArrivalRemaining (ti : TimerInfo) (timeUnits : Int) : Result TimerInfo := do
  assertNonnegetiveRemaining ti.arrivalRemaining
  return { ti with arrivalRemaining := timespecMultiply ti.timeUnit timeUnits }

def updateTimesliceRemaining (c : Core) (ti : TimerInfo) : Result TimerInfo := do
  if c.currentStrategy ≠ .RR then return ti
  assertNonnegetiveRemaining ti.timesliceRemaining
  return { ti with timesliceRemaining := timespecMultiply ti.timeUnit RR_TIMES_OF_UNIT }

/-! ### The loop -/

/-- `itValue` is what `timer_settime` was last given; zero means disarmed. -/
structure LoopState where
  core : Core
  timer : TimerInfo
  itValue : Timespec
  eventType : EventType

/-- The two inner branches of the timer branch, on the timer as
`subtract_time_passed` leaves it. -/
def handleExpiry (fork : Core → ProcessPtr → Int) (c : Core) (ti : TimerInfo) :
    EventType → Result (Core × TimerInfo)
  | .timesliceOver => do
      let c ← timesliceOver c
      let ti ← updateTimesliceRemaining c ti
      return (c, ti)
  | .processArrival => do
      let admitted ← processArrival fork c
      let ti ← updateArrivalRemaining ti admitted.2
      return (admitted.1, ti)
  | _ => return (c, ti)

/-- The branch `event_type == TIMER_EXPIRED`. -/
def timerBranch (fork : Core → ProcessPtr → Int) (s : LoopState) : Result LoopState := do
  let core := { s.core with calls := s.core.calls ++ [.timerExpired] }
  let reason := getExpireReason core s.timer
  let handled ← handleExpiry fork core (subtractTimePassed core s.timer) reason
  let armed ← setTimer handled.1 handled.2
  return { core := handled.1, timer := handled.2, itValue := armed, eventType := reason }

/-- The two outer branches of the loop, on the `event_type` the handlers left. -/
def dispatchEvent (fork : Core → ProcessPtr → Int) (s : LoopState) : Result LoopState :=
  match s.eventType with
  | .timerExpired => timerBranch fork s
  | .childTerminated => do
      let core ← handleEvent fork s.core .childTerminated
      return { s with core := core }
  | _ => return s

/-- One iteration after `sigsuspend` returned; `true` when the loop breaks. -/
def loopBody (fork : Core → ProcessPtr → Int) (s : LoopState) :
    Result (LoopState × Bool) := do
  let s ← dispatchEvent fork s
  let ended ← endIteration s.core
  return ({ s with core := ended.1 }, ended.2)

/-! ### Start -/

/-- One line of the input. -/
structure Entry where
  arrivalTime : Int
  timeNeeded : Int
deriving DecidableEq, Repr

def readSingleEntry (entry : Entry) : ProcessInfo :=
  { arrivalTime := entry.arrivalTime
    timeNeeded := entry.timeNeeded
    remainingTime := entry.timeNeeded
    pid := 0 }

def readProcessInfo (entries : List Entry) : Memory :=
  fun process => readSingleEntry (entries.getD process { arrivalTime := 0, timeNeeded := 0 })

/-- The state after `arrival_queue_init` and `set_strategy`.  Only the chosen
scheduler allocates; the others keep a null `pq`. -/
def initCore (strategy : ScheduleStrategy) (entries : List Entry)
    (garbage : Nat → Option ProcessPtr) : Core :=
  let room (owner : ScheduleStrategy) : Nat := if strategy = owner then entries.length else 0
  { currentStrategy := strategy
    allProcessInfo := readProcessInfo entries
    numProcess := entries.length
    arrivalPtr := 0
    fifo := FIFO.setStrategy
    rr := RR.setStrategy garbage (room .RR)
    sjf := SJF.setStrategy garbage (room .SJF)
    psjf := PSJF.setStrategy garbage (room .PSJF)
    calls := [] }

/-- `create_timer_and_init_timespec`; the flag says whether `raise(SIGALRM)`
was called. -/
def createTimer (core : Core) (timeUnit : Timespec) : Result (LoopState × Bool) := do
  let untilFirst ← timeunitsUntilNextArrival core
  let ti : TimerInfo :=
    { timeUnit := timeUnit
      arrivalRemaining := timespecMultiply timeUnit untilFirst
      timesliceRemaining := zeroTimespec }
  let ti := initTimesliceRemaining core ti
  let armed ← setTimer core ti
  return ({ core := core, timer := ti, itValue := armed, eventType := .timerExpired },
    untilFirst == 0)

end UserScheduler
