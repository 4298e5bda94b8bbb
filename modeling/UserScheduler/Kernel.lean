/-
The system around the event loop: children, the kernel's SCHED_FIFO queue and
a clock.

The scheduler never runs a child itself.  It changes priorities and goes to
sleep, and the kernel then gives the one processor to the first child of the
highest priority.  main has the highest priority of all, so a signal takes
effect at once and a handler takes no time; `set_parent_priority` is the reason
it is left out of the run queue.

A handler's calls are replayed on the kernel in the order in which they were
made.  `sched_setscheduler` refuses a pid that nobody has, and `set_priority`
then exits.
-/

import UserScheduler.Lib.RunQueue
import UserScheduler.RoundRobinClock
import UserScheduler.ProcessLog

namespace UserScheduler

open Machines RunQueues
open RR (expiresAt)

/-! ### Children -/

/-- What `fork_a_child` does in a child.  `startTime` is filled in when the
child first runs, and `left` is the processor time that its loop still takes. -/
structure Child where
  startTime : Option Timespec
  left : Int
deriving DecidableEq, Repr

/-- `sched_get_priority_min(SCHED_FIFO)` and `sched_get_priority_max(SCHED_FIFO)`. -/
structure PriorityRange where
  min : Int
  max : Int
  apart : min < max - 1

/-- `forked` counts the children so far, and `printed` holds the lines that
`printk` wrote. -/
structure Kernel where
  runQueue : RunQueue Int Int
  children : Int → Child
  forked : Nat
  printed : List (List Char)

/-- What the program finds when it runs. -/
structure Environment where
  priorities : PriorityRange
  /-- The pid of a child, from the kernel when the handler began and from what
  the handler has done since. -/
  fork : Kernel → Core → ProcessPtr → Int
  /-- `getnstimeofday` at a time. -/
  clock : Int → Timespec
  /-- How long `run_single_unit` takes. -/
  unitTime : Int
  nonnegative : 0 ≤ unitTime

variable (env : Environment)

/-- The loop of `fork_a_child` makes no iteration for a negative count. -/
def Environment.loopTime (childRunTime : Int) : Int := max 0 childRunTime * env.unitTime

/-- The priority of `resume_process` and `set_child_priority`. -/
def Environment.high : Int := env.priorities.max - 1

/-- The priority of `suspend_process`. -/
def Environment.low : Int := env.priorities.min

theorem Environment.low_lt_high : env.low < env.high := env.priorities.apart

/-! ### Calls -/

def setPriority (kernel : Kernel) (pid priority : Int) : Result Kernel :=
  match kernel.runQueue.setLevel pid priority with
  | some runQueue => return { kernel with runQueue := runQueue }
  | none => .error .schedulerExit

def setChild (kernel : Kernel) (pid : Int) (child : Child) : Kernel :=
  { kernel with children := fun other => if other = pid then child else kernel.children other }

/-- A child enters with the priority of main. -/
def forkChild (kernel : Kernel) (pid childRunTime : Int) : Kernel :=
  let entered := { kernel with
    runQueue := kernel.runQueue.enter pid env.priorities.max
    forked := kernel.forked + 1 }
  setChild entered pid { startTime := none, left := env.loopTime childRunTime }

def kernelCall (mem : Memory) (kernel : Kernel) : Call → Result Kernel
  | .addProcess p => return forkChild env kernel (mem p).pid (mem p).timeNeeded
  | .priority (.suspend pid) => setPriority kernel pid env.low
  | .priority (.resume pid) => setPriority kernel pid env.high
  | _ => return kernel

def kernelCalls (mem : Memory) : Kernel → List Call → Result Kernel
  | kernel, [] => return kernel
  | kernel, call :: rest => do
      let kernel ← kernelCall env mem kernel call
      kernelCalls mem kernel rest

/-! ### The system -/

/-- Times are nanoseconds since the timer was created. -/
structure System where
  loop : LoopState
  stopped : Bool
  now : Int
  deadline : Option Int
  kernel : Kernel

inductive SystemEvent where
  /-- Time passes, for the running child if there is one. -/
  | tick (elapsed : Int)
  /-- The running child makes its first steps. -/
  | begin
  /-- The running child has finished its loop and exits. -/
  | finish
  | alarm
deriving DecidableEq

/-- `set_child_priority` and `sys_log_process_start` -/
def childBegins (now : Int) (kernel : Kernel) (pid : Int) : Result Kernel := do
  let kernel ← setPriority kernel pid env.high
  return setChild kernel pid { kernel.children pid with startTime := some (env.clock now) }

/-- `sys_log_process_end` and `exit` -/
def childEnds (now : Int) (kernel : Kernel) (pid : Int) (startTime : Timespec) : Kernel :=
  { kernel with
    runQueue := kernel.runQueue.leave pid
    printed := kernel.printed ++
      [ProcessLog.printProcessInfo pid startTime (env.clock now)] }

/-- One iteration of main's loop, and its calls as the kernel sees them. -/
def wake (event : EventType) (s : System) : Result System := do
  let ended ← loopBody (env.fork s.kernel) { s.loop with eventType := event }
  let made := ended.1.core.calls.drop s.loop.core.calls.length
  let kernel ← kernelCalls env ended.1.core.allProcessInfo s.kernel made
  return { s with loop := ended.1, stopped := ended.2, kernel := kernel }

def tick (elapsed : Int) (s : System) : System :=
  let kernel :=
    match s.kernel.runQueue.running with
    | none => s.kernel
    | some pid => setChild s.kernel pid
        { s.kernel.children pid with left := (s.kernel.children pid).left - elapsed }
  { s with now := s.now + elapsed, kernel := kernel }

def systemStep (s : System) : SystemEvent → Result System
  | .tick elapsed => return tick elapsed s
  | .begin =>
      match s.kernel.runQueue.running with
      | none => return s
      | some pid => do
          let kernel ← childBegins env s.now s.kernel pid
          return { s with kernel := kernel }
  | .finish =>
      match s.kernel.runQueue.running with
      | none => return s
      | some pid =>
          match (s.kernel.children pid).startTime with
          | none => return s
          | some startTime =>
              wake env .childTerminated
                { s with kernel := childEnds env s.now s.kernel pid startTime }
  | .alarm => do
      let later ← wake env .timerExpired s
      return { later with deadline := expiresAt later.now later.loop.itValue }

/-- Time does not pass a deadline, nor does it pass while the running child
waits to begin or to exit. -/
def systemMachine : Machine System SystemEvent Fault where
  enabled s event := s.stopped = false ∧
    match event with
    | .tick elapsed => 0 < elapsed ∧ (∀ deadline ∈ s.deadline, s.now + elapsed ≤ deadline) ∧
        ∀ pid ∈ s.kernel.runQueue.running,
          (s.kernel.children pid).startTime.isSome = true ∧
            elapsed ≤ (s.kernel.children pid).left
    | .begin => ∃ pid ∈ s.kernel.runQueue.running,
        (s.kernel.children pid).startTime.isNone = true
    | .finish => ∃ pid ∈ s.kernel.runQueue.running,
        (s.kernel.children pid).startTime.isSome = true ∧ (s.kernel.children pid).left = 0
    | .alarm => s.deadline = some s.now
  step := systemStep env

instance (s : System) (event : SystemEvent) : Decidable ((systemMachine env).enabled s event) :=
  match event with
  | .tick _ => inferInstanceAs (Decidable (_ ∧ _ ∧ _ ∧ _))
  | .begin => inferInstanceAs (Decidable (_ ∧ ∃ pid ∈ s.kernel.runQueue.running, _))
  | .finish => inferInstanceAs (Decidable (_ ∧ ∃ pid ∈ s.kernel.runQueue.running, _ ∧ _))
  | .alarm => inferInstanceAs (Decidable (_ ∧ s.deadline = some s.now))

def emptyKernel : Kernel :=
  { runQueue := []
    children := fun _ => { startTime := none, left := 0 }
    forked := 0
    printed := [] }

/-- Just before the first `sigsuspend`.  The SIGALRM raised for an arrival at
time zero counts as an expiry at time zero. -/
def systemStart (strategy : ScheduleStrategy) (entries : List Entry)
    (garbage : Nat → Option ProcessPtr) (timeUnit : Timespec) : Result System := do
  let created ← createTimer (initCore strategy entries garbage) timeUnit
  return {
    loop := created.1
    stopped := false
    now := 0
    deadline := if created.2 then some 0 else expiresAt 0 created.1.itValue
    kernel := emptyKernel }

/-- `fork` succeeds, and never returns the pid of a child that is still
there: neither of one in the run queue nor of one forked since the handler
began. -/
structure ForkWorks : Prop where
  positive : ∀ kernel c p, 0 < env.fork kernel c p
  unused : ∀ kernel c p, env.fork kernel c p ∉ kernel.runQueue.tasks
  fresh : ∀ kernel c p earlier, kernel.forked ≤ earlier → earlier < p →
    (c.allProcessInfo earlier).pid ≠ env.fork kernel c p

end UserScheduler
