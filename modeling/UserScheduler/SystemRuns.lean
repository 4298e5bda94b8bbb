/-
Whole runs of the system under FIFO, RR and SJF.

The invariant ties five things together: the timer, the process table, the
scheduler's list, the kernel's run queue and the work that the children still
have to do.  The processor is never idle while a child is there, so the work
left is known at every moment from the input alone, whatever the order in which
the children run.

SJF takes from its heap without looking, so for SJF the input must keep the
processor busy until the last arrival.
-/

import UserScheduler.Dispatching
import UserScheduler.Timekeeping
import UserScheduler.Lib.SingleServer
import Mathlib.Algebra.Order.BigOperators.Group.List
import Mathlib.Algebra.Order.Ring.Int

namespace UserScheduler

open Machines RunQueues
open RR (UsableUnit arrivalOf Reads ArrivalOrder OffSlices expiresAt)

section Workload

variable (env : Environment) (entries : List Entry) (timeUnit : Timespec)

/-- When a process arrives, in nanoseconds. -/
def arrivalAt (process : ProcessPtr) : Int :=
  arrivalOf entries process * nanoseconds timeUnit

/-- The processor time that a process needs. -/
def workOf (process : ProcessPtr) : Int :=
  env.loopTime (readProcessInfo entries process).timeNeeded

/-- When the first so many processes are all done, if no other arrives. -/
def busyUntil (count : Nat) : Int :=
  SingleServer.completion (arrivalAt entries timeUnit) (workOf env entries) count

/-- Every process but those of the first group arrives while an earlier one is
unfinished. -/
def NoIdleGap : Prop :=
  ∀ process, process + 1 < entries.length →
    arrivalOf entries process < arrivalOf entries (process + 1) →
    arrivalAt entries timeUnit (process + 1) < busyUntil env entries timeUnit (process + 1)

/-- The conditions under which a strategy can be followed. -/
structure Workable (strategy : ScheduleStrategy) : Prop where
  order : ArrivalOrder entries
  unit : UsableUnit timeUnit
  works : ForkWorks env
  notPSJF : strategy ≠ .PSJF

/-- The conditions under which a strategy serves an input. -/
structure Servable (strategy : ScheduleStrategy) : Prop
    extends Workable env entries timeUnit strategy where
  offSlices : strategy = .RR → OffSlices entries
  noIdleGap : strategy = .SJF → NoIdleGap env entries timeUnit

end Workload

variable {env : Environment} {entries : List Entry} {timeUnit : Timespec}

theorem workOf_nonneg (env : Environment) (entries : List Entry) (process : ProcessPtr) :
    0 ≤ workOf env entries process :=
  Int.mul_nonneg (le_max_left _ _) env.nonnegative

/-- The processor time a process still needs. -/
def System.leftOf (s : System) (process : ProcessPtr) : Int :=
  (s.kernel.children (pidOf s.loop.core process)).left

/-- The work of all children together. -/
def System.backlog (s : System) (queue : List ProcessPtr) : Int :=
  (queue.map s.leftOf).sum

/-- How far a child has come. -/
structure ChildAt (child : Child) (work : Int) : Prop where
  nonnegative : 0 ≤ child.left
  bounded : child.left ≤ work
  fresh : child.startTime = none → child.left = work

/-- What holds whenever the loop waits. -/
structure Serving (env : Environment) (entries : List Entry) (timeUnit : Timespec)
    (strategy : ScheduleStrategy) (s : System) (queue : List ProcessPtr) : Prop where
  isStrategy : s.loop.core.currentStrategy = strategy
  timed : Timed entries timeUnit s.loop s.deadline
  reads : Reads entries s.loop.core
  needs : ∀ process,
    (s.loop.core.allProcessInfo process).timeNeeded =
        (readProcessInfo entries process).timeNeeded ∧
      (s.loop.core.allProcessInfo process).remainingTime =
        (readProcessInfo entries process).timeNeeded
  dispatching : Dispatching env s.loop.core queue s.kernel.runQueue
  forked : s.kernel.forked = s.loop.core.arrivalPtr
  ahead : ∀ deadline ∈ s.deadline, s.now ≤ deadline
  arrivals : ∀ process, process < s.loop.core.arrivalPtr →
    arrivalAt entries timeUnit process ≤ s.now
  apart : ∀ process, process + 1 = s.loop.core.arrivalPtr →
    process + 1 < entries.length → arrivalOf entries process < arrivalOf entries (process + 1)
  children : ∀ process ∈ queue,
    ChildAt (s.kernel.children (pidOf s.loop.core process)) (workOf env entries process)
  busy : queue ≠ [] →
    s.now + s.backlog queue = busyUntil env entries timeUnit s.loop.core.arrivalPtr
  idle : queue = [] → busyUntil env entries timeUnit s.loop.core.arrivalPtr ≤ s.now
  stops : s.stopped = true ↔ s.loop.core.arrivalPtr = entries.length ∧ queue = []

variable {strategy : ScheduleStrategy} {s : System} {queue : List ProcessPtr}

theorem Serving.backlog_nonneg (serving : Serving env entries timeUnit strategy s queue) :
    0 ≤ s.backlog queue := by
  apply List.sum_nonneg
  intro left member
  obtain ⟨process, inQueue, rfl⟩ := List.mem_map.mp member
  exact (serving.children process inQueue).nonnegative

/-! ### Between two iterations -/

theorem setChild_other (kernel : Kernel) (child : Child) {pid other : Int}
    (different : other ≠ pid) :
    (setChild kernel pid child).children other = kernel.children other := if_neg different

theorem setChild_same (kernel : Kernel) (pid : Int) (child : Child) :
    (setChild kernel pid child).children pid = child := if_pos rfl

/-- The head's pid is nobody else's. -/
theorem Dispatching.pid_ne {c : Core} {head other : ProcessPtr} {rest : List ProcessPtr}
    {runQueue : RunQueue Int Int} (dispatching : Dispatching env c (head :: rest) runQueue)
    (member : other ∈ rest) : pidOf c other ≠ pidOf c head := by
  intro same
  apply (List.nodup_cons.mp dispatching.distinct).1
  rw [← same]
  exact List.mem_map_of_mem member

/-- Time passes and the head's child changes; nothing else does. -/
theorem Serving.head_changes {head : ProcessPtr} {rest : List ProcessPtr}
    (serving : Serving env entries timeUnit strategy s (head :: rest)) (elapsed : Int)
    (positive : 0 ≤ elapsed) (before : ∀ deadline ∈ s.deadline, s.now + elapsed ≤ deadline)
    {child : Child} (changed : child.left = s.leftOf head - elapsed)
    (childAt : ChildAt child (workOf env entries head)) :
    Serving env entries timeUnit strategy { s with
      now := s.now + elapsed
      kernel := setChild s.kernel (pidOf s.loop.core head) child } (head :: rest) := by
  let later : System := { s with
    now := s.now + elapsed
    kernel := setChild s.kernel (pidOf s.loop.core head) child }
  have others : ∀ process ∈ rest, later.kernel.children (pidOf s.loop.core process) =
      s.kernel.children (pidOf s.loop.core process) := by
    intro process member
    exact setChild_other _ _ (serving.dispatching.pid_ne member)
  have isHead : later.kernel.children (pidOf s.loop.core head) = child := setChild_same _ _ _
  exact
    { isStrategy := serving.isStrategy
      timed := serving.timed
      reads := serving.reads
      needs := serving.needs
      dispatching := serving.dispatching
      forked := serving.forked
      ahead := before
      arrivals := by
        intro process arrived
        have early := serving.arrivals process arrived
        change _ ≤ s.now + elapsed
        omega
      apart := serving.apart
      children := by
        intro process member
        rcases List.mem_cons.mp member with isFirst | inRest
        · rw [isFirst, isHead]
          exact childAt
        · rw [others process inRest]
          exact serving.children process member
      busy := by
        intro _
        have before := serving.busy (List.cons_ne_nil _ _)
        have rest' : rest.map later.leftOf = rest.map s.leftOf := by
          apply List.map_congr_left
          intro process member
          exact congrArg Child.left (others process member)
        have first : later.leftOf head = s.leftOf head - elapsed :=
          (congrArg Child.left isHead).trans changed
        rw [System.backlog, List.map_cons, List.sum_cons] at before ⊢
        rw [rest', first]
        change s.now + elapsed + _ = busyUntil env entries timeUnit s.loop.core.arrivalPtr
        omega
      idle := nofun
      stops := serving.stops }

/-- An idle processor waits. -/
theorem Serving.waits (serving : Serving env entries timeUnit strategy s []) (elapsed : Int)
    (positive : 0 ≤ elapsed) (before : ∀ deadline ∈ s.deadline, s.now + elapsed ≤ deadline) :
    Serving env entries timeUnit strategy { s with now := s.now + elapsed } [] :=
  { serving with
    ahead := before
    arrivals := by
      intro process arrived
      have early := serving.arrivals process arrived
      change _ ≤ s.now + elapsed
      omega
    busy := fun impossible => absurd rfl impossible
    idle := by
      intro isEmpty
      have late := serving.idle isEmpty
      change busyUntil env entries timeUnit s.loop.core.arrivalPtr ≤ s.now + elapsed
      omega }

theorem tick_idle (isRunning : s.kernel.runQueue.running = none) (elapsed : Int) :
    tick elapsed s = { s with now := s.now + elapsed } := by
  simp only [tick, isRunning]

theorem tick_running {pid : Int} (isRunning : s.kernel.runQueue.running = some pid)
    (elapsed : Int) :
    tick elapsed s = { s with
      now := s.now + elapsed
      kernel := setChild s.kernel pid
        { s.kernel.children pid with left := (s.kernel.children pid).left - elapsed } } := by
  simp only [tick, isRunning]

theorem Serving.tick (serving : Serving env entries timeUnit strategy s queue) {elapsed : Int}
    (allowed : (systemMachine env).enabled s (.tick elapsed)) :
    Serving env entries timeUnit strategy (tick elapsed s) queue := by
  obtain ⟨_, positive, before, able⟩ := allowed
  have running := serving.dispatching.running
  cases queue with
  | nil =>
      rw [tick_idle running]
      exact serving.waits elapsed (Int.le_of_lt positive) before
  | cons head rest =>
      have isRunning : s.kernel.runQueue.running = some (pidOf s.loop.core head) := running
      obtain ⟨started, enough⟩ := able _ isRunning
      have childAt := serving.children head List.mem_cons_self
      rw [tick_running isRunning]
      apply serving.head_changes elapsed (Int.le_of_lt positive) before rfl
      exact
        { nonnegative := by
            change 0 ≤ _ - elapsed
            omega
          bounded := by
            have bounded := childAt.bounded
            change _ - elapsed ≤ _
            omega
          fresh := by
            intro fresh
            rw [Option.isSome_iff_ne_none] at started
            exact absurd fresh started }

/-- The state after a process's child made its first steps. -/
def System.begun (env : Environment) (s : System) (process : ProcessPtr) : System :=
  let child := s.kernel.children (pidOf s.loop.core process)
  { s with
    kernel := setChild s.kernel (pidOf s.loop.core process)
      { child with startTime := some (env.clock s.now) } }

theorem Serving.begin (serving : Serving env entries timeUnit strategy s queue)
    (allowed : (systemMachine env).enabled s .begin) :
    ∃ head rest, queue = head :: rest ∧ systemStep env s .begin = .ok (s.begun env head) ∧
      Serving env entries timeUnit strategy (s.begun env head) queue := by
  obtain ⟨_, pid, isRunning, _⟩ := allowed
  have running := serving.dispatching.running
  rw [Option.mem_def.mp isRunning] at running
  cases queue with
  | nil => cases running
  | cons head rest =>
      have isHead : pid = pidOf s.loop.core head := Option.some.inj running
      subst isHead
      have childAt := serving.children head List.mem_cons_self
      refine ⟨head, rest, rfl, ?_, ?_⟩
      · simp only [systemStep, Option.mem_def.mp isRunning, childBegins,
          serving.dispatching.setPriority_head, ok_bind, pure_eq_ok]
        rfl
      · let child : Child :=
          { s.kernel.children (pidOf s.loop.core head) with
            startTime := some (env.clock s.now) }
        have atStart : ChildAt child (workOf env entries head) :=
          ⟨childAt.nonnegative, childAt.bounded, nofun⟩
        have whole : child.left = s.leftOf head - 0 := (Int.sub_zero _).symm
        have same := serving.head_changes 0 (Int.le_refl 0)
          (fun deadline isDeadline => by
            rw [Int.add_zero]
            exact serving.ahead deadline isDeadline)
          whole atStart
        rw [Int.add_zero] at same
        exact same

/-! ### Iterations -/

theorem wake_eq {event : EventType} {next : LoopState} {stopped : Bool} {made : List Call}
    {kernel' : Kernel}
    (ended : loopBody (env.fork s.kernel) { s.loop with eventType := event } = .ok (next, stopped))
    (calls : next.core.calls = s.loop.core.calls ++ made)
    (replayed : kernelCalls env next.core.allProcessInfo s.kernel made = .ok kernel') :
    wake env event s = .ok { s with loop := next, stopped := stopped, kernel := kernel' } := by
  rw [wake, ended, ok_bind]
  simp only [calls, List.drop_left, replayed, ok_bind, pure_eq_ok]

theorem backlog_perm (s : System) {first second : List ProcessPtr} (reordered : first.Perm second) :
    s.backlog first = s.backlog second :=
  (reordered.map s.leftOf).sum_eq

/-- An iteration that forks nothing.  `remaining` is what the event leaves of
the list. -/
theorem Serving.settles (serving : Serving env entries timeUnit strategy s queue)
    {kernel : Kernel} {c later : Core} {remaining queue' : List ProcessPtr} {stopped : Bool}
    {made : List PriorityCall} {runQueue' : RunQueue Int Int} {next : LoopState}
    {deadline : Option Int} (subset : ∀ process ∈ remaining, process ∈ queue)
    (sameWork : s.backlog remaining = s.backlog queue) (keeps : KeepsTable s.loop.core c)
    (concluded : Concluded env kernel c later remaining queue' stopped made runQueue')
    (sameChildren : kernel.children = s.kernel.children)
    (sameForked : kernel.forked = s.kernel.forked) (isCore : next.core = later)
    (timed : Timed entries timeUnit next deadline)
    (ahead : ∀ time ∈ deadline, s.now ≤ time) :
    Serving env entries timeUnit strategy
      { s with
        loop := next
        stopped := stopped
        deadline := deadline
        kernel := { kernel with runQueue := runQueue' } } queue' := by
  let result : System :=
    { s with
      loop := next
      stopped := stopped
      deadline := deadline
      kernel := { kernel with runQueue := runQueue' } }
  have kept := keeps.trans concluded.keeps
  have pids : ∀ process, pidOf next.core process = pidOf s.loop.core process := by
    rw [isCore]
    exact kept.pid
  have children : ∀ process, result.kernel.children (pidOf next.core process) =
      s.kernel.children (pidOf s.loop.core process) := by
    intro process
    rw [pids]
    exact congrFun sameChildren _
  have pointer : next.core.arrivalPtr = s.loop.core.arrivalPtr := by
    rw [isCore]
    exact kept.arrivalPtr
  have work : result.backlog queue' = s.backlog queue := by
    rw [← sameWork, ← backlog_perm s concluded.reordered]
    apply congrArg List.sum
    apply List.map_congr_left
    intro process _
    exact congrArg Child.left (children process)
  have nobody : queue' = [] ↔ remaining = [] :=
    ⟨fun isEmpty => (isEmpty ▸ concluded.reordered).nil_eq.symm,
      fun isEmpty => (isEmpty ▸ concluded.reordered).eq_nil⟩
  exact
    { isStrategy := by
        change next.core.currentStrategy = strategy
        rw [isCore, kept.strategy]
        exact serving.isStrategy
      timed := timed
      reads := by
        change Reads entries next.core
        rw [isCore]
        exact kept.reads serving.reads
      needs := by
        intro process
        change (next.core.allProcessInfo process).timeNeeded = _ ∧
          (next.core.allProcessInfo process).remainingTime = _
        rw [isCore, kept.table]
        exact serving.needs process
      dispatching := by
        change Dispatching env next.core queue' runQueue'
        rw [isCore]
        exact concluded.dispatching
      forked := by
        change kernel.forked = next.core.arrivalPtr
        rw [sameForked, pointer]
        exact serving.forked
      ahead := ahead
      arrivals := by
        change ∀ process, process < next.core.arrivalPtr → _
        rw [pointer]
        exact serving.arrivals
      apart := by
        change ∀ process, process + 1 = next.core.arrivalPtr → _
        rw [pointer]
        exact serving.apart
      children := by
        intro process member
        rw [children process]
        exact serving.children process (subset process (concluded.reordered.mem_iff.mp member))
      busy := by
        intro someone
        have someLeft : queue ≠ [] := by
          intro isEmpty
          apply someone
          rw [nobody, List.eq_nil_iff_forall_not_mem]
          intro process member
          have inQueue := subset process member
          rw [isEmpty] at inQueue
          cases inQueue
        rw [work, pointer]
        exact serving.busy someLeft
      idle := by
        intro isEmpty
        change busyUntil env entries timeUnit next.core.arrivalPtr ≤ s.now
        rw [pointer]
        by_cases wasEmpty : queue = []
        · exact serving.idle wasEmpty
        · have before := serving.busy wasEmpty
          rw [← work, isEmpty] at before
          change s.now + 0 = _ at before
          omega
      stops := by
        change stopped = true ↔ next.core.arrivalPtr = entries.length ∧ queue' = []
        rw [concluded.stops, nobody, pointer, arrivalQueueEmpty, beq_iff_eq, keeps.arrivalPtr,
          keeps.numProcess, serving.reads.numProcess] }

theorem Serving.pending_iff (serving : Serving env entries timeUnit strategy s queue) :
    arrivalQueueEmpty s.loop.core = false ↔ s.loop.core.arrivalPtr < entries.length := by
  have within := serving.dispatching.lists.within
  rw [serving.reads.numProcess] at within
  rw [arrivalQueueEmpty, beq_eq_false_iff_ne, serving.reads.numProcess]
  omega

/-- A child that ends alone leaves the processor idle only after the last
arrival, or else the next arrival is still ahead. -/
theorem Serving.last_arrived {head : ProcessPtr} (unit : UsableUnit timeUnit)
    (serving : Serving env entries timeUnit strategy s [head]) (done : s.leftOf head = 0)
    (noIdleGap : NoIdleGap env entries timeUnit) : arrivalQueueEmpty s.loop.core = true := by
  by_contra notDrained
  have pending := serving.pending_iff.mp (Bool.eq_false_iff.mpr notDrained)
  have arrived := serving.dispatching.lists.arrived.1 head List.mem_cons_self
  have busy := serving.busy (List.cons_ne_nil _ _)
  rw [System.backlog, List.map_singleton, List.sum_singleton, done] at busy
  obtain ⟨time, isDeadline, early⟩ := serving.timed.deadline_le unit pending
  have before := serving.ahead time isDeadline
  obtain ⟨previous, isNext⟩ := Nat.exists_eq_add_one.mpr (Nat.zero_lt_of_lt arrived)
  have overlap := noIdleGap previous (isNext ▸ pending)
    (serving.apart previous isNext.symm (isNext ▸ pending))
  rw [← isNext, arrivalAt] at overlap
  omega

/-- What a child that exits leaves behind. -/
structure Finishes (env : Environment) (s later : System) (head : ProcessPtr)
    (rest queue' : List ProcessPtr) (startTime : Timespec) : Prop where
  started : (s.kernel.children (pidOf s.loop.core head)).startTime = some startTime
  done : s.leftOf head = 0
  now : later.now = s.now
  deadline : later.deadline = s.deadline
  timer : later.loop.timer = s.loop.timer
  keeps : KeepsTable s.loop.core later.loop.core
  children : later.kernel.children = s.kernel.children
  printed : later.kernel.printed = s.kernel.printed ++
    [ProcessLog.printProcessInfo (pidOf s.loop.core head) startTime (env.clock s.now)]
  reordered : queue'.Perm rest
  inOrder : s.loop.core.currentStrategy ≠ .SJF → queue' = rest
  shortest : s.loop.core.currentStrategy = .SJF → ∀ next ∈ queue'.head?, ∀ other ∈ rest,
    processKey s.loop.core.allProcessInfo next ≤ processKey s.loop.core.allProcessInfo other

/-- Under SJF somebody has to be left when a child ends, unless all have come. -/
def Fed (strategy : ScheduleStrategy) (s : System) (queue : List ProcessPtr) : Prop :=
  strategy = .SJF → queue.tail = [] → arrivalQueueEmpty s.loop.core = true

/-- Under RR no arrival may fall on the end of a slice. -/
def Untied (entries : List Entry) (timeUnit : Timespec) (strategy : ScheduleStrategy)
    (s : System) : Prop :=
  strategy = .RR → s.loop.core.arrivalPtr < entries.length →
    arrivalAt entries timeUnit s.loop.core.arrivalPtr = s.now →
    OffSlice (arrivalOf entries s.loop.core.arrivalPtr)

theorem offSlice_of_offSlices (free : OffSlices entries) {process : ProcessPtr}
    (inRange : process < entries.length) : OffSlice (arrivalOf entries process) := by
  rw [RR.arrivalOf_eq inRange]
  exact free _ (List.getElem_mem inRange)

theorem Servable.untied (servable : Servable env entries timeUnit strategy) (s : System) :
    Untied entries timeUnit strategy s :=
  fun isRR pending _ => offSlice_of_offSlices (servable.offSlices isRR) pending

theorem Servable.fed (servable : Servable env entries timeUnit strategy)
    (serving : Serving env entries timeUnit strategy s queue)
    (allowed : (systemMachine env).enabled s .finish) : Fed strategy s queue := by
  obtain ⟨_, pid, isRunning, _, done⟩ := allowed
  have running := serving.dispatching.running
  rw [Option.mem_def.mp isRunning] at running
  intro isSJF alone
  cases queue with
  | nil => cases running
  | cons head rest =>
      subst alone
      rw [Option.some.inj running] at done
      exact serving.last_arrived servable.unit done (servable.noIdleGap isSJF)

theorem Serving.finish (serving : Serving env entries timeUnit strategy s queue)
    (fed : Fed strategy s queue) (allowed : (systemMachine env).enabled s .finish) :
    ∃ later head rest queue' startTime, queue = head :: rest ∧
      systemStep env s .finish = .ok later ∧ Finishes env s later head rest queue' startTime ∧
      Serving env entries timeUnit strategy later queue' := by
  obtain ⟨_, pid, isRunning, isStarted, done⟩ := allowed
  have running := serving.dispatching.running
  rw [Option.mem_def.mp isRunning] at running
  cases queue with
  | nil => cases running
  | cons head rest =>
      have isHead : pid = pidOf s.loop.core head := Option.some.inj running
      subst isHead
      obtain ⟨startTime, started⟩ := Option.isSome_iff_exists.mp isStarted
      let ended := childEnds env s.now s.kernel (pidOf s.loop.core head) startTime
      obtain ⟨c, handled, keeps, calls, idle, ready⟩ :=
        serving.dispatching.child (env.fork ended)
      have fed : c.currentStrategy = .SJF → c.sjf.activeProcess = none → rest = [] →
          arrivalQueueEmpty c = true := by
        intro isSJF _ alone
        have drained :=
          fed (serving.isStrategy.symm.trans (keeps.strategy.symm.trans isSJF)) alone
        rwa [arrivalQueueEmpty, keeps.arrivalPtr, keeps.numProcess]
      obtain ⟨later, queue', stopped, made, runQueue', concluded⟩ :=
        @Ready.concluded _ ended _ _ ready fed
      let next : LoopState :=
        { s.loop with core := later, eventType := .childTerminated }
      have woken : wake env .childTerminated { s with kernel := ended } = .ok { s with
          loop := next
          stopped := stopped
          kernel := { ended with runQueue := runQueue' } } := by
        have calling : next.core.calls = s.loop.core.calls ++
            ([.wait, .removeCurrentProcess] ++ made.map .priority) := by
          change later.calls = _
          rw [concluded.calls, calls, List.append_assoc]
        exact wake_eq (loopBody_of_child handled concluded.ended) calling
          (kernelCalls_trans rfl (concluded.replayed _))
      have work : s.backlog rest = s.backlog (head :: rest) := by
        rw [System.backlog, System.backlog, List.map_cons, List.sum_cons,
          show s.leftOf head = 0 from done, Int.zero_add]
      have timed : Timed entries timeUnit next s.deadline :=
        serving.timed.child (keeps.trans concluded.keeps) concluded.dispatching.lists _
      have switched : (s.loop.core.currentStrategy ≠ .SJF → queue' = rest) ∧
          (s.loop.core.currentStrategy = .SJF → ∀ next ∈ queue'.head?, ∀ other ∈ rest,
            processKey s.loop.core.allProcessInfo next ≤
              processKey s.loop.core.allProcessInfo other) := by
        rw [← keeps.strategy, ← keeps.table]
        exact ⟨fun notSJF => concluded.same (Or.inl notSJF),
          fun isSJF => concluded.shortest isSJF (idle isSJF)⟩
      let later' : System := { s with
        loop := next
        stopped := stopped
        kernel := { ended with runQueue := runQueue' } }
      refine ⟨later', head, rest, queue', startTime, rfl, ?_, ?_, ?_⟩
      · simp only [systemStep, Option.mem_def.mp isRunning, started]
        exact woken
      · exact
          { started := started
            done := done
            now := rfl
            deadline := rfl
            timer := rfl
            keeps := keeps.trans concluded.keeps
            children := rfl
            printed := rfl
            reordered := concluded.reordered
            inOrder := switched.1
            shortest := switched.2 }
      · exact serving.settles (fun process member => List.mem_cons_of_mem head member) work keeps
          concluded rfl rfl rfl timed serving.ahead

end UserScheduler
