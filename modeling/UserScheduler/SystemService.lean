/-
Every run of the system.

Each event is taken apart into what it does to the processes, and the invariant
of the two modules before is carried along whole runs.  Three things follow for
FIFO, RR and SJF: the kernel always runs the process that the scheduler means to
run, the processor works whenever there is work, and the loop ends.
-/

import UserScheduler.SystemArrivals
import UserScheduler.RoundRobinSlices

namespace UserScheduler

open Machines RunQueues
open RR (UsableUnit arrivalOf Reads ArrivalOrder OffSlices expiresAt)

variable {env : Environment} {entries : List Entry} {timeUnit : Timespec}
  {strategy : ScheduleStrategy} {s later : System} {queue queue' : List ProcessPtr}

/-! ### One event -/

/-- Time passes for the first process and for nobody else. -/
structure Ticks (s later : System) (queue : List ProcessPtr) (elapsed : Int) : Prop where
  positive : 0 < elapsed
  now : later.now = s.now + elapsed
  loop : later.loop = s.loop
  stopped : later.stopped = s.stopped
  deadline : later.deadline = s.deadline
  printed : later.kernel.printed = s.kernel.printed
  begun : ∀ head ∈ queue.head?,
    (s.kernel.children (pidOf s.loop.core head)).startTime.isSome = true
  head : ∀ head ∈ queue.head?, later.kernel.children (pidOf s.loop.core head) =
    { s.kernel.children (pidOf s.loop.core head) with left := s.leftOf head - elapsed }
  others : ∀ process ∈ queue.tail, later.kernel.children (pidOf s.loop.core process) =
    s.kernel.children (pidOf s.loop.core process)

/-- The first process, which has not begun, begins. -/
structure Begins (env : Environment) (s later : System) (queue : List ProcessPtr) : Prop where
  someone : queue ≠ []
  now : later.now = s.now
  loop : later.loop = s.loop
  stopped : later.stopped = s.stopped
  deadline : later.deadline = s.deadline
  printed : later.kernel.printed = s.kernel.printed
  fresh : ∀ head ∈ queue.head?,
    (s.kernel.children (pidOf s.loop.core head)).startTime = none
  head : ∀ head ∈ queue.head?, later.kernel.children (pidOf s.loop.core head) =
    { s.kernel.children (pidOf s.loop.core head) with startTime := some (env.clock s.now) }
  others : ∀ process ∈ queue.tail, later.kernel.children (pidOf s.loop.core process) =
    s.kernel.children (pidOf s.loop.core process)

/-- What an event does, in terms of processes. -/
inductive Moves (env : Environment) (entries : List Entry) (timeUnit : Timespec)
    (s later : System) (queue queue' : List ProcessPtr) : SystemEvent → Prop where
  | tick {elapsed : Int} : queue' = queue → Ticks s later queue elapsed →
      Moves env entries timeUnit s later queue queue' (.tick elapsed)
  | begin : queue' = queue → Begins env s later queue →
      Moves env entries timeUnit s later queue queue' .begin
  | finish {head : ProcessPtr} {rest : List ProcessPtr} {startTime : Timespec} :
      queue = head :: rest → Finishes env s later head rest queue' startTime →
      Moves env entries timeUnit s later queue queue' .finish
  | alarm : s.deadline = some s.now → (∀ deadline ∈ later.deadline, s.now < deadline) →
      later.now = s.now → later.kernel.printed = s.kernel.printed →
      AlarmDoes env entries timeUnit s later queue queue' →
      Moves env entries timeUnit s later queue queue' .alarm

/-! ### Children across an event -/

/-- The process's child has not made its first steps yet. -/
def System.unbegun (s : System) (process : ProcessPtr) : Bool :=
  (s.kernel.children (pidOf s.loop.core process)).startTime.isNone

section Children

variable {process head : ProcessPtr} {tail rest : List ProcessPtr}

theorem System.unbegun_iff : s.unbegun process = true ↔
    (s.kernel.children (pidOf s.loop.core process)).startTime = none :=
  Option.isNone_iff_eq_none

theorem Ticks.head_begun {elapsed : Int} (ticks : Ticks s later (head :: tail) elapsed) :
    s.unbegun head = false := by
  rw [System.unbegun, Option.isNone_eq_false_iff]
  exact ticks.begun head rfl

theorem Ticks.unbegun_eq {elapsed : Int} (ticks : Ticks s later queue elapsed)
    (member : process ∈ queue) : later.unbegun process = s.unbegun process := by
  cases queue with
  | nil => cases member
  | cons first others =>
      rw [System.unbegun, System.unbegun, ticks.loop]
      rcases List.mem_cons.mp member with isFirst | behind
      · rw [isFirst, ticks.head first rfl]
      · rw [ticks.others process behind]

theorem Ticks.head_left {elapsed : Int} (ticks : Ticks s later (head :: tail) elapsed) :
    later.leftOf head = s.leftOf head - elapsed := by
  rw [System.leftOf, ticks.loop, ticks.head head rfl]

theorem Begins.head_unbegun (begins : Begins env s later (head :: tail)) :
    s.unbegun head = true :=
  System.unbegun_iff.mpr (begins.fresh head rfl)

theorem Begins.head_begun (begins : Begins env s later (head :: tail)) :
    later.unbegun head = false := by
  rw [System.unbegun, begins.loop, begins.head head rfl]
  rfl

theorem Begins.head_left (begins : Begins env s later (head :: tail)) :
    later.leftOf head = s.leftOf head := by
  rw [System.leftOf, begins.loop, begins.head head rfl]
  rfl

theorem Begins.tail_unbegun (begins : Begins env s later (head :: tail))
    (member : process ∈ tail) : later.unbegun process = s.unbegun process := by
  rw [System.unbegun, System.unbegun, begins.loop, begins.others process member]

theorem Finishes.head_begun {startTime : Timespec}
    (finishes : Finishes env s later head rest queue' startTime) : s.unbegun head = false := by
  rw [System.unbegun, finishes.started]
  rfl

theorem Finishes.unbegun_eq {startTime : Timespec}
    (finishes : Finishes env s later head rest queue' startTime) (process : ProcessPtr) :
    later.unbegun process = s.unbegun process := by
  rw [System.unbegun, System.unbegun, finishes.children, finishes.keeps.pid]

/-- A timer event leaves the children that are there as they are. -/
theorem AlarmDoes.old_child (does : AlarmDoes env entries timeUnit s later queue queue')
    (member : process ∈ queue) :
    later.kernel.children (pidOf later.loop.core process) =
      s.kernel.children (pidOf s.loop.core process) := by
  cases does with
  | slice _ _ keeps children => rw [children, keeps.pid]
  | arrival _ _ _ old _ _ _ => exact old process member

theorem AlarmDoes.unbegun_eq (does : AlarmDoes env entries timeUnit s later queue queue')
    (member : process ∈ queue) : later.unbegun process = s.unbegun process := by
  rw [System.unbegun, System.unbegun, does.old_child member]

theorem AlarmDoes.leftOf_eq (does : AlarmDoes env entries timeUnit s later queue queue')
    (member : process ∈ queue) : later.leftOf process = s.leftOf process := by
  rw [System.leftOf, System.leftOf, does.old_child member]

end Children

/-! ### Every event goes well -/

theorem Serving.ticks (serving : Serving env entries timeUnit strategy s queue) {elapsed : Int}
    (allowed : (systemMachine env).enabled s (.tick elapsed)) :
    Ticks s (UserScheduler.tick elapsed s) queue elapsed := by
  obtain ⟨_, positive, _, able⟩ := allowed
  have running := serving.dispatching.running
  cases queue with
  | nil =>
      rw [tick_idle running]
      exact ⟨positive, rfl, rfl, rfl, rfl, rfl, nofun, nofun, nofun⟩
  | cons head rest =>
      have isRunning : s.kernel.runQueue.running = some (pidOf s.loop.core head) := running
      rw [tick_running isRunning]
      refine ⟨positive, rfl, rfl, rfl, rfl, rfl, ?_, ?_, ?_⟩
      · intro first isFirst
        rw [← Option.some.inj isFirst]
        exact (able _ isRunning).1
      · intro first isFirst
        rw [← Option.some.inj isFirst]
        exact setChild_same _ _ _
      · intro process member
        exact setChild_other _ _ (serving.dispatching.pid_ne member)

theorem Serving.begins (serving : Serving env entries timeUnit strategy s queue)
    (allowed : (systemMachine env).enabled s .begin) :
    ∃ later, systemStep env s .begin = .ok later ∧ Begins env s later queue ∧
      Serving env entries timeUnit strategy later queue := by
  obtain ⟨head, rest, isQueue, stepped, serving'⟩ := serving.begin allowed
  obtain ⟨_, pid, isRunning, isFresh⟩ := allowed
  have running := serving.dispatching.running
  rw [isQueue, Option.mem_def.mp isRunning] at running
  have isHead : pid = pidOf s.loop.core head := Option.some.inj running
  refine ⟨_, stepped, ?_, serving'⟩
  subst isQueue
  refine ⟨List.cons_ne_nil _ _, rfl, rfl, rfl, rfl, rfl, ?_, ?_, ?_⟩
  · intro first isFirst
    rw [← Option.some.inj isFirst, ← isHead]
    exact Option.isNone_iff_eq_none.mp isFresh
  · intro first isFirst
    rw [← Option.some.inj isFirst]
    exact setChild_same _ _ _
  · intro process member
    exact setChild_other _ _ (serving.dispatching.pid_ne member)

/-- What `timer_settime` accepted lies in the future. -/
theorem expiresAt_later {now time : Int} {value armed : Timespec}
    (accepted : timerSettime value = .ok armed) (isTime : time ∈ expiresAt now armed) :
    now < time := by
  unfold timerSettime at accepted
  split at accepted
  · rename_i valid
    cases accepted
    unfold expiresAt at isTime
    split at isTime
    · cases isTime
    · rename_i notZero
      rw [← Option.some.inj isTime]
      simp only [timspecIsZero, Bool.and_eq_true, beq_iff_eq] at notZero
      unfold nanoseconds BILLION
      omega
  · cases accepted

/-- A timer event is one iteration, and the timer is set by it. -/
theorem alarm_body (stepped : systemStep env s .alarm = .ok later) :
    loopBody (env.fork s.kernel) { s.loop with eventType := .timerExpired } =
        .ok (later.loop, later.stopped) ∧
      later.now = s.now ∧ later.deadline = expiresAt s.now later.loop.itValue := by
  obtain ⟨woken, waking, isLater⟩ := bind_eq_ok stepped
  obtain ⟨ended, body, waking⟩ := bind_eq_ok waking
  obtain ⟨kernel, _, isWoken⟩ := bind_eq_ok waking
  cases isWoken
  cases isLater
  exact ⟨body, rfl, rfl⟩

theorem alarm_later (stepped : systemStep env s .alarm = .ok later) :
    ∀ deadline ∈ later.deadline, s.now < deadline := by
  obtain ⟨body, _, isDeadline⟩ := alarm_body stepped
  obtain ⟨dispatched, dispatching, body⟩ := bind_eq_ok body
  obtain ⟨concluded, _, isEnded⟩ := bind_eq_ok body
  obtain ⟨handled, _, dispatching⟩ := bind_eq_ok dispatching
  obtain ⟨armed, set, isDispatched⟩ := bind_eq_ok dispatching
  cases isDispatched
  rw [isDeadline, ← (Prod.mk.inj (Except.ok.inj isEnded)).1]
  intro deadline
  exact expiresAt_later set

/-- Every event goes well, and keeps the invariant. -/
theorem Serving.moves (workable : Workable env entries timeUnit strategy)
    (serving : Serving env entries timeUnit strategy s queue) {event : SystemEvent}
    (fed : event = .finish → Fed strategy s queue)
    (untied : event = .alarm → Untied entries timeUnit strategy s)
    (allowed : (systemMachine env).enabled s event) :
    ∃ later queue', systemStep env s event = .ok later ∧
      Moves env entries timeUnit s later queue queue' event ∧
      Serving env entries timeUnit strategy later queue' := by
  cases event with
  | tick elapsed =>
      exact ⟨_, queue, rfl, .tick rfl (serving.ticks allowed), serving.tick allowed⟩
  | begin =>
      obtain ⟨later, stepped, begins, serving'⟩ := serving.begins allowed
      exact ⟨later, queue, stepped, .begin rfl begins, serving'⟩
  | finish =>
      obtain ⟨later, head, rest, queue', startTime, isQueue, stepped, finishes, serving'⟩ :=
        serving.finish (fed rfl) allowed
      exact ⟨later, queue', stepped, .finish isQueue finishes, serving'⟩
  | alarm =>
      obtain ⟨later, queue', stepped, isNow, printed, does, serving'⟩ :=
        serving.alarm workable (untied rfl) allowed
      exact ⟨later, queue', stepped,
        .alarm allowed.2 (alarm_later stepped) isNow printed does, serving'⟩

/-! ### The start -/

theorem serving_start (workable : Workable env entries timeUnit strategy)
    (garbage : Nat → Option ProcessPtr) :
    ∃ initial, systemStart strategy entries garbage timeUnit = .ok initial ∧
      initial.loop.core = initCore strategy entries garbage ∧ initial.now = 0 ∧
      initial.stopped = false ∧ initial.kernel = emptyKernel ∧
      Serving env entries timeUnit strategy initial [] := by
  obtain ⟨created, creating, isCore, timed⟩ :=
    createTimer_timed workable.order workable.unit strategy garbage
  have lists := lists_start workable.notPSJF entries garbage
  have ahead : ∀ deadline ∈ firstDeadline created, 0 ≤ deadline := by
    intro deadline isDeadline
    unfold firstDeadline at isDeadline
    split at isDeadline
    · exact Int.le_of_eq (Option.some.inj isDeadline)
    · rw [createTimer] at creating
      obtain ⟨_, _, creating⟩ := bind_eq_ok creating
      obtain ⟨_, set, creating⟩ := bind_eq_ok creating
      cases Except.ok.inj creating
      exact Int.le_of_lt (expiresAt_later set isDeadline)
  refine ⟨_, by rw [systemStart, creating]; rfl, isCore, rfl, rfl, rfl, ?_⟩
  rw [← isCore] at lists
  have fresh : ∀ process, created.1.core.allProcessInfo process =
      readProcessInfo entries process := by
    rw [isCore]
    exact fun _ => rfl
  have nobody : created.1.core.arrivalPtr = 0 := by
    rw [isCore]
    rfl
  exact
    { isStrategy := by
        change created.1.core.currentStrategy = strategy
        rw [isCore]
        rfl
      timed := timed
      reads :=
        { numProcess := by
            change created.1.core.numProcess = _
            rw [isCore]
            rfl
          arrivalTime := fun process => congrArg ProcessInfo.arrivalTime (fresh process) }
      needs := fun process => ⟨congrArg ProcessInfo.timeNeeded (fresh process),
        congrArg ProcessInfo.remainingTime (fresh process)⟩
      dispatching :=
        { lists := lists
          distinct := List.nodup_nil
          inOrder := fun _ => rfl
          ranked := fun _ => ⟨List.nodup_nil, List.Perm.refl _⟩
          active := by
            intro _
            change created.1.core.sjf.activeProcess = none
            rw [isCore]
            rfl }
      forked := nobody.symm
      ahead := ahead
      arrivals := by
        intro process arrived
        change process < created.1.core.arrivalPtr at arrived
        rw [nobody] at arrived
        cases arrived
      apart := by
        intro process isLast
        change process + 1 = created.1.core.arrivalPtr at isLast
        rw [nobody] at isLast
        cases isLast
      children := by
        intro process member
        cases member
      busy := fun someone => absurd rfl someone
      idle := by
        intro _
        change busyUntil env entries timeUnit created.1.core.arrivalPtr ≤ 0
        rw [nobody]
        exact Int.le_refl 0
      stops := by
        change false = true ↔ created.1.core.arrivalPtr = _ ∧ _
        rw [nobody]
        constructor
        · intro impossible
          cases impossible
        · intro done
          exact absurd (List.length_eq_zero_iff.mp done.1.symm) workable.order.nonempty }

/-! ### Whole runs -/

/-- The invariant of a run.  The loop ends at the moment at which the work does. -/
structure Attending (env : Environment) (entries : List Entry) (timeUnit : Timespec)
    (strategy : ScheduleStrategy) (s : System) (queue : List ProcessPtr) : Prop where
  serving : Serving env entries timeUnit strategy s queue
  ended : s.stopped = true → s.now = busyUntil env entries timeUnit entries.length

/-- Only the end of a child can end the loop. -/
theorem Moves.waiting (waiting : s.stopped = false)
    (serving : Serving env entries timeUnit strategy s queue)
    (serving' : Serving env entries timeUnit strategy later queue') {event : SystemEvent}
    (moves : Moves env entries timeUnit s later queue queue' event) (notFinish : event ≠ .finish) :
    later.stopped = false := by
  cases moves with
  | tick _ ticks => exact ticks.stopped.trans waiting
  | begin _ begins => exact begins.stopped.trans waiting
  | finish => exact absurd rfl notFinish
  | alarm _ _ _ _ does =>
      rw [Bool.eq_false_iff]
      intro isStopped
      obtain ⟨drained, nobody⟩ := serving'.stops.mp isStopped
      cases does with
      | slice _ turned keeps _ =>
          have wasEmpty : queue = [] := (nobody ▸ turned ▸ RR.rotate_perm queue).nil_eq.symm
          have wasStopped := serving.stops.mpr ⟨keeps.arrivalPtr ▸ drained, wasEmpty⟩
          cases waiting.symm.trans wasStopped
      | arrival further _ _ _ reordered _ _ =>
          have length := reordered.length_eq
          rw [nobody, List.length_append, groupOf, List.length_range'] at length
          change 0 = _ at length
          omega

theorem Attending.moves_of (workable : Workable env entries timeUnit strategy)
    (attending : Attending env entries timeUnit strategy s queue) {event : SystemEvent}
    (fed : event = .finish → Fed strategy s queue)
    (untied : event = .alarm → Untied entries timeUnit strategy s)
    (allowed : (systemMachine env).enabled s event) :
    ∃ later queue', systemStep env s event = .ok later ∧
      Moves env entries timeUnit s later queue queue' event ∧
      Attending env entries timeUnit strategy later queue' := by
  obtain ⟨later, queue', stepped, moves, serving'⟩ :=
    attending.serving.moves workable fed untied allowed
  refine ⟨later, queue', stepped, moves, serving', ?_⟩
  intro isStopped
  by_cases isFinish : event = .finish
  · subst isFinish
    cases moves with
    | finish isQueue finishes =>
        subst isQueue
        obtain ⟨drained, nobody⟩ := serving'.stops.mp isStopped
        have alone := (nobody ▸ finishes.reordered).nil_eq
        have busy := attending.serving.busy (List.cons_ne_nil _ _)
        rw [System.backlog, ← alone, List.map_singleton, List.sum_singleton, finishes.done,
          ← finishes.keeps.arrivalPtr, drained] at busy
        rw [finishes.now, ← busy, Int.add_zero]
  · cases (moves.waiting allowed.1 attending.serving serving' isFinish).symm.trans isStopped

theorem Attending.moves (servable : Servable env entries timeUnit strategy)
    (attending : Attending env entries timeUnit strategy s queue) {event : SystemEvent}
    (allowed : (systemMachine env).enabled s event) :
    ∃ later queue', systemStep env s event = .ok later ∧
      Moves env entries timeUnit s later queue queue' event ∧
      Attending env entries timeUnit strategy later queue' := by
  refine attending.moves_of servable.toWorkable ?_ (fun _ => servable.untied s) allowed
  rintro rfl
  exact servable.fed attending.serving allowed

theorem attending_run (servable : Servable env entries timeUnit strategy)
    {garbage : Nat → Option ProcessPtr} {initial : System} {history : List SystemEvent}
    (started : systemStart strategy entries garbage timeUnit = .ok initial)
    (run : (systemMachine env).Run initial history s) :
    ∃ queue, Attending env entries timeUnit strategy s queue := by
  obtain ⟨found, isStart, _, _, running, _, serving⟩ := serving_start servable.toWorkable garbage
  cases Except.ok.inj (started.symm.trans isStart)
  apply run.holds_of_progress fun s => ∃ queue, Attending env entries timeUnit strategy s queue
  · exact ⟨[], serving, fun isStopped => by rw [running] at isStopped; cases isStopped⟩
  · rintro now event ⟨queue, attending⟩ allowed
    obtain ⟨later, queue', stepped, _, attending'⟩ := attending.moves servable allowed
    exact ⟨later, stepped, queue', attending'⟩

theorem system_safe (servable : Servable env entries timeUnit strategy)
    {garbage : Nat → Option ProcessPtr} {initial : System}
    (started : systemStart strategy entries garbage timeUnit = .ok initial) :
    (systemMachine env).Safe initial := by
  intro history s event run allowed
  obtain ⟨queue, attending⟩ := attending_run servable started run
  obtain ⟨later, _, stepped, _⟩ := attending.moves servable allowed
  exact ⟨later, stepped⟩

/-! ### A system to look at -/

/-- A kernel that never gives out a pid twice while it can be remembered, and
whose clock starts at zero. -/
def plainEnvironment : Environment where
  priorities := ⟨1, 99, by decide⟩
  fork kernel c p :=
    ((kernel.runQueue.tasks ++ (List.range p).map (pidOf c)).map Int.natAbs).sum + 1
  clock time := { tvSec := time / BILLION, tvNsec := time % BILLION }
  unitTime := 1000000
  nonnegative := by decide

theorem plainEnvironment_fork_lt (kernel : Kernel) {c : Core} {p : ProcessPtr} {pid : Int}
    (member : pid ∈ kernel.runQueue.tasks ++ (List.range p).map (pidOf c)) :
    pid < plainEnvironment.fork kernel c p := by
  have below : pid.natAbs ≤
      ((kernel.runQueue.tasks ++ (List.range p).map (pidOf c)).map Int.natAbs).sum :=
    List.single_le_sum (fun _ _ => Nat.zero_le _) _ (List.mem_map_of_mem member)
  have self := Int.le_natAbs (a := pid)
  unfold plainEnvironment
  dsimp only
  omega

theorem plainEnvironment_works : ForkWorks plainEnvironment where
  positive kernel c p := by
    unfold plainEnvironment
    dsimp only
    omega
  unused kernel c p member :=
    Int.lt_irrefl _ (plainEnvironment_fork_lt kernel (List.mem_append_left _ member))
  fresh kernel c p earlier _ before same := by
    have member : pidOf c earlier ∈ (List.range p).map (pidOf c) :=
      List.mem_map_of_mem (List.mem_range.mpr before)
    have less := plainEnvironment_fork_lt kernel (List.mem_append_right _ member)
    exact absurd same (Int.ne_of_lt less)

def mixedEntries : List Entry := [⟨1, 3⟩, ⟨1, 2⟩, ⟨4, 700⟩]

theorem mixedEntries_servable (strategy : ScheduleStrategy) (notPSJF : strategy ≠ .PSJF) :
    Servable plainEnvironment mixedEntries RR.millisecond strategy where
  order := ⟨by decide, by decide, by decide⟩
  unit := RR.millisecond_usable
  works := plainEnvironment_works
  notPSJF := notPSJF
  offSlices _ := by decide
  noIdleGap _ := by
    intro process inRange
    have small : process < 2 := Nat.lt_of_succ_lt_succ inRange
    match process with
    | 0 => decide
    | 1 => decide

/-! ### The kernel and the schedulers agree -/

/-- The process that a scheduler means to run.  FIFO only counts its processes,
which end in input order. -/
def scheduledProcess (c : Core) : Option ProcessPtr :=
  match c.currentStrategy with
  | .FIFO =>
      if FIFO.schedulerEmpty c.fifo then none
      else some (c.arrivalPtr - c.fifo.countProcess.toNat)
  | .RR => RR.runningProcess c
  | .SJF => c.sjf.activeProcess
  | .PSJF => c.psjf.activeProcess

theorem Dispatching.scheduledProcess_eq {c : Core} {runQueue : RunQueue Int Int}
    (dispatching : Dispatching env c queue runQueue) : scheduledProcess c = queue.head? := by
  have isEmpty := dispatching.lists.schedulerEmpty_iff
  rcases dispatching.lists.cases with ⟨isFIFO, _, count, gone, bounded, isQueue⟩ | queued |
    ⟨_, _, conserved, _⟩
  · simp only [schedulerEmpty, isFIFO] at isEmpty
    simp only [scheduledProcess, isFIFO, isEmpty]
    split
    · rename_i nobody
      rw [nobody]
      rfl
    · rename_i someone
      have length := congrArg List.length isQueue
      rw [List.length_range'] at length
      obtain ⟨more, isMore⟩ := Nat.exists_eq_add_one.mpr (List.length_pos_iff.mpr someone)
      rw [isQueue, ← length, isMore, List.range'_succ, List.head?_cons, count, Int.toNat_natCast]
      congr 1
      exact (Nat.sub_eq_iff_eq_add (by omega)).mpr (by omega)
  · simp only [scheduledProcess, queued.strategy]
    exact queued.runningProcess_eq
  · simp only [scheduledProcess, conserved.strategy]
    exact dispatching.active conserved.strategy

theorem Serving.tasks_eq_nil (serving : Serving env entries timeUnit strategy s queue) :
    s.kernel.runQueue.tasks = [] ↔ queue = [] := by
  have tasks := serving.dispatching.tasks
  constructor
  · intro nobody
    rw [nobody] at tasks
    exact List.map_eq_nil_iff.mp tasks.nil_eq.symm
  · rintro rfl
    exact tasks.eq_nil

theorem Serving.backlog_eq (serving : Serving env entries timeUnit strategy s queue) :
    (s.kernel.runQueue.tasks.map fun pid => (s.kernel.children pid).left).sum =
      s.backlog queue := by
  rw [(serving.dispatching.tasks.map _).sum_eq, List.map_map]
  rfl

/-- Who is still to come is not late. -/
theorem Serving.now_le_arrivalAt (workable : Workable env entries timeUnit strategy)
    (serving : Serving env entries timeUnit strategy s queue) {process : ProcessPtr}
    (ahead : s.loop.core.arrivalPtr ≤ process) (inRange : process < entries.length) :
    s.now ≤ arrivalAt entries timeUnit process := by
  obtain ⟨time, isDeadline, early⟩ :=
    serving.timed.deadline_le workable.unit (Nat.lt_of_le_of_lt ahead inRange)
  have before := serving.ahead time isDeadline
  have later : arrivalAt entries timeUnit s.loop.core.arrivalPtr ≤
      arrivalAt entries timeUnit process :=
    Int.mul_le_mul_of_nonneg_right (workable.order.arrivalOf_mono ahead inRange)
      (Int.le_of_lt workable.unit.positive)
  exact Int.le_trans before (Int.le_trans early later)

end UserScheduler
