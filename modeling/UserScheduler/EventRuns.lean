/-
Whole runs of the event loop, with the timer left to the environment.

An iteration handles one event and then breaks or switches context.  Which
event comes next is free, except that arrivals come from the arrival queue,
slices end only under RR, and only a running child terminates.  The event names
the child that terminated; the handler never looks at it.
-/

import UserScheduler.EventLoop

namespace UserScheduler

open Machines

/-- The processes passed to `add_process`, in order. -/
def addedProcesses (calls : List Call) : List ProcessPtr :=
  calls.filterMap fun
    | .addProcess process => some process
    | _ => none

theorem addedProcesses_append (calls made : List Call) :
    addedProcesses (calls ++ made) = addedProcesses calls ++ addedProcesses made :=
  List.filterMap_append

theorem addedProcesses_priority (made : List PriorityCall) :
    addedProcesses (made.map .priority) = [] := by
  induction made with
  | nil => rfl
  | cons call rest ih => exact ih

/-! ### What a scheduler changes -/

/-- Nothing but the scheduler's own state and priorities of children. -/
structure Internal (c later : Core) : Prop where
  strategy : later.currentStrategy = c.currentStrategy
  numProcess : later.numProcess = c.numProcess
  arrivalPtr : later.arrivalPtr = c.arrivalPtr
  calls : ∃ made : List PriorityCall, later.calls = c.calls ++ made.map .priority

theorem Internal.refl (c : Core) : Internal c c :=
  ⟨rfl, rfl, rfl, [], (List.append_nil _).symm⟩

theorem addToScheduler_internal {c later : Core} {p : ProcessPtr}
    (added : addToScheduler c p = .ok later) : Internal c later := by
  unfold addToScheduler at added
  cases strategy : c.currentStrategy with
  | FIFO =>
      simp only [strategy] at added
      cases Except.ok.inj added
      exact ⟨strategy.symm, rfl, rfl, _, rfl⟩
  | RR =>
      simp only [strategy] at added
      obtain ⟨rr, _, added⟩ := bind_eq_ok added
      cases Except.ok.inj added
      exact ⟨strategy.symm, rfl, rfl, [], (List.append_nil _).symm⟩
  | SJF =>
      simp only [strategy] at added
      obtain ⟨sjf, _, added⟩ := bind_eq_ok added
      cases Except.ok.inj added
      exact ⟨strategy.symm, rfl, rfl, [], (List.append_nil _).symm⟩
  | PSJF =>
      simp only [strategy] at added
      obtain ⟨charged, _, added⟩ := bind_eq_ok added
      cases Except.ok.inj added
      exact ⟨strategy.symm, rfl, rfl, [], (List.append_nil _).symm⟩

theorem removeFromScheduler_internal {c later : Core}
    (removed : removeFromScheduler c = .ok later) : Internal c later := by
  unfold removeFromScheduler at removed
  cases strategy : c.currentStrategy with
  | FIFO =>
      simp only [strategy] at removed
      cases Except.ok.inj removed
      exact ⟨strategy.symm, rfl, rfl, [], (List.append_nil _).symm⟩
  | RR =>
      simp only [strategy] at removed
      obtain ⟨rr, _, removed⟩ := bind_eq_ok removed
      cases Except.ok.inj removed
      exact ⟨strategy.symm, rfl, rfl, [], (List.append_nil _).symm⟩
  | SJF =>
      simp only [strategy] at removed
      cases Except.ok.inj removed
      exact ⟨strategy.symm, rfl, rfl, [], (List.append_nil _).symm⟩
  | PSJF =>
      simp only [strategy] at removed
      obtain ⟨psjf, _, removed⟩ := bind_eq_ok removed
      cases Except.ok.inj removed
      exact ⟨strategy.symm, rfl, rfl, [], (List.append_nil _).symm⟩

theorem contextSwitch_internal {c later : Core} (switched : contextSwitch c = .ok later) :
    Internal c later := by
  unfold contextSwitch at switched
  cases strategy : c.currentStrategy with
  | FIFO =>
      simp only [strategy] at switched
      cases Except.ok.inj switched
      exact Internal.refl c
  | RR =>
      simp only [strategy] at switched
      obtain ⟨made, _, switched⟩ := bind_eq_ok switched
      cases Except.ok.inj switched
      exact ⟨strategy.symm, rfl, rfl, _, rfl⟩
  | SJF =>
      simp only [strategy] at switched
      obtain ⟨next, _, switched⟩ := bind_eq_ok switched
      cases Except.ok.inj switched
      exact ⟨strategy.symm, rfl, rfl, _, rfl⟩
  | PSJF =>
      simp only [strategy] at switched
      obtain ⟨next, _, switched⟩ := bind_eq_ok switched
      cases Except.ok.inj switched
      exact ⟨strategy.symm, rfl, rfl, _, rfl⟩

theorem endIteration_internal {c later : Core} {breaks : Bool}
    (ended : endIteration c = .ok (later, breaks)) : Internal c later := by
  rw [endIteration] at ended
  split at ended
  · cases Except.ok.inj ended
    exact Internal.refl c
  · obtain ⟨switched, switching, ended⟩ := bind_eq_ok ended
    cases Except.ok.inj ended
    exact contextSwitch_internal switching

/-! ### What adding a process leaves alone -/

/-- The input as the handler reads it. -/
structure SameInput (c later : Core) : Prop where
  strategy : later.currentStrategy = c.currentStrategy
  numProcess : later.numProcess = c.numProcess
  arrivalTime : ∀ p, (later.allProcessInfo p).arrivalTime = (c.allProcessInfo p).arrivalTime

theorem SameInput.refl (c : Core) : SameInput c c := ⟨rfl, rfl, fun _ => rfl⟩

theorem SameInput.trans {first second third : Core} (left : SameInput first second)
    (right : SameInput second third) : SameInput first third where
  strategy := right.strategy.trans left.strategy
  numProcess := right.numProcess.trans left.numProcess
  arrivalTime p := (right.arrivalTime p).trans (left.arrivalTime p)

theorem modify_arrivalTime (mem : Memory) (process : ProcessPtr)
    (change : ProcessInfo → ProcessInfo)
    (keeps : ∀ info, (change info).arrivalTime = info.arrivalTime) (p : ProcessPtr) :
    (mem.modify process change p).arrivalTime = (mem p).arrivalTime := by
  unfold Memory.modify
  split
  · exact keeps _
  · rfl

theorem PSJF.addProcess_arrivalTime {mem later : Memory} {s t : PSJF.State}
    {process : ProcessPtr} (added : PSJF.addProcess mem s process = .ok (later, t))
    (p : ProcessPtr) : (later p).arrivalTime = (mem p).arrivalTime := by
  unfold PSJF.addProcess at added
  obtain ⟨top, _, added⟩ := bind_eq_ok added
  obtain ⟨_, _, added⟩ := bind_eq_ok added
  obtain ⟨charged, charging, added⟩ := bind_eq_ok added
  obtain ⟨pq, _, added⟩ := bind_eq_ok added
  cases Except.ok.inj added
  cases active : s.activeProcess with
  | none =>
      rw [active] at charging
      cases charging
  | some running =>
      rw [active] at charging
      cases Except.ok.inj charging
      exact modify_arrivalTime mem running _ (fun _ => by rfl) p

theorem forkSuspended_other (fork : Core → ProcessPtr → Int) (c : Core) {p other : ProcessPtr}
    (different : other ≠ p) :
    (forkSuspended fork c p).allProcessInfo other = c.allProcessInfo other := by
  change c.allProcessInfo.modify p (fun info => { info with pid := fork c p }) other = _
  exact Memory.modify_other _ _ different

theorem addToScheduler_sameInput {c later : Core} {p : ProcessPtr}
    (added : addToScheduler c p = .ok later) :
    SameInput c later ∧ later.arrivalPtr = c.arrivalPtr := by
  unfold addToScheduler at added
  cases strategy : c.currentStrategy with
  | FIFO =>
      simp only [strategy] at added
      cases Except.ok.inj added
      exact ⟨⟨strategy.symm, rfl, fun _ => rfl⟩, rfl⟩
  | RR =>
      simp only [strategy] at added
      obtain ⟨rr, _, added⟩ := bind_eq_ok added
      cases Except.ok.inj added
      exact ⟨⟨strategy.symm, rfl, fun _ => rfl⟩, rfl⟩
  | SJF =>
      simp only [strategy] at added
      obtain ⟨sjf, _, added⟩ := bind_eq_ok added
      cases Except.ok.inj added
      exact ⟨⟨strategy.symm, rfl, fun _ => rfl⟩, rfl⟩
  | PSJF =>
      simp only [strategy] at added
      obtain ⟨⟨mem, psjf⟩, admitted, added⟩ := bind_eq_ok added
      cases Except.ok.inj added
      exact ⟨⟨strategy.symm, rfl, PSJF.addProcess_arrivalTime admitted⟩, rfl⟩

theorem addProcess_sameInput {fork : Core → ProcessPtr → Int} {c later : Core}
    {p : ProcessPtr} (added : addProcess fork c p = .ok later) :
    SameInput c later ∧ later.arrivalPtr = c.arrivalPtr := by
  rw [addProcess] at added
  split at added
  · obtain ⟨same, pointer⟩ := addToScheduler_sameInput added
    have forked : SameInput c (forkSuspended fork c p) :=
      ⟨rfl, rfl, modify_arrivalTime _ _ _ (fun _ => rfl)⟩
    exact ⟨forked.trans same, pointer⟩
  · cases added

/-! ### The arrival branch over any `add_process` -/

section AnyAdd

variable (add : Core → ProcessPtr → Result Core)

def addArrivedProcessWith (c : Core) : Result Core :=
  add { c with arrivalPtr := c.arrivalPtr + 1 } c.arrivalPtr

def addSimultaneousWith : Nat → Core → Int → Result (Core × Int)
  | 0, _, _ => .error .outOfFuel
  | fuel + 1, c, arrivalTime => do
      if arrivalQueueEmpty c then return (c, arrivalTime)
      let arrivalTime ← timeunitsUntilNextArrival c
      if arrivalTime = 0 then
        let c ← addArrivedProcessWith add c
        addSimultaneousWith fuel c arrivalTime
      else return (c, arrivalTime)

def processArrivalWith (c : Core) : Result (Core × Int) := do
  let c ← addArrivedProcessWith add c
  addSimultaneousWith add (c.numProcess + 1) c 0

end AnyAdd

theorem addSimultaneous_eq_with (fork : Core → ProcessPtr → Int) (fuel : Nat) (c : Core)
    (arrivalTime : Int) :
    addSimultaneous fork fuel c arrivalTime =
      addSimultaneousWith (addProcess fork) fuel c arrivalTime := by
  induction fuel generalizing c arrivalTime with
  | zero => rfl
  | succ fuel ih =>
      rw [addSimultaneous, addSimultaneousWith]
      simp only [ih]
      rfl

/-- The handler's own `add_process` is one of them. -/
theorem processArrival_eq_with (fork : Core → ProcessPtr → Int) (c : Core) :
    processArrival fork c = processArrivalWith (addProcess fork) c := by
  rw [processArrival, processArrivalWith]
  simp only [addSimultaneous_eq_with]
  rfl

/-- Adding a process does not touch the arrival queue. -/
def LeavesQueue (add : Core → ProcessPtr → Result Core) : Prop :=
  ∀ c p later, add c p = .ok later → SameInput c later ∧ later.arrivalPtr = c.arrivalPtr

variable {add : Core → ProcessPtr → Result Core}

theorem addProcess_leavesQueue (fork : Core → ProcessPtr → Int) :
    LeavesQueue (addProcess fork) :=
  fun _ _ _ => addProcess_sameInput

theorem LeavesQueue.arrived (leaves : LeavesQueue add) {c later : Core}
    (added : addArrivedProcessWith add c = .ok later) :
    SameInput c later ∧ later.arrivalPtr = c.arrivalPtr + 1 := by
  obtain ⟨same, pointer⟩ := leaves _ _ _ added
  exact ⟨⟨same.strategy, same.numProcess, same.arrivalTime⟩, pointer⟩

theorem addArrivedProcess_sameInput {fork : Core → ProcessPtr → Int} {c later : Core}
    (added : addArrivedProcess fork c = .ok later) :
    SameInput c later ∧ later.arrivalPtr = c.arrivalPtr + 1 :=
  (addProcess_leavesQueue fork).arrived added

/-! ### One group of simultaneous arrivals -/

/-- Everything from `first` up to the new arrival pointer arrived together, and
`untilNext` is the gap to what follows. -/
structure Admitted (c later : Core) (first : Nat) (untilNext : Int) : Prop where
  input : SameInput c later
  reached : first < later.arrivalPtr
  within : later.arrivalPtr ≤ c.numProcess
  together : ∀ p, first ≤ p → p < later.arrivalPtr →
    (c.allProcessInfo p).arrivalTime = (c.allProcessInfo first).arrivalTime
  next : later.arrivalPtr = c.numProcess ∧ untilNext = 0 ∨
    later.arrivalPtr < c.numProcess ∧ untilNext ≠ 0 ∧
      untilNext = (c.allProcessInfo later.arrivalPtr).arrivalTime -
        (c.allProcessInfo first).arrivalTime

theorem timeunitsUntilNextArrival_eq {c : Core} (positive : 0 < c.arrivalPtr)
    (pending : c.arrivalPtr < c.numProcess) :
    timeunitsUntilNextArrival c = .ok ((c.allProcessInfo c.arrivalPtr).arrivalTime -
      (c.allProcessInfo (c.arrivalPtr - 1)).arrivalTime) := by
  have notEmpty : arrivalQueueEmpty c = false := by
    rw [arrivalQueueEmpty, beq_eq_false_iff_ne]
    omega
  rw [timeunitsUntilNextArrival, notEmpty, if_neg (by omega : c.arrivalPtr ≠ 0)]
  rfl

/-- The loop of a group keeps every property that adding the next process
keeps. -/
theorem addSimultaneousWith_spec (leaves : LeavesQueue add) (invariant : Core → Prop)
    (progress : ∀ c, invariant c → c.arrivalPtr < c.numProcess →
      ∃ later, addArrivedProcessWith add c = .ok later ∧ invariant later)
    (first fuel : Nat) (c : Core) (holds : invariant c) (reached : first < c.arrivalPtr)
    (within : c.arrivalPtr ≤ c.numProcess) (enough : c.numProcess < c.arrivalPtr + fuel)
    (together : ∀ p, first ≤ p → p < c.arrivalPtr →
      (c.allProcessInfo p).arrivalTime = (c.allProcessInfo first).arrivalTime) :
    ∃ later untilNext, addSimultaneousWith add fuel c 0 = .ok (later, untilNext) ∧
      invariant later ∧ Admitted c later first untilNext := by
  induction fuel generalizing c with
  | zero => omega
  | succ fuel ih =>
      rw [addSimultaneousWith]
      by_cases drained : c.arrivalPtr = c.numProcess
      · have isEmpty : arrivalQueueEmpty c = true := beq_iff_eq.mpr drained
        rw [if_pos isEmpty]
        exact ⟨c, 0, rfl, holds, ⟨SameInput.refl c, reached, within, together,
          Or.inl ⟨drained, rfl⟩⟩⟩
      · have pending : c.arrivalPtr < c.numProcess := by omega
        have notEmpty : ¬ arrivalQueueEmpty c = true := fun isEmpty =>
          drained (beq_iff_eq.mp isEmpty)
        have previous := together (c.arrivalPtr - 1) (by omega) (by omega)
        rw [if_neg notEmpty, timeunitsUntilNextArrival_eq (by omega) pending, ok_bind, previous]
        by_cases same : (c.allProcessInfo c.arrivalPtr).arrivalTime -
            (c.allProcessInfo first).arrivalTime = 0
        · obtain ⟨added, adding, addedHolds⟩ := progress c holds pending
          obtain ⟨input, pointer⟩ := leaves.arrived adding
          have grown : ∀ p, first ≤ p → p < added.arrivalPtr →
              (added.allProcessInfo p).arrivalTime =
                (added.allProcessInfo first).arrivalTime := by
            intro p lower upper
            rw [input.arrivalTime, input.arrivalTime]
            by_cases isNew : p = c.arrivalPtr
            · rw [isNew]
              omega
            · exact together p lower (by omega)
          have bounds := input.numProcess
          obtain ⟨later, untilNext, ended, laterHolds, admitted⟩ :=
            ih added addedHolds (by omega) (by omega) (by omega) grown
          rw [if_pos same, adding, ok_bind, same]
          refine ⟨later, untilNext, ended, laterHolds, ?_⟩
          have arrival := input.arrivalTime
          exact
            { input := input.trans admitted.input
              reached := admitted.reached
              within := by rw [← bounds]; exact admitted.within
              together := by
                intro p lower upper
                have inGroup := admitted.together p lower upper
                rwa [arrival, arrival] at inGroup
              next := by
                have outcome := admitted.next
                rwa [bounds, arrival, arrival] at outcome }
        · rw [if_neg same]
          exact ⟨c, _, rfl, holds, ⟨SameInput.refl c, reached, within, together,
            Or.inr ⟨pending, same, rfl⟩⟩⟩

theorem processArrivalWith_spec (leaves : LeavesQueue add) (invariant : Core → Prop)
    (progress : ∀ c, invariant c → c.arrivalPtr < c.numProcess →
      ∃ later, addArrivedProcessWith add c = .ok later ∧ invariant later)
    {c : Core} (holds : invariant c) (pending : c.arrivalPtr < c.numProcess) :
    ∃ later untilNext, processArrivalWith add c = .ok (later, untilNext) ∧ invariant later ∧
      Admitted c later c.arrivalPtr untilNext := by
  obtain ⟨added, adding, addedHolds⟩ := progress c holds pending
  obtain ⟨input, pointer⟩ := leaves.arrived adding
  have bounds := input.numProcess
  have arrival := input.arrivalTime
  have single : ∀ p, c.arrivalPtr ≤ p → p < added.arrivalPtr →
      (added.allProcessInfo p).arrivalTime =
        (added.allProcessInfo c.arrivalPtr).arrivalTime := by
    intro p lower upper
    rw [show p = c.arrivalPtr by omega]
  obtain ⟨later, untilNext, ended, laterHolds, admitted⟩ :=
    addSimultaneousWith_spec leaves invariant progress c.arrivalPtr (added.numProcess + 1) added
      addedHolds
      (by omega) (by omega) (by omega) single
  refine ⟨later, untilNext, ?_, laterHolds, ?_⟩
  · rw [processArrivalWith, adding, ok_bind]
    exact ended
  · exact
      { input := input.trans admitted.input
        reached := admitted.reached
        within := by rw [← bounds]; exact admitted.within
        together := by
          intro p lower upper
          have inGroup := admitted.together p lower upper
          rwa [arrival, arrival] at inGroup
        next := by
          have outcome := admitted.next
          rwa [bounds, arrival, arrival] at outcome }

theorem processArrival_spec {fork : Core → ProcessPtr → Int} (invariant : Core → Prop)
    (progress : ∀ c, invariant c → c.arrivalPtr < c.numProcess →
      ∃ later, addArrivedProcess fork c = .ok later ∧ invariant later)
    {c : Core} (holds : invariant c) (pending : c.arrivalPtr < c.numProcess) :
    ∃ later untilNext, processArrival fork c = .ok (later, untilNext) ∧ invariant later ∧
      Admitted c later c.arrivalPtr untilNext := by
  rw [processArrival_eq_with]
  exact processArrivalWith_spec (addProcess_leavesQueue fork) invariant progress holds pending

/-! ### The machine -/

inductive LoopEvent where
  | arrival
  | timeslice
  | child (terminated : ProcessPtr)
deriving DecidableEq

def LoopEvent.type : LoopEvent → EventType
  | .arrival => .processArrival
  | .timeslice => .timesliceOver
  | .child _ => .childTerminated

/-- The children a history reports as terminated. -/
def terminated (history : List LoopEvent) : List ProcessPtr :=
  history.filterMap fun
    | .child process => some process
    | _ => none

structure Iteration where
  core : Core
  stopped : Bool

/-- The child that may terminate under a strategy.  FIFO keeps no record of who
runs. -/
def Core.RunsUnder (c : Core) (process : ProcessPtr) : ScheduleStrategy → Prop
  | .FIFO => 0 < c.fifo.countProcess
  | .RR => c.rr.pq.read c.rr.currentProcessId = .ok (some process)
  | .SJF => c.sjf.activeProcess = some process
  | .PSJF => c.psjf.activeProcess = some process

instance (c : Core) (process : ProcessPtr) (strategy : ScheduleStrategy) :
    Decidable (c.RunsUnder process strategy) :=
  match strategy with
  | .FIFO => inferInstanceAs (Decidable (0 < c.fifo.countProcess))
  | .RR => inferInstanceAs (Decidable
      (c.rr.pq.read c.rr.currentProcessId = .ok (some process)))
  | .SJF => inferInstanceAs (Decidable (c.sjf.activeProcess = some process))
  | .PSJF => inferInstanceAs (Decidable (c.psjf.activeProcess = some process))

def iterate (fork : Core → ProcessPtr → Int) (now : Iteration) (event : LoopEvent) :
    Result Iteration := do
  let core ← handleEvent fork now.core event.type
  let ended ← endIteration core
  return { core := ended.1, stopped := ended.2 }

def eventMachine (fork : Core → ProcessPtr → Int) : Machine Iteration LoopEvent Fault where
  enabled now event := now.stopped = false ∧
    match event with
    | .arrival => arrivalQueueEmpty now.core = false
    | .timeslice => now.core.currentStrategy = .RR
    | .child process => now.core.RunsUnder process now.core.currentStrategy
  step := iterate fork

instance (fork : Core → ProcessPtr → Int) (now : Iteration) (event : LoopEvent) :
    Decidable ((eventMachine fork).enabled now event) :=
  match event with
  | .arrival => inferInstanceAs (Decidable (_ ∧ arrivalQueueEmpty now.core = false))
  | .timeslice => inferInstanceAs (Decidable (_ ∧ now.core.currentStrategy = .RR))
  | .child process => inferInstanceAs (Decidable
      (_ ∧ now.core.RunsUnder process now.core.currentStrategy))

/-- Just before the first `sigsuspend`. -/
def start (strategy : ScheduleStrategy) (entries : List Entry)
    (garbage : Nat → Option ProcessPtr) : Iteration :=
  { core := initCore strategy entries garbage
    stopped := false }

/-- What main expects of its input. -/
structure ValidInput (entries : List Entry) : Prop where
  nonempty : entries ≠ []
  nonnegative : ∀ entry ∈ entries, 0 ≤ entry.arrivalTime
  sorted : entries.Pairwise fun first second => first.arrivalTime ≤ second.arrivalTime
  positive : ∀ entry ∈ entries, 0 < entry.timeNeeded

end UserScheduler
