/-
Timer events of the system.

An arrival forks a group of children and adds their work to what is left; a
slice end only turns RR's list.  With the events between two iterations this
gives the invariant of every run.
-/

import UserScheduler.SystemRuns

namespace UserScheduler

open Machines RunQueues
open RR (UsableUnit arrivalOf Reads ArrivalOrder OffSlices expiresAt)

variable {env : Environment} {entries : List Entry} {timeUnit : Timespec}
  {strategy : ScheduleStrategy} {s : System} {queue : List ProcessPtr}

/-! ### Arrivals -/

/-- What a group of arrivals does to the scheduler and to the kernel. -/
structure Arrives (env : Environment) (s : System) (handled later : Core) (untilNext : Int)
    (kernel' : Kernel) (queue queue' : List ProcessPtr) (stopped : Bool)
    (made : List PriorityCall) (runQueue' : RunQueue Int Int) : Prop where
  arriving : processArrival (env.fork s.kernel) (expired s.loop.core) = .ok (handled, untilNext)
  admitted : Admitted (expired s.loop.core) handled s.loop.core.arrivalPtr untilNext
  grouped : GroupForked (env.fork s.kernel) (expired s.loop.core) handled
  forking : kernelCalls env handled.allProcessInfo s.kernel
    ((groupOf s.loop.core handled).flatMap (forkCalls handled)) = .ok kernel'
  spawned : Spawned env handled s.kernel kernel' (groupOf s.loop.core handled)
  concluded : Concluded env kernel' handled later (queue ++ groupOf s.loop.core handled) queue'
    stopped made runQueue'

theorem Serving.arrives (works : ForkWorks env)
    (serving : Serving env entries timeUnit strategy s queue)
    (pending : s.loop.core.arrivalPtr < entries.length) :
    ∃ handled later untilNext kernel' queue' stopped made runQueue',
      Arrives env s handled later untilNext kernel' queue queue' stopped made runQueue' := by
  have pending' : (expired s.loop.core).arrivalPtr < (expired s.loop.core).numProcess :=
    serving.reads.numProcess.symm ▸ pending
  have dispatching : Dispatching env (expired s.loop.core) queue s.kernel.runQueue :=
    serving.dispatching.with_calls _
  obtain ⟨handled, untilNext, kernel', arriving, admitted, grouped, forking, spawned, ready⟩ :=
    Dispatching.arrival (c := expired s.loop.core) works serving.forked dispatching pending'
  have someone : queue ++ groupOf s.loop.core handled ≠ [] := by
    apply List.append_ne_nil_of_right_ne_nil
    apply List.ne_nil_of_mem (a := s.loop.core.arrivalPtr)
    exact (mem_groupOf grouped.le).mpr ⟨Nat.le_refl _, admitted.reached⟩
  obtain ⟨later, queue', stopped, made, runQueue', concluded⟩ :=
    ready.concluded fun _ _ nobody => absurd nobody someone
  exact ⟨handled, later, untilNext, kernel', queue', stopped, made, runQueue', arriving, admitted,
    grouped, forking, spawned, concluded⟩

variable {handled later : Core} {untilNext : Int} {kernel' : Kernel} {queue' : List ProcessPtr}
  {stopped : Bool} {made : List PriorityCall} {runQueue' : RunQueue Int Int}

/-- The calls of the iteration, replayed. -/
theorem Arrives.replayed
    (arrives : Arrives env s handled later untilNext kernel' queue queue' stopped made runQueue') :
    ∃ calls, later.calls = s.loop.core.calls ++ calls ∧
      kernelCalls env later.allProcessInfo s.kernel calls =
        .ok { kernel' with runQueue := runQueue' } := by
  refine ⟨[.timerExpired] ++ (groupOf s.loop.core handled).flatMap (forkCalls handled) ++
    made.map .priority, ?_, ?_⟩
  · rw [arrives.concluded.calls, arrives.grouped.calls]
    change s.loop.core.calls ++ _ ++ _ ++ _ = _
    rw [List.append_assoc, List.append_assoc, List.append_assoc]
    rfl
  · rw [arrives.concluded.keeps.table]
    exact kernelCalls_trans (kernelCalls_trans rfl arrives.forking)
      (arrives.concluded.replayed _)

theorem Arrives.group_nonempty
    (arrives : Arrives env s handled later untilNext kernel' queue queue' stopped made runQueue') :
    ∃ count, handled.arrivalPtr = s.loop.core.arrivalPtr + (count + 1) ∧
      groupOf s.loop.core handled = List.range' s.loop.core.arrivalPtr (count + 1) := by
  have reached := arrives.admitted.reached
  refine ⟨handled.arrivalPtr - s.loop.core.arrivalPtr - 1, by omega, ?_⟩
  rw [groupOf]
  congr 1
  omega

section Effects

variable
  (arrives : Arrives env s handled later untilNext kernel' queue queue' stopped made runQueue')

include arrives

theorem Arrives.arrivalPtr : later.arrivalPtr = handled.arrivalPtr :=
  arrives.concluded.keeps.arrivalPtr

theorem Arrives.groupOf_eq : groupOf s.loop.core later = groupOf s.loop.core handled := by
  rw [groupOf, arrives.arrivalPtr]
  rfl

/-- Who was there before keeps his entry. -/
theorem Arrives.earlier {process : ProcessPtr} (before : process < s.loop.core.arrivalPtr) :
    later.allProcessInfo process = s.loop.core.allProcessInfo process := by
  rw [arrives.concluded.keeps.table]
  exact arrives.grouped.earlier process before

theorem Arrives.pid_earlier {process : ProcessPtr} (before : process < s.loop.core.arrivalPtr) :
    pidOf later process = pidOf s.loop.core process := by
  rw [pidOf, arrives.earlier before]
  rfl

theorem Arrives.together (reads : Reads entries s.loop.core) {process : ProcessPtr}
    (member : process ∈ groupOf s.loop.core handled) :
    arrivalOf entries process = arrivalOf entries s.loop.core.arrivalPtr := by
  obtain ⟨lower, upper⟩ := (mem_groupOf arrives.grouped.le).mp member
  have same := arrives.admitted.together process lower upper
  rwa [show (expired s.loop.core).allProcessInfo = s.loop.core.allProcessInfo from rfl,
    reads.arrivalTime, reads.arrivalTime] at same

/-- Children that were there before are not touched. -/
theorem Arrives.old_child (serving : Serving env entries timeUnit strategy s queue)
    {process : ProcessPtr} (member : process ∈ queue) :
    kernel'.children (pidOf later process) =
      s.kernel.children (pidOf s.loop.core process) := by
  have samePid := arrives.pid_earlier (serving.dispatching.lists.arrived.1 process member)
  have distinct : ((queue ++ groupOf s.loop.core handled).map (pidOf later)).Nodup :=
    (arrives.concluded.reordered.map _).nodup_iff.mp arrives.concluded.dispatching.distinct
  rw [samePid]
  apply arrives.spawned.others
  intro inGroup
  rw [List.map_append, List.nodup_append,
    List.map_congr_left (l := groupOf s.loop.core handled)
      fun other _ => arrives.concluded.keeps.pid other] at distinct
  exact distinct.2.2 _ (List.mem_map_of_mem member) _ inGroup samePid

theorem Arrives.new_child (serving : Serving env entries timeUnit strategy s queue)
    {process : ProcessPtr} (member : process ∈ groupOf s.loop.core handled) :
    kernel'.children (pidOf later process) =
      { startTime := none, left := workOf env entries process } := by
  rw [arrives.concluded.keeps.pid process]
  refine (arrives.spawned.newborn process member).trans ?_
  rw [newborn, workOf, (arrives.grouped.demand process).1]
  exact congrArg (fun needed => Child.mk none (env.loopTime needed)) (serving.needs process).1

end Effects

/-- The work of a group is added to what is left when it arrives. -/
theorem Serving.busyUntil_group (serving : Serving env entries timeUnit strategy s queue)
    (count : Nat)
    (together : ∀ process, s.loop.core.arrivalPtr ≤ process →
      process < s.loop.core.arrivalPtr + (count + 1) →
      arrivalAt entries timeUnit process = s.now) :
    busyUntil env entries timeUnit (s.loop.core.arrivalPtr + (count + 1)) =
      s.now + s.backlog queue +
        ((List.range' s.loop.core.arrivalPtr (count + 1)).map (workOf env entries)).sum := by
  rw [busyUntil, SingleServer.completion_group (workOf_nonneg env entries) _ _ together]
  congr 1
  by_cases nobody : queue = []
  · have late := serving.idle nobody
    rw [nobody]
    change max (busyUntil env entries timeUnit s.loop.core.arrivalPtr) s.now = s.now + 0
    omega
  · have busy := serving.busy nobody
    have nonnegative := serving.backlog_nonneg
    change max (busyUntil env entries timeUnit s.loop.core.arrivalPtr) s.now = _
    omega

/-- The group's work is added to what was left. -/
theorem Arrives.backlog_eq (serving : Serving env entries timeUnit strategy s queue)
    (arrives : Arrives env s handled later untilNext kernel' queue queue' stopped made runQueue')
    {result : System} (isCore : result.loop.core = later)
    (children : result.kernel.children = kernel'.children) :
    result.backlog queue' = s.backlog queue +
      ((groupOf s.loop.core handled).map (workOf env entries)).sum := by
  rw [backlog_perm result arrives.concluded.reordered, System.backlog, List.map_append,
    List.sum_append, System.backlog]
  congr 2
  · apply List.map_congr_left
    intro process member
    rw [System.leftOf, children, isCore, arrives.old_child serving member]
    rfl
  · apply List.map_congr_left
    intro process member
    rw [System.leftOf, children, isCore, arrives.new_child serving member]

theorem Arrives.someone
    (arrives : Arrives env s handled later untilNext kernel' queue queue' stopped made runQueue') :
    queue' ≠ [] := by
  obtain ⟨count, _, isGroup⟩ := arrives.group_nonempty
  intro nobody
  have length := arrives.concluded.reordered.length_eq
  rw [nobody, List.length_append, isGroup, List.length_range'] at length
  change 0 = _ at length
  omega

theorem Serving.after_arrival (serving : Serving env entries timeUnit strategy s queue)
    (isNow : arrivalAt entries timeUnit s.loop.core.arrivalPtr = s.now)
    (arrives : Arrives env s handled later untilNext kernel' queue queue' stopped made runQueue')
    {next : LoopState} (isCore : next.core = later) {deadline : Option Int}
    (timed : Timed entries timeUnit next deadline) (ahead : ∀ time ∈ deadline, s.now ≤ time)
    (order : ArrivalOrder entries) :
    Serving env entries timeUnit strategy
      { s with
        loop := next
        stopped := stopped
        deadline := deadline
        kernel := { kernel' with runQueue := runQueue' } } queue' := by
  subst isCore
  let result : System :=
    { s with
      loop := next
      stopped := stopped
      deadline := deadline
      kernel := { kernel' with runQueue := runQueue' } }
  obtain ⟨count, pointer, isGroup⟩ := arrives.group_nonempty
  have numbers := serving.reads.numProcess
  have times := serving.reads.arrivalTime
  have kept := arrives.concluded.keeps
  have reordered := arrives.concluded.reordered
  have newPtr : next.core.arrivalPtr = s.loop.core.arrivalPtr + (count + 1) :=
    arrives.arrivalPtr.trans pointer
  have inGroup : ∀ process, s.loop.core.arrivalPtr ≤ process →
      process < s.loop.core.arrivalPtr + (count + 1) → process ∈ groupOf s.loop.core handled := by
    intro process lower upper
    exact (mem_groupOf arrives.grouped.le).mpr ⟨lower, pointer ▸ upper⟩
  have work : result.backlog queue' = s.backlog queue +
      ((groupOf s.loop.core handled).map (workOf env entries)).sum :=
    arrives.backlog_eq serving rfl rfl
  have someone := arrives.someone
  exact
    { isStrategy := by
        change next.core.currentStrategy = strategy
        rw [kept.strategy, arrives.grouped.strategy]
        exact serving.isStrategy
      timed := timed
      reads := kept.reads
        { numProcess := arrives.admitted.input.numProcess.trans numbers
          arrivalTime := fun process =>
            (arrives.admitted.input.arrivalTime process).trans (times process) }
      needs := by
        intro process
        change (next.core.allProcessInfo process).timeNeeded = _ ∧
          (next.core.allProcessInfo process).remainingTime = _
        rw [kept.table, (arrives.grouped.demand process).1, (arrives.grouped.demand process).2]
        exact serving.needs process
      dispatching := arrives.concluded.dispatching
      forked := by
        change kernel'.forked = next.core.arrivalPtr
        rw [arrives.spawned.forked, newPtr, isGroup, List.length_range', serving.forked]
      ahead := ahead
      arrivals := by
        intro process arrived
        change process < next.core.arrivalPtr at arrived
        rw [newPtr] at arrived
        by_cases old : process < s.loop.core.arrivalPtr
        · exact serving.arrivals process old
        · have member := inGroup process (Nat.le_of_not_lt old) arrived
          change _ ≤ s.now
          rw [← isNow, arrivalAt, arrivalAt, arrives.together serving.reads member]
      apart := by
        intro process isLast more
        change process + 1 = next.core.arrivalPtr at isLast
        have outcome := arrives.admitted.next
        rw [isLast, newPtr] at more ⊢
        rw [newPtr] at isLast
        rw [pointer, show (expired s.loop.core).allProcessInfo = s.loop.core.allProcessInfo from
          rfl, times, times, show (expired s.loop.core).numProcess = s.loop.core.numProcess from
          rfl, numbers] at outcome
        have lastTime := arrives.together serving.reads (inGroup process (by omega) (by omega))
        have ordered := order.arrivalOf_mono (Nat.le_add_right _ (count + 1)) more
        omega
      children := by
        intro process member
        change ChildAt (kernel'.children (pidOf next.core process)) _
        rcases List.mem_append.mp (reordered.mem_iff.mp member) with old | new
        · rw [arrives.old_child serving old]
          exact serving.children process old
        · rw [arrives.new_child serving new]
          exact ⟨workOf_nonneg env entries process, Int.le_refl _, fun _ => rfl⟩
      busy := by
        intro _
        have total := serving.busyUntil_group count fun process lower upper => by
          rw [arrivalAt, arrives.together serving.reads (inGroup process lower upper)]
          exact isNow
        rw [work, newPtr, isGroup, total]
        change s.now + _ = _
        omega
      idle := fun nobody => absurd nobody someone
      stops := by
        have notStopped : ¬ stopped = true := by
          intro isStopped
          have nobody := (arrives.concluded.stops.mp isStopped).2
          exact someone (nobody ▸ reordered).eq_nil
        constructor
        · intro isStopped
          exact absurd isStopped notStopped
        · intro done
          exact absurd done.2 someone }

/-! ### The alarm -/

/-- What a timer event does. -/
inductive AlarmDoes (env : Environment) (entries : List Entry) (timeUnit : Timespec)
    (s later : System) (queue queue' : List ProcessPtr) : Prop where
  | slice : s.loop.core.currentStrategy = .RR → queue' = RR.rotate queue →
      KeepsTable s.loop.core later.loop.core →
      later.kernel.children = s.kernel.children →
      AlarmDoes env entries timeUnit s later queue queue'
  | arrival : s.loop.core.arrivalPtr < later.loop.core.arrivalPtr →
      (∀ process ∈ groupOf s.loop.core later.loop.core,
        arrivalAt entries timeUnit process = s.now ∧
        later.kernel.children (pidOf later.loop.core process) =
          { startTime := none, left := workOf env entries process }) →
      (∀ process, process < s.loop.core.arrivalPtr →
        later.loop.core.allProcessInfo process = s.loop.core.allProcessInfo process) →
      (∀ process ∈ queue, later.kernel.children (pidOf later.loop.core process) =
        s.kernel.children (pidOf s.loop.core process)) →
      queue'.Perm (queue ++ groupOf s.loop.core later.loop.core) →
      (s.loop.core.currentStrategy ≠ .SJF ∨ queue ≠ [] →
        queue' = queue ++ groupOf s.loop.core later.loop.core) →
      (s.loop.core.currentStrategy = .SJF → queue = [] → ∀ next ∈ queue'.head?,
        ∀ other ∈ queue', processKey later.loop.core.allProcessInfo next ≤
          processKey later.loop.core.allProcessInfo other) →
      AlarmDoes env entries timeUnit s later queue queue'

theorem alarm_eq {next : LoopState} {calls : List Call}
    (ended : loopBody (env.fork s.kernel) { s.loop with eventType := .timerExpired } =
      .ok (next, stopped)) (made : next.core.calls = s.loop.core.calls ++ calls)
    (replayed : kernelCalls env next.core.allProcessInfo s.kernel calls = .ok kernel') :
    systemStep env s .alarm = .ok { s with
      loop := next
      stopped := stopped
      deadline := expiresAt s.now next.itValue
      kernel := kernel' } := by
  simp only [systemStep, wake_eq ended made replayed, ok_bind, pure_eq_ok]

/-- An arrival at its time, with the timer as it is then set. -/
theorem Serving.alarm_arrival (order : ArrivalOrder entries)
    (serving : Serving env entries timeUnit strategy s queue)
    (isNow : arrivalAt entries timeUnit s.loop.core.arrivalPtr = s.now)
    (arrives : Arrives env s handled later untilNext kernel' queue queue' stopped made runQueue')
    {next : LoopState} (isCore : next.core = later)
    (ended : loopBody (env.fork s.kernel) { s.loop with eventType := .timerExpired } =
      .ok (next, stopped))
    (timed : Timed entries timeUnit next (expiresAt s.now next.itValue))
    (ahead : ∀ time ∈ expiresAt s.now next.itValue, s.now ≤ time) :
    ∃ result, systemStep env s .alarm = .ok result ∧ result.now = s.now ∧
      result.kernel.printed = s.kernel.printed ∧
      AlarmDoes env entries timeUnit s result queue queue' ∧
      Serving env entries timeUnit strategy result queue' := by
  subst isCore
  obtain ⟨calls, isCalls, replayed⟩ := arrives.replayed
  have kept := arrives.concluded.keeps
  have wasStrategy : handled.currentStrategy = s.loop.core.currentStrategy :=
    arrives.grouped.strategy
  have wasActive : handled.sjf.activeProcess = s.loop.core.sjf.activeProcess :=
    arrives.grouped.active
  refine ⟨_, alarm_eq ended isCalls replayed, rfl, arrives.spawned.printed, ?_,
    serving.after_arrival isNow arrives rfl timed ahead order⟩
  apply AlarmDoes.arrival
  · change s.loop.core.arrivalPtr < next.core.arrivalPtr
    rw [arrives.arrivalPtr]
    exact arrives.admitted.reached
  · intro process member
    rw [arrives.groupOf_eq] at member
    refine ⟨?_, arrives.new_child serving member⟩
    rw [arrivalAt, arrives.together serving.reads member]
    exact isNow
  · intro process before
    exact arrives.earlier before
  · intro process member
    exact arrives.old_child serving member
  · change queue'.Perm (queue ++ groupOf s.loop.core next.core)
    rw [arrives.groupOf_eq]
    exact arrives.concluded.reordered
  · intro settled
    change queue' = queue ++ groupOf s.loop.core next.core
    rw [arrives.groupOf_eq]
    apply arrives.concluded.same
    rw [wasStrategy, wasActive]
    rcases settled with notSJF | someone
    · exact Or.inl notSJF
    · by_cases isSJF : s.loop.core.currentStrategy = .SJF
      · right
        rw [serving.dispatching.active isSJF, ne_eq, List.head?_eq_none_iff]
        exact someone
      · exact Or.inl isSJF
  · intro isSJF nobody chosen isChosen other member
    have idle : s.loop.core.sjf.activeProcess = none := by
      rw [serving.dispatching.active isSJF, nobody]
      rfl
    change processKey next.core.allProcessInfo chosen ≤ processKey next.core.allProcessInfo other
    rw [kept.table]
    exact arrives.concluded.shortest (wasStrategy.trans isSJF) (wasActive.trans idle) chosen
      isChosen other (arrives.concluded.reordered.mem_iff.mp member)

/-- A slice end turns the list. -/
theorem Serving.alarm_slice (serving : Serving env entries timeUnit strategy s queue)
    (isRR : s.loop.core.currentStrategy = .RR) {next : LoopState}
    (rotated : timesliceOver (expired s.loop.core) = .ok handled)
    (switched : endIteration handled = .ok (next.core, stopped))
    (ended : loopBody (env.fork s.kernel) { s.loop with eventType := .timerExpired } =
      .ok (next, stopped))
    (timed : Timed entries timeUnit next (expiresAt s.now next.itValue))
    (ahead : ∀ time ∈ expiresAt s.now next.itValue, s.now ≤ time) :
    ∃ result queue', systemStep env s .alarm = .ok result ∧ result.now = s.now ∧
      result.kernel.printed = s.kernel.printed ∧
      AlarmDoes env entries timeUnit s result queue queue' ∧
      Serving env entries timeUnit strategy result queue' := by
  have dispatching : Dispatching env (expired s.loop.core) queue s.kernel.runQueue :=
    serving.dispatching.with_calls _
  obtain ⟨c, rotated', keeps, calls, ready⟩ :=
    Dispatching.timeslice (c := expired s.loop.core) isRR dispatching
  have isHandled : c = handled := Except.ok.inj (rotated'.symm.trans rotated)
  subst isHandled
  have stillRR : c.currentStrategy = .RR := keeps.strategy.trans isRR
  obtain ⟨later, queue', stopped', made, runQueue', concluded⟩ :=
    ready.concluded fun isSJF => by
      rw [stillRR] at isSJF
      cases isSJF
  obtain ⟨isLater, isStopped⟩ := Prod.mk.inj (Except.ok.inj (concluded.ended.symm.trans switched))
  subst isStopped
  have table : KeepsTable s.loop.core c := ⟨keeps.strategy, keeps.numProcess, keeps.arrivalPtr,
    keeps.table⟩
  have turned : queue' = RR.rotate queue := by
    apply concluded.same
    left
    rw [stillRR]
    decide
  have sameMembers := RR.rotate_perm queue
  have isCalls : next.core.calls = s.loop.core.calls ++
      ([.timerExpired, .timesliceOver] ++ made.map .priority) := by
    rw [← isLater, concluded.calls, calls]
    change s.loop.core.calls ++ _ ++ _ ++ _ = _
    rw [List.append_assoc, List.append_assoc]
    rfl
  refine ⟨_, queue', alarm_eq ended isCalls (kernelCalls_trans rfl (concluded.replayed _)), rfl,
    rfl, ?_, ?_⟩
  · apply AlarmDoes.slice isRR turned
    · change KeepsTable s.loop.core next.core
      rw [← isLater]
      exact table.trans concluded.keeps
    · rfl
  · exact serving.settles (fun process member => sameMembers.mem_iff.mp member)
      (backlog_perm s sameMembers) table concluded rfl rfl isLater.symm timed ahead

theorem Serving.alarm (workable : Workable env entries timeUnit strategy)
    (serving : Serving env entries timeUnit strategy s queue)
    (untied : Untied entries timeUnit strategy s)
    (allowed : (systemMachine env).enabled s .alarm) :
    ∃ result queue', systemStep env s .alarm = .ok result ∧ result.now = s.now ∧
      result.kernel.printed = s.kernel.printed ∧
      AlarmDoes env entries timeUnit s result queue queue' ∧
      Serving env entries timeUnit strategy result queue' := by
  have isDeadline : s.deadline = some s.now := allowed.2
  have timed := serving.timed
  rw [isDeadline] at timed
  by_cases isRR : s.loop.core.currentStrategy = .RR
  · obtain ⟨next, stopped, handled, untilNext, ended, happened, switched, timed', ahead,
      atArrival⟩ := timed.alarm_rr (env.fork s.kernel) workable.order workable.unit isRR
        (untied (serving.isStrategy.symm.trans isRR))
    generalize isReason : next.eventType = reason at happened
    cases happened with
    | arrival arriving =>
        obtain ⟨pending, isTime⟩ := atArrival isReason
        obtain ⟨handled', later, untilNext', kernel', queue', stopped', made, runQueue',
          arrives⟩ := serving.arrives workable.works pending
        obtain ⟨isHandled, _⟩ :=
          Prod.mk.inj (Except.ok.inj (arrives.arriving.symm.trans arriving))
        subst isHandled
        obtain ⟨isLater, isStopped⟩ :=
          Prod.mk.inj (Except.ok.inj (arrives.concluded.ended.symm.trans switched))
        subst isStopped
        obtain ⟨result, stepped, outcome⟩ :=
          serving.alarm_arrival workable.order isTime.symm arrives isLater.symm ended timed' ahead
        exact ⟨result, queue', stepped, outcome⟩
    | slice rotated => exact serving.alarm_slice isRR rotated switched ended timed' ahead
  · have pending : s.loop.core.arrivalPtr < entries.length := by
      by_contra drained
      have outcome := ((timed_other isRR).mp timed).2
      rw [if_neg drained] at outcome
      cases outcome
    have isTime : arrivalAt entries timeUnit s.loop.core.arrivalPtr = s.now := by
      have outcome := ((timed_other isRR).mp timed).2
      rw [if_pos pending] at outcome
      exact (Option.some.inj outcome.2).symm
    obtain ⟨handled, later, untilNext, kernel', queue', stopped, made, runQueue', arrives⟩ :=
      serving.arrives workable.works pending
    obtain ⟨next, ended, isCore, timed', ahead⟩ := timed.alarm_other workable.order
      workable.unit isRR serving.reads arrives.arriving arrives.admitted arrives.concluded.ended
      arrives.concluded.keeps
    obtain ⟨result, stepped, outcome⟩ :=
      serving.alarm_arrival workable.order isTime arrives isCore ended timed' ahead
    exact ⟨result, queue', stepped, outcome⟩

end UserScheduler
