/-
Between the schedulers and the kernel.

Whenever the loop waits, the kernel runs the first process of the scheduler's
list.  Under FIFO all children are high and the run queue is the list; under RR
and SJF only the first is high.  Each event changes the list and leaves the run
queue one context switch behind, and the context switch makes them agree again.
-/

import UserScheduler.KernelQueue

namespace UserScheduler

open Machines RunQueues

variable {env : Environment} {kernel kernel' : Kernel} {mem : Memory} {c later : Core}
  {rank : ProcessPtr → Int} {queue : List ProcessPtr} {runQueue : RunQueue Int Int}

/-! ### Whenever the loop waits, and right before a context switch -/

/-- The first process of a list is high, the others are low. -/
def headRank (env : Environment) (queue : List ProcessPtr) (process : ProcessPtr) : Int :=
  if queue.head? = some process then env.high else env.low

theorem headRank_head (env : Environment) (head : ProcessPtr) (tail : List ProcessPtr) :
    headRank env (head :: tail) head = env.high := if_pos rfl

theorem headRank_tail (env : Environment) {head other : ProcessPtr} {tail : List ProcessPtr}
    (distinct : (head :: tail).Nodup) (member : other ∈ tail) :
    headRank env (head :: tail) other = env.low := by
  apply if_neg
  intro same
  apply (List.nodup_cons.mp distinct).1
  rw [Option.some.inj same]
  exact member

/-- The kernel runs the first process of the list.  Under FIFO all children are
high and stand in order, otherwise only the first one is high. -/
structure Dispatching (env : Environment) (c : Core) (queue : List ProcessPtr)
    (runQueue : RunQueue Int Int) : Prop where
  lists : Lists c queue
  distinct : (queue.map (pidOf c)).Nodup
  inOrder : c.currentStrategy = .FIFO → runQueue = queue.map (slotOf c fun _ => env.high)
  ranked : c.currentStrategy ≠ .FIFO → Mirrors c (headRank env queue) queue runQueue
  active : c.currentStrategy = .SJF → c.sjf.activeProcess = queue.head?

/-- What a context switch finds.  Behind the first process at most the one that
RR is about to suspend is high, and under SJF only the active one. -/
structure Ready (env : Environment) (c : Core) (queue : List ProcessPtr)
    (runQueue : RunQueue Int Int) : Prop where
  lists : Lists c queue
  distinct : (queue.map (pidOf c)).Nodup
  inOrder : c.currentStrategy = .FIFO → runQueue = queue.map (slotOf c fun _ => env.high)
  ranked : c.currentStrategy ≠ .FIFO → ∃ rank, Mirrors c rank queue runQueue ∧
    (c.currentStrategy = .RR → ∀ process ∈ queue.tail, rank process = env.low ∨
      c.rr.pq.read c.rr.previousActiveId = .ok (some process)) ∧
    (c.currentStrategy = .SJF → ∀ process ∈ queue, rank process =
      if c.sjf.activeProcess = some process then env.high else env.low)
  active : c.currentStrategy = .SJF → ∀ process, c.sjf.activeProcess = some process →
    queue.head? = some process

theorem Dispatching.mirrors (dispatching : Dispatching env c queue runQueue) :
    ∃ rank, Mirrors c rank queue runQueue ∧
      ∀ process ∈ queue.head?, rank process = env.high := by
  by_cases isFIFO : c.currentStrategy = .FIFO
  · refine ⟨fun _ => env.high, ⟨dispatching.distinct, ?_⟩, fun _ _ => rfl⟩
    rw [dispatching.inOrder isFIFO]
  · exact ⟨_, dispatching.ranked isFIFO, fun process isHead => if_pos isHead⟩

theorem Dispatching.tasks (dispatching : Dispatching env c queue runQueue) :
    runQueue.tasks.Perm (queue.map (pidOf c)) := by
  obtain ⟨rank, mirrors, _⟩ := dispatching.mirrors
  exact mirrors.tasks

/-- The kernel runs what the scheduler means to run. -/
theorem Dispatching.running (dispatching : Dispatching env c queue runQueue) :
    runQueue.running = queue.head?.map (pidOf c) := by
  by_cases isFIFO : c.currentStrategy = .FIFO
  · have shared : ∀ slot ∈ runQueue, slot.level = env.high := by
      rw [dispatching.inOrder isFIFO]
      intro slot member
      obtain ⟨process, _, rfl⟩ := List.mem_map.mp member
      rfl
    rw [RunQueue.running_of_level shared, dispatching.inOrder isFIFO, slotOf_tasks,
      List.head?_map]
  · have mirrors := dispatching.ranked isFIFO
    cases queue with
    | nil =>
        have isEmpty : runQueue = [] := mirrors.holds.eq_nil
        rw [isEmpty]
        rfl
    | cons head tail =>
        refine mirrors.running (List.Perm.refl _) ?_
        intro other member
        rw [headRank_head, headRank_tail env dispatching.lists.arrived.2 member]
        exact env.low_lt_high

/-- `set_child_priority` changes nothing: the child that runs is high already. -/
theorem Dispatching.setPriority_head {head : ProcessPtr} {tail : List ProcessPtr}
    (dispatching : Dispatching env c (head :: tail) kernel.runQueue) :
    setPriority kernel (pidOf c head) env.high = .ok kernel := by
  obtain ⟨rank, mirrors, high⟩ := dispatching.mirrors
  obtain ⟨holds, absent⟩ := mirrors.head (List.Perm.refl _)
  rw [slotOf, high head rfl] at holds
  rw [setPriority, RunQueue.setLevel_same holds absent]
  rfl

/-! ### The events -/

theorem Dispatching.with_calls (dispatching : Dispatching env c queue runQueue)
    (calls : List Call) : Dispatching env { c with calls := calls } queue runQueue where
  lists := dispatching.lists.with_calls calls
  distinct := dispatching.distinct
  inOrder := dispatching.inOrder
  ranked := fun notFIFO => ⟨dispatching.distinct, (dispatching.ranked notFIFO).holds⟩
  active := dispatching.active

/-- A termination takes the first process out of the list and out of the run
queue. -/
theorem Dispatching.child {head : ProcessPtr} {rest : List ProcessPtr}
    (fork : Core → ProcessPtr → Int)
    (dispatching : Dispatching env c (head :: rest) runQueue) :
    ∃ later, handleEvent fork c .childTerminated = .ok later ∧ KeepsTable c later ∧
      later.calls = c.calls ++ [.wait, .removeCurrentProcess] ∧
      (later.currentStrategy = .SJF → later.sjf.activeProcess = none) ∧
      Ready env later rest (runQueue.leave (pidOf c head)) := by
  obtain ⟨later, handled, lists, keeps, calls, idle⟩ :=
    child_lists fork dispatching.lists dispatching.active
  have nodup := dispatching.lists.arrived.2
  have pids : ∀ process ∈ rest, pidOf later process = pidOf c process :=
    fun process _ => keeps.pid process
  refine ⟨later, handled, keeps, calls, ?_, lists, ?_, ?_, ?_, ?_⟩
  · intro isSJF
    exact idle (keeps.strategy ▸ isSJF)
  · rw [List.map_congr_left pids]
    exact (List.nodup_cons.mp dispatching.distinct).2
  · intro isFIFO
    rw [keeps.strategy] at isFIFO
    have absent : pidOf c head ∉ RunQueue.tasks (rest.map (slotOf c fun _ => env.high)) := by
      rw [slotOf_tasks]
      exact (List.nodup_cons.mp dispatching.distinct).1
    rw [dispatching.inOrder isFIFO, List.map_cons]
    change RunQueue.leave (⟨pidOf c head, env.high⟩ :: _) _ = _
    rw [RunQueue.leave, List.filter_cons_of_neg (by simp)]
    refine (RunQueue.leave_absent absent).trans ?_
    apply List.map_congr_left
    intro process member
    rw [slotOf, slotOf, pids process member]
  · intro notFIFO
    rw [keeps.strategy] at notFIFO ⊢
    have mirrors := (dispatching.ranked notFIFO).leave (List.Perm.refl _)
    refine ⟨_, mirrors.of_pids pids, ?_, ?_⟩
    · intro _ process member
      exact Or.inl (headRank_tail env nodup (List.mem_of_mem_tail member))
    · intro isSJF process member
      rw [idle isSJF, headRank_tail env nodup member]
      rfl
  · intro isSJF process isActive
    rw [keeps.strategy] at isSJF
    rw [idle isSJF] at isActive
    cases isActive

/-- A slice end rotates the list; nothing happens in the kernel yet. -/
theorem Dispatching.timeslice (isRR : c.currentStrategy = .RR)
    (dispatching : Dispatching env c queue runQueue) :
    ∃ later, timesliceOver c = .ok later ∧ KeepsTable c later ∧
      later.calls = c.calls ++ [.timesliceOver] ∧
      Ready env later (RR.rotate queue) runQueue := by
  obtain ⟨later, ended, lists, keeps, calls, atPrevious⟩ :=
    timeslice_lists dispatching.lists isRR
  have notFIFO : c.currentStrategy ≠ .FIFO := by
    rw [isRR]
    decide
  have mirrors := ((dispatching.ranked notFIFO).reorder (RR.rotate_perm queue)).of_pids
    fun process _ => keeps.pid process
  refine ⟨later, ended, keeps, calls, lists, mirrors.distinct, ?_, ?_, ?_⟩
  · intro isFIFO
    rw [keeps.strategy] at isFIFO
    exact absurd isFIFO notFIFO
  · intro _
    refine ⟨_, mirrors, ?_, ?_⟩
    · intro _ process member
      cases queue with
      | nil => cases member
      | cons head tail =>
          rcases List.mem_append.mp (List.mem_of_mem_tail member) with behind | isHead
          · exact Or.inl (headRank_tail env dispatching.lists.arrived.2 behind)
          · rw [List.mem_singleton.mp isHead]
            exact Or.inr (atPrevious head tail rfl)
    · intro isSJF
      rw [keeps.strategy, isRR] at isSJF
      cases isSJF
  · intro isSJF
    rw [keeps.strategy, isRR] at isSJF
    cases isSJF

/-- `fork` gives the group pids that nobody has. -/
theorem GroupForked.fresh (works : ForkWorks env) (forked : kernel.forked = c.arrivalPtr)
    (grouped : GroupForked (env.fork kernel) c later) :
    ((groupOf c later).map (pidOf later)).Nodup ∧
      ∀ process ∈ groupOf c later, pidOf later process ∉ kernel.runQueue.tasks := by
  have apart : ∀ first ∈ groupOf c later, ∀ second ∈ groupOf c later, first < second →
      pidOf later first ≠ pidOf later second := by
    intro first firstIn second secondIn before
    obtain ⟨seen, isFork, saw⟩ := grouped.forks second secondIn
    have lower := ((mem_groupOf grouped.le).mp firstIn).1
    rw [isFork, ← saw first before]
    exact works.fresh kernel seen second first (forked ▸ lower) before
  constructor
  · apply List.Nodup.map_on _ List.nodup_range'
    intro first firstIn second secondIn same
    rcases Nat.lt_trichotomy first second with before | equal | after
    · exact absurd same (apart first firstIn second secondIn before)
    · exact equal
    · exact absurd same.symm (apart second secondIn first firstIn after)
  · intro process member
    obtain ⟨seen, isFork, _⟩ := grouped.forks process member
    rw [isFork]
    exact works.unused kernel seen process

/-- A group of arrivals joins the list and the run queue. -/
theorem Dispatching.arrival (works : ForkWorks env) (forked : kernel.forked = c.arrivalPtr)
    (dispatching : Dispatching env c queue kernel.runQueue)
    (pending : c.arrivalPtr < c.numProcess) :
    ∃ later untilNext kernel', processArrival (env.fork kernel) c = .ok (later, untilNext) ∧
      Admitted c later c.arrivalPtr untilNext ∧ GroupForked (env.fork kernel) c later ∧
      kernelCalls env later.allProcessInfo kernel
        ((groupOf c later).flatMap (forkCalls later)) = .ok kernel' ∧
      Spawned env later kernel kernel' (groupOf c later) ∧
      Ready env later (queue ++ groupOf c later) kernel'.runQueue := by
  obtain ⟨later, untilNext, ended, lists, grouped, admitted⟩ :=
    processArrival_lists (env.fork kernel) dispatching.lists pending
  obtain ⟨fresh, unused⟩ := grouped.fresh works forked
  obtain ⟨kernel', forking, joined, spawned⟩ :=
    kernelCalls_group env later kernel (groupOf c later) fresh unused
  obtain ⟨before, nodup⟩ := dispatching.lists.arrived
  have kept : ∀ process ∈ queue, pidOf later process = pidOf c process := by
    intro process member
    rw [pidOf, grouped.earlier process (before process member)]
    rfl
  have distinct : ((queue ++ groupOf c later).map (pidOf later)).Nodup := by
    rw [List.map_append, List.nodup_append, List.map_congr_left kept]
    refine ⟨dispatching.distinct, fresh, ?_⟩
    rintro pid inQueue other inGroup rfl
    obtain ⟨process, member, rfl⟩ := List.mem_map.mp inGroup
    exact unused process member (dispatching.tasks.mem_iff.mpr inQueue)
  have outside : ∀ process ∈ groupOf c later, process ∉ queue := by
    intro process member inQueue
    have lower := ((mem_groupOf grouped.le).mp member).1
    exact absurd (before process inQueue) (Nat.not_lt_of_le lower)
  refine ⟨later, untilNext, kernel', ended, admitted, grouped, forking, spawned, lists, distinct,
    ?_, ?_, ?_⟩
  · intro isFIFO
    have wasFIFO := grouped.strategy ▸ isFIFO
    have slots : queue.map (slotOf later fun _ => env.high) =
        queue.map (slotOf c fun _ => env.high) := by
      apply List.map_congr_left
      intro process member
      rw [slotOf, slotOf, kept process member]
    rw [joined, entered, if_pos isFIFO, dispatching.inOrder wasFIFO, List.map_append, slots]
  · intro notFIFO
    have wasNotFIFO : c.currentStrategy ≠ .FIFO := grouped.strategy ▸ notFIFO
    have mirrors := (dispatching.ranked wasNotFIFO).of_pids kept
    have newcomers : (groupOf c later).map (slotOf later fun _ => env.low) =
        (groupOf c later).map (slotOf later (headRank env queue)) := by
      apply List.map_congr_left
      intro process member
      rw [slotOf, slotOf, headRank, if_neg]
      intro isHead
      exact outside process member (List.mem_of_mem_head? isHead)
    refine ⟨headRank env queue, ⟨distinct, ?_⟩, ?_, ?_⟩
    · rw [joined, List.map_append, ← newcomers]
      refine (entered_perm env later _ _).trans ?_
      simp only [notFIFO, if_false]
      exact mirrors.holds.append_right _
    · intro _ process member
      left
      cases queue with
      | nil => rfl
      | cons head tail =>
          apply if_neg
          intro isHead
          rw [← Option.some.inj isHead] at member
          have behind := List.mem_append.mp member
          rcases behind with inTail | inGroup
          · exact (List.nodup_cons.mp nodup).1 inTail
          · exact outside head inGroup List.mem_cons_self
    · intro isSJF process _
      have active := dispatching.active (grouped.strategy ▸ isSJF)
      rw [grouped.active, active, headRank]
  · intro isSJF process isActive
    rw [grouped.active, dispatching.active (grouped.strategy ▸ isSJF)] at isActive
    rw [List.head?_append, isActive]
    rfl

/-! ### The context switch -/

/-- RR suspends at most one process and resumes the first. -/
theorem kernelCalls_rotates {stopped : Option ProcessPtr}
    (mirrors : Mirrors c rank queue kernel.runQueue)
    (inQueue : ∀ process ∈ stopped, process ∈ queue)
    (others : ∀ process ∈ queue.tail, rank process = env.low ∨ stopped = some process)
    (nodup : queue.Nodup) :
    ∃ runQueue', kernelCalls env mem kernel
        ((stopped.toList.map (fun process => PriorityCall.suspend (pidOf c process)) ++
          queue.head?.toList.map (fun process => PriorityCall.resume (pidOf c process))).map
            .priority) =
        .ok { kernel with runQueue := runQueue' } ∧
      Mirrors c (headRank env queue) queue runQueue' := by
  have suspends : ∃ runQueue' rank', kernelCalls env mem kernel
        ((stopped.toList.map fun process => PriorityCall.suspend (pidOf c process)).map
          .priority) = .ok { kernel with runQueue := runQueue' } ∧
      Mirrors c rank' queue runQueue' ∧ ∀ process ∈ queue.tail, rank' process = env.low := by
    cases stopped with
    | none =>
        refine ⟨kernel.runQueue, rank, rfl, mirrors, ?_⟩
        intro process member
        rcases others process member with isLow | impossible
        · exact isLow
        · cases impossible
    | some suspended =>
        obtain ⟨runQueue', set, mirrors'⟩ := mirrors.setPriority (inQueue suspended rfl) env.low
        refine ⟨runQueue', _, ?_, mirrors', ?_⟩
        · exact kernelCalls_cons set
        · intro process member
          split
          · rfl
          · rename_i different
            rcases others process member with isLow | isSuspended
            · exact isLow
            · exact absurd (Option.some.inj isSuspended).symm different
  obtain ⟨runQueue', rank', suspending, mirrors', low⟩ := suspends
  rw [List.map_append]
  cases queue with
  | nil =>
      exact ⟨runQueue', kernelCalls_trans suspending rfl, mirrors'.congr nofun⟩
  | cons head tail =>
      let middle : Kernel := { kernel with runQueue := runQueue' }
      have atMiddle : Mirrors c rank' (head :: tail) middle.runQueue := mirrors'
      obtain ⟨runQueue'', set, mirrors''⟩ := atMiddle.setPriority List.mem_cons_self env.high
      refine ⟨runQueue'', kernelCalls_trans suspending (kernelCalls_cons set), ?_⟩
      apply mirrors''.congr
      intro process member
      rcases List.mem_cons.mp member with isHead | inTail
      · rw [isHead, headRank_head, if_pos rfl]
      · have different : process ≠ head := by
          rintro rfl
          exact (List.nodup_cons.mp nodup).1 inTail
        rw [headRank_tail env nodup inTail, if_neg different]
        exact (low process inTail).symm

/-- Of processes that are all low, SJF resumes one. -/
theorem kernelCalls_takes {top : ProcessPtr} {rest : List ProcessPtr}
    (mirrors : Mirrors c rank queue kernel.runQueue) (arranged : queue.Perm (top :: rest))
    (low : ∀ process ∈ queue, rank process = env.low) (nodup : queue.Nodup) :
    ∃ runQueue', kernelCalls env mem kernel [.priority (.resume (pidOf c top))] =
        .ok { kernel with runQueue := runQueue' } ∧
      Mirrors c (headRank env (top :: rest)) (top :: rest) runQueue' := by
  have nodup' := arranged.nodup_iff.mp nodup
  obtain ⟨runQueue', set, mirrors'⟩ :=
    (mirrors.reorder arranged.symm).setPriority List.mem_cons_self env.high
  refine ⟨runQueue', kernelCalls_cons set, ?_⟩
  apply mirrors'.congr
  intro process member
  rcases List.mem_cons.mp member with isTop | inRest
  · rw [isTop, headRank_head, if_pos rfl]
  · have different : process ≠ top := by
      rintro rfl
      exact (List.nodup_cons.mp nodup').1 inRest
    rw [headRank_tail env nodup' inRest, if_neg different]
    exact (low process (arranged.mem_iff.mpr member)).symm

theorem Ready.switch (ready : Ready env c queue kernel.runQueue) (mem : Memory)
    (fed : c.currentStrategy = .SJF → c.sjf.activeProcess = none → queue ≠ []) :
    ∃ later queue' made runQueue', contextSwitch c = .ok later ∧ KeepsTable c later ∧
      later.calls = c.calls ++ made.map .priority ∧ Switches c later queue queue' made ∧
      kernelCalls env mem kernel (made.map .priority) =
        .ok { kernel with runQueue := runQueue' } ∧
      Dispatching env later queue' runQueue' := by
  obtain ⟨later, queue', made, switched, lists, keeps, calls, switches⟩ :=
    contextSwitch_lists ready.lists fed
  have nodup := ready.lists.arrived.2
  have pids : ∀ processes : List ProcessPtr, ∀ process ∈ processes,
      pidOf later process = pidOf c process := fun _ process _ => keeps.pid process
  have settled {queue' : List ProcessPtr} {runQueue' : RunQueue Int Int}
      (notFIFO : c.currentStrategy ≠ .FIFO) (lists : Lists later queue')
      (mirrors : Mirrors c (headRank env queue') queue' runQueue')
      (active : c.currentStrategy = .SJF → later.sjf.activeProcess = queue'.head?) :
      Dispatching env later queue' runQueue' :=
    { lists := lists
      distinct := (mirrors.of_pids (pids queue')).distinct
      inOrder := fun isFIFO => absurd (keeps.strategy ▸ isFIFO) notFIFO
      ranked := fun _ => mirrors.of_pids (pids queue')
      active := fun isSJF => active (keeps.strategy ▸ isSJF) }
  refine ⟨later, queue', made, ?_⟩
  cases switches with
  | nothing isFIFO =>
      refine ⟨kernel.runQueue, switched, keeps, calls, .nothing isFIFO, rfl, lists, ?_, ?_, ?_, ?_⟩
      · rw [List.map_congr_left (pids queue)]
        exact ready.distinct
      · intro _
        rw [ready.inOrder isFIFO]
        apply List.map_congr_left
        intro process member
        rw [slotOf, slotOf, keeps.pid]
      · intro notFIFO
        exact absurd (keeps.strategy.trans isFIFO) notFIFO
      · intro isSJF
        rw [keeps.strategy, isFIFO] at isSJF
        cases isSJF
  | rotates stopped isRR inQueue atPrevious =>
      have notFIFO : c.currentStrategy ≠ .FIFO := by
        rw [isRR]
        decide
      obtain ⟨rank, mirrors, rrReady, _⟩ := ready.ranked notFIFO
      have others : ∀ process ∈ queue.tail, rank process = env.low ∨ stopped = some process :=
        fun process member => (rrReady isRR process member).imp_right (atPrevious process)
      obtain ⟨runQueue', replayed, mirrors'⟩ :=
        kernelCalls_rotates mirrors inQueue others nodup
      refine ⟨runQueue', switched, keeps, calls, .rotates stopped isRR inQueue atPrevious,
        replayed, settled notFIFO lists mirrors' ?_⟩
      intro isSJF
      rw [isRR] at isSJF
      cases isSJF
  | keeps active isSJF wasActive isActive =>
      have notFIFO : c.currentStrategy ≠ .FIFO := by
        rw [isSJF]
        decide
      obtain ⟨rank, mirrors, _, sjfReady⟩ := ready.ranked notFIFO
      have head := ready.active isSJF active wasActive
      refine ⟨kernel.runQueue, switched, keeps, calls, .keeps active isSJF wasActive isActive, rfl,
        settled notFIFO lists ?_ ?_⟩
      · apply mirrors.congr
        intro process member
        rw [sjfReady isSJF process member, wasActive, headRank, head]
      · intro _
        rw [head]
        exact isActive
  | takes top rest isSJF wasIdle isActive arranged least =>
      have notFIFO : c.currentStrategy ≠ .FIFO := by
        rw [isSJF]
        decide
      obtain ⟨rank, mirrors, _, sjfReady⟩ := ready.ranked notFIFO
      have low : ∀ process ∈ queue, rank process = env.low := by
        intro process member
        rw [sjfReady isSJF process member, wasIdle]
        rfl
      obtain ⟨runQueue', replayed, mirrors'⟩ := kernelCalls_takes mirrors arranged low nodup
      exact ⟨runQueue', switched, keeps, calls,
        .takes top rest isSJF wasIdle isActive arranged least, replayed,
        settled notFIFO lists mirrors' fun _ => isActive⟩

theorem Switches.reordered {queue' : List ProcessPtr} {made : List PriorityCall}
    (switches : Switches c later queue queue' made) : queue'.Perm queue := by
  cases switches with
  | nothing => exact List.Perm.refl _
  | rotates => exact List.Perm.refl _
  | keeps => exact List.Perm.refl _
  | takes top rest _ _ _ arranged _ => exact arranged.symm

/-! ### The end of an iteration -/

/-- How an iteration ends, in the scheduler and in the kernel. -/
structure Concluded (env : Environment) (kernel : Kernel) (c later : Core)
    (queue queue' : List ProcessPtr) (stopped : Bool) (made : List PriorityCall)
    (runQueue' : RunQueue Int Int) : Prop where
  ended : endIteration c = .ok (later, stopped)
  stops : stopped = true ↔ arrivalQueueEmpty c = true ∧ queue = []
  keeps : KeepsTable c later
  calls : later.calls = c.calls ++ made.map .priority
  replayed : ∀ mem, kernelCalls env mem kernel (made.map .priority) =
    .ok { kernel with runQueue := runQueue' }
  dispatching : Dispatching env later queue' runQueue'
  reordered : queue'.Perm queue
  switches : stopped = false → Switches c later queue queue' made

/-- Under SJF something has to be left to run, unless the loop ends. -/
theorem Ready.concluded (ready : Ready env c queue kernel.runQueue)
    (fed : c.currentStrategy = .SJF → c.sjf.activeProcess = none → queue = [] →
      arrivalQueueEmpty c = true) :
    ∃ later queue' stopped made runQueue',
      Concluded env kernel c later queue queue' stopped made runQueue' := by
  have isEmpty := ready.lists.schedulerEmpty_iff
  cases test : (arrivalQueueEmpty c && schedulerEmpty c) with
  | true =>
      obtain ⟨drained, empty⟩ := Bool.and_eq_true_iff.mp test
      have nobody := isEmpty.mp empty
      subst nobody
      refine ⟨c, [], true, [], kernel.runQueue, ?_⟩
      exact
        { ended := by
            rw [endIteration, test]
            rfl
          stops := by
            simp only [drained, and_self]
          keeps := ⟨rfl, rfl, rfl, rfl⟩
          calls := (List.append_nil _).symm
          replayed := fun _ => rfl
          dispatching :=
            { lists := ready.lists
              distinct := ready.distinct
              inOrder := ready.inOrder
              ranked := by
                intro notFIFO
                obtain ⟨rank, mirrors, _⟩ := ready.ranked notFIFO
                apply mirrors.congr
                intro process member
                cases member
              active := by
                intro isSJF
                refine Option.eq_none_iff_forall_ne_some.mpr ?_
                intro process isActive
                cases ready.active isSJF process isActive }
          reordered := List.Perm.refl _
          switches := by
            intro impossible
            cases impossible }
  | false =>
      have notDone : ¬ (arrivalQueueEmpty c = true ∧ queue = []) := by
        rintro ⟨drained, nobody⟩
        rw [drained, isEmpty.mpr nobody] at test
        cases test
      obtain ⟨later, queue', made, runQueue', switched, keeps, calls, switches, replayed,
        dispatching⟩ := ready.switch c.allProcessInfo
          fun isSJF idle nobody => notDone ⟨fed isSJF idle nobody, nobody⟩
      refine ⟨later, queue', false, made, runQueue', ?_⟩
      exact
        { ended := by
            rw [endIteration, test, if_neg Bool.false_ne_true, switched]
            rfl
          stops := by
            simp only [notDone, Bool.false_eq_true]
          keeps := keeps
          calls := calls
          replayed := by
            intro mem
            rw [← replayed]
            exact kernelCalls_priority kernel made
          dispatching := dispatching
          reordered := switches.reordered
          switches := fun _ => switches }

section Outcome

variable {queue' : List ProcessPtr} {stopped : Bool} {made : List PriorityCall}
  {runQueue' : RunQueue Int Int}

theorem Concluded.nobody
    (concluded : Concluded env kernel c later queue queue' stopped made runQueue')
    (isStopped : stopped = true) : queue = [] ∧ queue' = [] := by
  have nobody := (concluded.stops.mp isStopped).2
  exact ⟨nobody, (nobody ▸ concluded.reordered).eq_nil⟩

/-- Only SJF without an active process chooses. -/
theorem Concluded.same
    (concluded : Concluded env kernel c later queue queue' stopped made runQueue')
    (settled : c.currentStrategy ≠ .SJF ∨ c.sjf.activeProcess ≠ none) : queue' = queue := by
  cases isStopped : stopped with
  | true =>
      obtain ⟨nobody, nobody'⟩ := concluded.nobody isStopped
      rw [nobody, nobody']
  | false =>
      cases concluded.switches isStopped with
      | nothing => rfl
      | rotates => rfl
      | keeps => rfl
      | takes top rest isSJF idle _ _ _ =>
          rcases settled with notSJF | busy
          · exact absurd isSJF notSJF
          · exact absurd idle busy

/-- It chooses a shortest process. -/
theorem Concluded.shortest
    (concluded : Concluded env kernel c later queue queue' stopped made runQueue')
    (isSJF : c.currentStrategy = .SJF) (idle : c.sjf.activeProcess = none) :
    ∀ next ∈ queue'.head?, ∀ other ∈ queue,
      processKey c.allProcessInfo next ≤ processKey c.allProcessInfo other := by
  cases isStopped : stopped with
  | true =>
      rw [(concluded.nobody isStopped).2]
      exact nofun
  | false =>
      cases concluded.switches isStopped with
      | nothing isFIFO =>
          rw [isFIFO] at isSJF
          cases isSJF
      | rotates _ isRR _ _ =>
          rw [isRR] at isSJF
          cases isSJF
      | keeps active _ busy _ =>
          rw [idle] at busy
          cases busy
      | takes top rest _ _ _ _ least =>
          intro next isTop other member
          rw [← Option.some.inj isTop]
          exact least other member

end Outcome

end UserScheduler
