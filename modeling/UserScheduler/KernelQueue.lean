/-
The kernel's run queue and the scheduler's own view of its processes.

`Mirrors` says that the run queue holds exactly the processes of a list, each
at its rank.  A priority call changes one rank, and a group of arrivals enters
at the low priority, or at the high one under FIFO.
-/

import UserScheduler.Kernel
import UserScheduler.ScheduledProcesses

namespace UserScheduler

open Machines RunQueues

variable {env : Environment} {kernel kernel' : Kernel} {mem : Memory} {c later : Core}

theorem kernelCalls_append (kernel : Kernel) (made more : List Call) :
    kernelCalls env mem kernel (made ++ more) =
      (kernelCalls env mem kernel made >>= fun kernel => kernelCalls env mem kernel more) := by
  induction made generalizing kernel with
  | nil => rfl
  | cons call rest ih =>
      rw [List.cons_append, kernelCalls, kernelCalls]
      cases kernelCall env mem kernel call with
      | error reason => rfl
      | ok next => exact ih next

theorem kernelCalls_trans {middle : Kernel} {made more : List Call}
    (first : kernelCalls env mem kernel made = .ok middle)
    (second : kernelCalls env mem middle more = .ok kernel') :
    kernelCalls env mem kernel (made ++ more) = .ok kernel' := by
  rw [kernelCalls_append, first]
  exact second

theorem kernelCalls_cons {middle : Kernel} {call : Call} {more : List Call}
    (first : kernelCall env mem kernel call = .ok middle) :
    kernelCalls env mem kernel (call :: more) = kernelCalls env mem middle more := by
  rw [kernelCalls, first]
  rfl

/-- Priority calls read nothing of the process table. -/
theorem kernelCalls_priority {other : Memory} (kernel : Kernel) (made : List PriorityCall) :
    kernelCalls env mem kernel (made.map .priority) =
      kernelCalls env other kernel (made.map .priority) := by
  induction made generalizing kernel with
  | nil => rfl
  | cons call rest ih =>
      have same : kernelCall env mem kernel (.priority call) =
          kernelCall env other kernel (.priority call) := by
        cases call <;> rfl
      simp only [List.map_cons, kernelCalls, same, ih]

/-! ### Ranks -/

/-- The slot of a process. -/
def slotOf (c : Core) (rank : ProcessPtr → Int) (process : ProcessPtr) : Slot Int Int :=
  ⟨pidOf c process, rank process⟩

/-- The run queue holds these processes at these ranks. -/
structure Mirrors (c : Core) (rank : ProcessPtr → Int) (queue : List ProcessPtr)
    (runQueue : RunQueue Int Int) : Prop where
  distinct : (queue.map (pidOf c)).Nodup
  holds : runQueue.Perm (queue.map (slotOf c rank))

variable {rank : ProcessPtr → Int} {queue : List ProcessPtr} {runQueue : RunQueue Int Int}

theorem slotOf_tasks (c : Core) (rank : ProcessPtr → Int) (queue : List ProcessPtr) :
    RunQueue.tasks (queue.map (slotOf c rank)) = queue.map (pidOf c) := by
  rw [RunQueue.tasks, List.map_map]
  rfl

theorem Mirrors.tasks (mirrors : Mirrors c rank queue runQueue) :
    runQueue.tasks.Perm (queue.map (pidOf c)) := by
  rw [← slotOf_tasks c rank]
  exact mirrors.holds.map Slot.task

theorem Mirrors.congr (mirrors : Mirrors c rank queue runQueue) {other : ProcessPtr → Int}
    (same : ∀ process ∈ queue, other process = rank process) :
    Mirrors c other queue runQueue where
  distinct := mirrors.distinct
  holds := by
    have slots : queue.map (slotOf c other) = queue.map (slotOf c rank) := by
      apply List.map_congr_left
      intro process member
      rw [slotOf, slotOf, same process member]
    rw [slots]
    exact mirrors.holds

theorem Mirrors.reorder (mirrors : Mirrors c rank queue runQueue) {queue' : List ProcessPtr}
    (reordered : queue'.Perm queue) : Mirrors c rank queue' runQueue where
  distinct := (reordered.map (pidOf c)).nodup_iff.mpr mirrors.distinct
  holds := mirrors.holds.trans (reordered.map (slotOf c rank)).symm

/-- Only the pids matter. -/
theorem Mirrors.of_pids (mirrors : Mirrors c rank queue runQueue)
    (same : ∀ process ∈ queue, pidOf later process = pidOf c process) :
    Mirrors later rank queue runQueue where
  distinct := by
    rw [List.map_congr_left same]
    exact mirrors.distinct
  holds := by
    have slots : queue.map (slotOf later rank) = queue.map (slotOf c rank) := by
      apply List.map_congr_left
      intro process member
      exact congrArg (fun pid => (⟨pid, rank process⟩ : Slot Int Int)) (same process member)
    rw [slots]
    exact mirrors.holds

theorem Mirrors.head (mirrors : Mirrors c rank queue runQueue) {process : ProcessPtr}
    {others : List ProcessPtr} (arranged : queue.Perm (process :: others)) :
    runQueue.Perm (slotOf c rank process :: others.map (slotOf c rank)) ∧
      pidOf c process ∉ RunQueue.tasks (others.map (slotOf c rank)) := by
  have reordered := mirrors.reorder arranged.symm
  refine ⟨reordered.holds, ?_⟩
  rw [slotOf_tasks]
  exact (List.nodup_cons.mp reordered.distinct).1

/-- A priority call sets the rank of one process. -/
theorem Mirrors.setPriority (mirrors : Mirrors c rank queue kernel.runQueue)
    {process : ProcessPtr} (member : process ∈ queue) (priority : Int) :
    ∃ runQueue', setPriority kernel (pidOf c process) priority =
        .ok { kernel with runQueue := runQueue' } ∧
      Mirrors c (fun other => if other = process then priority else rank other) queue
        runQueue' := by
  let changed (other : ProcessPtr) : Int := if other = process then priority else rank other
  have arranged := List.perm_cons_erase member
  obtain ⟨holds, absent⟩ := mirrors.head arranged
  obtain ⟨runQueue', set, holds'⟩ := RunQueue.setLevel_perm holds absent priority
  refine ⟨runQueue', ?_, mirrors.distinct, ?_⟩
  · rw [UserScheduler.setPriority, show kernel.runQueue.setLevel (pidOf c process) priority =
      some runQueue' from set]
    rfl
  · have unchanged : (queue.erase process).map (slotOf c changed) =
        (queue.erase process).map (slotOf c rank) := by
      apply List.map_congr_left
      intro other inRest
      have different : other ≠ process := by
        rintro rfl
        apply absent
        rw [slotOf_tasks]
        exact List.mem_map_of_mem inRest
      rw [slotOf, slotOf, show changed other = rank other from if_neg different]
    have first : slotOf c changed process = ⟨pidOf c process, priority⟩ := by
      rw [slotOf, show changed process = priority from if_pos rfl]
    refine holds'.trans ?_
    refine List.Perm.trans ?_ (arranged.map (slotOf c changed)).symm
    rw [List.map_cons, unchanged, first]

/-- A process alone at the top is the one that runs. -/
theorem Mirrors.running (mirrors : Mirrors c rank queue runQueue) {process : ProcessPtr}
    {others : List ProcessPtr} (arranged : queue.Perm (process :: others))
    (below : ∀ other ∈ others, rank other < rank process) :
    runQueue.running = some (pidOf c process) := by
  refine RunQueue.running_of_top (mirrors.head arranged).1 ?_
  intro slot member
  obtain ⟨other, inOthers, rfl⟩ := List.mem_map.mp member
  exact below other inOthers

theorem Mirrors.leave (mirrors : Mirrors c rank queue runQueue) {process : ProcessPtr}
    {others : List ProcessPtr} (arranged : queue.Perm (process :: others)) :
    Mirrors c rank others (runQueue.leave (pidOf c process)) where
  distinct := (List.nodup_cons.mp (mirrors.reorder arranged.symm).distinct).2
  holds := by
    obtain ⟨holds, absent⟩ := mirrors.head arranged
    exact RunQueue.leave_perm holds absent

/-! ### New children -/

/-- A child that has not run yet. -/
def newborn (env : Environment) (c : Core) (process : ProcessPtr) : Child :=
  { startTime := none, left := env.loopTime (c.allProcessInfo process).timeNeeded }

/-- The run queue with a group of new children. -/
def entered (env : Environment) (c : Core) (group : List ProcessPtr)
    (runQueue : RunQueue Int Int) : RunQueue Int Int :=
  if c.currentStrategy = .FIFO then runQueue ++ group.map (slotOf c fun _ => env.high)
  else (group.map (slotOf c fun _ => env.low)).reverse ++ runQueue

/-- What a group of forks changes besides the run queue. -/
structure Spawned (env : Environment) (c : Core) (kernel kernel' : Kernel)
    (group : List ProcessPtr) : Prop where
  forked : kernel'.forked = kernel.forked + group.length
  printed : kernel'.printed = kernel.printed
  newborn : ∀ process ∈ group, kernel'.children (pidOf c process) = newborn env c process
  others : ∀ pid, pid ∉ group.map (pidOf c) → kernel'.children pid = kernel.children pid

variable {process : ProcessPtr} {group : List ProcessPtr}

theorem setLevel_suspended (env : Environment) {pid : Int} (absent : pid ∉ runQueue.tasks) :
    (runQueue.enter pid env.priorities.max).setLevel pid env.low =
      some (⟨pid, env.low⟩ :: runQueue) := by
  apply RunQueue.setLevel_lowered absent
  have apart := env.priorities.apart
  change env.priorities.min < env.priorities.max
  omega

/-- A child is forked, suspended and, under FIFO, resumed. -/
theorem kernelCalls_forkCalls (env : Environment) (kernel : Kernel) (c : Core)
    (absent : pidOf c process ∉ kernel.runQueue.tasks) :
    ∃ kernel', kernelCalls env c.allProcessInfo kernel (forkCalls c process) = .ok kernel' ∧
      kernel'.runQueue = entered env c [process] kernel.runQueue ∧
      Spawned env c kernel kernel' [process] := by
  let forked := forkChild env kernel (pidOf c process) (c.allProcessInfo process).timeNeeded
  let suspended := { forked with
    runQueue := ⟨pidOf c process, env.low⟩ :: kernel.runQueue }
  have forks : kernelCall env c.allProcessInfo kernel (.addProcess process) = .ok forked := rfl
  have suspends : kernelCall env c.allProcessInfo forked
      (.priority (.suspend (pidOf c process))) = .ok suspended := by
    have moved : forked.runQueue.setLevel (pidOf c process) env.low = some suspended.runQueue :=
      setLevel_suspended env absent
    rw [kernelCall, setPriority, moved]
    rfl
  have spawned (runQueue : RunQueue Int Int) :
      Spawned env c kernel { suspended with runQueue := runQueue } [process] :=
    { forked := rfl
      printed := rfl
      newborn := by
        intro other isProcess
        rw [List.mem_singleton.mp isProcess]
        exact if_pos rfl
      others := by
        intro pid different
        exact if_neg fun same => different (by rw [same]; exact List.mem_singleton_self _) }
  by_cases isFIFO : c.currentStrategy = .FIFO
  · refine ⟨{ suspended with runQueue := kernel.runQueue.enter (pidOf c process) env.high },
      ?_, ?_, spawned _⟩
    · have moved : suspended.runQueue.setLevel (pidOf c process) env.high =
          some (kernel.runQueue.enter (pidOf c process) env.high) :=
        RunQueue.setLevel_raised absent env.low_lt_high
      rw [forkCalls, if_pos isFIFO, kernelCalls_cons forks, kernelCalls_cons suspends,
        kernelCalls, kernelCall, setPriority, moved]
      rfl
    · rw [entered, if_pos isFIFO]
      rfl
  · refine ⟨suspended, ?_, ?_, spawned _⟩
    · rw [forkCalls, if_neg isFIFO, kernelCalls_cons forks, kernelCalls_cons suspends]
      rfl
    · rw [entered, if_neg isFIFO]
      rfl

theorem Spawned.cons {middle : Kernel} (first : Spawned env c kernel middle [process])
    (rest : Spawned env c middle kernel' group) (fresh : pidOf c process ∉ group.map (pidOf c)) :
    Spawned env c kernel kernel' (process :: group) where
  forked := by
    rw [rest.forked, first.forked, List.length_singleton, List.length_cons]
    omega
  printed := rest.printed.trans first.printed
  newborn := by
    intro other member
    rcases List.mem_cons.mp member with isFirst | inRest
    · rw [isFirst, rest.others _ fresh]
      exact first.newborn process (List.mem_singleton_self _)
    · exact rest.newborn other inRest
  others := by
    intro pid different
    rw [rest.others pid fun inRest => different (List.mem_cons_of_mem _ inRest)]
    apply first.others pid
    intro isFirst
    exact different (List.mem_cons.mpr (Or.inl (List.mem_singleton.mp isFirst)))

theorem entered_cons (env : Environment) (c : Core) (process : ProcessPtr)
    (group : List ProcessPtr) (runQueue : RunQueue Int Int) :
    entered env c (process :: group) runQueue =
      entered env c group (entered env c [process] runQueue) := by
  unfold entered
  split
  · rw [List.map_cons, List.map_singleton, List.append_assoc]
    rfl
  · rw [List.map_cons, List.reverse_cons, List.append_assoc]
    rfl

theorem entered_perm (env : Environment) (c : Core) (group : List ProcessPtr)
    (runQueue : RunQueue Int Int) :
    (entered env c group runQueue).Perm (runQueue ++
      group.map (slotOf c fun _ => if c.currentStrategy = .FIFO then env.high else env.low)) := by
  unfold entered
  split
  · exact List.Perm.refl _
  · exact List.perm_append_comm.trans ((List.reverse_perm _).append_left _)

/-- A group of new children enters the run queue, one after the other. -/
theorem kernelCalls_group (env : Environment) (c : Core) (kernel : Kernel)
    (group : List ProcessPtr) (fresh : (group.map (pidOf c)).Nodup)
    (unused : ∀ process ∈ group, pidOf c process ∉ kernel.runQueue.tasks) :
    ∃ kernel', kernelCalls env c.allProcessInfo kernel (group.flatMap (forkCalls c)) =
        .ok kernel' ∧
      kernel'.runQueue = entered env c group kernel.runQueue ∧
      Spawned env c kernel kernel' group := by
  induction group generalizing kernel with
  | nil =>
      refine ⟨kernel, rfl, ?_, rfl, rfl, ?_, fun _ _ => rfl⟩
      · unfold entered
        split
        · exact (List.append_nil _).symm
        · rfl
      · intro process impossible
        cases impossible
  | cons process rest ih =>
      obtain ⟨notInRest, freshRest⟩ := List.nodup_cons.mp fresh
      obtain ⟨middle, forking, joined, first⟩ :=
        kernelCalls_forkCalls env kernel c (unused process List.mem_cons_self)
      have unusedRest : ∀ other ∈ rest, pidOf c other ∉ middle.runQueue.tasks := by
        intro other inRest member
        have tasks := (entered_perm env c [process] kernel.runQueue).map Slot.task
        rw [← joined, List.map_append] at tasks
        rcases List.mem_append.mp (tasks.mem_iff.mp member) with old | new
        · exact unused other (List.mem_cons_of_mem process inRest) old
        · apply notInRest
          rw [← show pidOf c other = pidOf c process from List.mem_singleton.mp new]
          exact List.mem_map_of_mem inRest
      obtain ⟨kernel', others, joined', spawned⟩ := ih middle freshRest unusedRest
      refine ⟨kernel', ?_, ?_, first.cons spawned notInRest⟩
      · rw [List.flatMap_cons]
        exact kernelCalls_trans forking others
      · rw [joined', joined, ← entered_cons]

end UserScheduler
