/-
What a scheduler still has to run, as a list.

Under FIFO the list is in input order, and the scheduler itself knows only its
length.  Under RR it is the array read from the cursor on.  Under SJF it is the
active process followed by the heap in some order.  The first process is the
one that the scheduler means to run.

A group of arrivals does the same to all of them: the processes join the list,
each is forked and suspended, and FIFO resumes it at once.
-/

import UserScheduler.LoopTermination

namespace UserScheduler

open Machines

/-- PSJF is left out: it aborts on its first process. -/
def Lists (c : Core) (queue : List ProcessPtr) : Prop :=
  match c.currentStrategy with
  | .FIFO => c.arrivalPtr ≤ c.numProcess ∧ c.fifo.countProcess = queue.length ∧
      ∃ gone : Nat, gone ≤ c.arrivalPtr ∧ queue = List.range' gone (c.arrivalPtr - gone)
  | .RR => RR.Queued c queue
  | .SJF => ∃ (gone waiting : List ProcessPtr), SJF.Conserved gone c waiting ∧
      queue = c.sjf.activeProcess.toList ++ waiting
  | .PSJF => False

variable {fork : Core → ProcessPtr → Int} {c later : Core} {queue : List ProcessPtr}

theorem lists_of_queued (queued : RR.Queued c queue) : Lists c queue := by
  simp only [Lists, queued.strategy]
  exact queued

theorem lists_of_conserved {gone waiting : List ProcessPtr}
    (conserved : SJF.Conserved gone c waiting)
    (isQueue : queue = c.sjf.activeProcess.toList ++ waiting) : Lists c queue := by
  simp only [Lists, conserved.strategy]
  exact ⟨gone, waiting, conserved, isQueue⟩

theorem lists_of_fifo (strategy : c.currentStrategy = .FIFO) (within : c.arrivalPtr ≤ c.numProcess)
    (count : c.fifo.countProcess = queue.length) {gone : Nat} (bounded : gone ≤ c.arrivalPtr)
    (isQueue : queue = List.range' gone (c.arrivalPtr - gone)) : Lists c queue := by
  simp only [Lists, strategy]
  exact ⟨within, count, gone, bounded, isQueue⟩

theorem Lists.queued (lists : Lists c queue) (isRR : c.currentStrategy = .RR) :
    RR.Queued c queue := by
  simpa only [Lists, isRR] using lists

/-- The three schedulers that work. -/
theorem Lists.cases (lists : Lists c queue) :
    (c.currentStrategy = .FIFO ∧ c.arrivalPtr ≤ c.numProcess ∧
      c.fifo.countProcess = queue.length ∧
      ∃ gone : Nat, gone ≤ c.arrivalPtr ∧ queue = List.range' gone (c.arrivalPtr - gone)) ∨
    RR.Queued c queue ∨
    ∃ (gone waiting : List ProcessPtr), SJF.Conserved gone c waiting ∧
      queue = c.sjf.activeProcess.toList ++ waiting := by
  unfold Lists at lists
  split at lists
  · rename_i isFIFO
    exact Or.inl ⟨isFIFO, lists⟩
  · exact Or.inr (Or.inl lists)
  · exact Or.inr (Or.inr lists)
  · exact lists.elim

theorem Lists.notPSJF (lists : Lists c queue) : c.currentStrategy ≠ .PSJF := by
  intro isPSJF
  simp only [Lists, isPSJF] at lists

theorem Lists.within (lists : Lists c queue) : c.arrivalPtr ≤ c.numProcess := by
  rcases lists.cases with ⟨_, within, _⟩ | queued | ⟨_, _, conserved, _⟩
  · exact within
  · exact queued.within
  · exact conserved.within

theorem SJF.Conserved.listed {gone waiting : List ProcessPtr}
    (conserved : SJF.Conserved gone c waiting) :
    (c.sjf.activeProcess.toList ++ waiting ++ gone).Perm (List.range c.arrivalPtr) := by
  have accounted := conserved.accounted
  rw [Multiset.coe_add, Multiset.coe_add] at accounted
  have arranged : (waiting ++ c.sjf.activeProcess.toList ++ gone).Perm
      (List.range c.arrivalPtr) := Multiset.coe_eq_coe.mp accounted
  exact (List.perm_append_comm.append_right gone).trans arranged

/-- Everything in the list has arrived, and nothing stands in it twice. -/
theorem Lists.arrived (lists : Lists c queue) :
    (∀ process ∈ queue, process < c.arrivalPtr) ∧ queue.Nodup := by
  rcases lists.cases with ⟨_, _, _, gone, bounded, rfl⟩ | queued | ⟨gone, waiting, conserved, rfl⟩
  · refine ⟨?_, List.nodup_range'⟩
    intro process member
    obtain ⟨_, upper⟩ := List.mem_range'_1.mp member
    exact Nat.lt_of_lt_of_eq upper (Nat.add_sub_cancel' bounded)
  · exact ⟨queued.arrived, queued.distinct⟩
  · have arranged := conserved.listed
    constructor
    · intro process member
      exact List.mem_range.mp (arranged.mem_iff.mp (List.mem_append_left gone member))
    · have distinct := arranged.nodup_iff.mpr List.nodup_range
      exact (List.nodup_append.mp distinct).1

theorem Lists.schedulerEmpty_iff (lists : Lists c queue) :
    schedulerEmpty c = true ↔ queue = [] := by
  rcases lists.cases with ⟨strategy, _, count, _⟩ | queued | ⟨gone, waiting, conserved, rfl⟩
  · simp only [schedulerEmpty, strategy, FIFO.schedulerEmpty, count, beq_iff_eq,
      Int.natCast_eq_zero, List.length_eq_zero_iff]
  · exact queued.schedulerEmpty_iff
  · rw [conserved.schedulerEmpty_iff, Multiset.coe_eq_zero, List.append_eq_nil_iff,
      Option.toList_eq_nil_iff, and_comm]

/-- No scheduler looks at what was called. -/
theorem Lists.with_calls (lists : Lists c queue) (calls : List Call) :
    Lists { c with calls := calls } queue := by
  rcases lists.cases with ⟨strategy, within, count, gone, bounded, isQueue⟩ | queued |
    ⟨gone, waiting, conserved, isQueue⟩
  · exact lists_of_fifo strategy within count bounded isQueue
  · exact lists_of_queued (queued.with_calls calls)
  · exact lists_of_conserved ⟨conserved.strategy, conserved.within, conserved.capacity,
      conserved.stores, conserved.accounted⟩ isQueue

theorem lists_start {strategy : ScheduleStrategy} (notPSJF : strategy ≠ .PSJF)
    (entries : List Entry) (garbage : Nat → Option ProcessPtr) :
    Lists (initCore strategy entries garbage) [] := by
  cases strategy with
  | FIFO => exact ⟨Nat.zero_le _, rfl, 0, Nat.le_refl 0, rfl⟩
  | RR => exact RR.start_queued entries garbage
  | SJF =>
      obtain ⟨stored, conserved, isEmpty⟩ := SJF.start_settled entries garbage
      have nothing : stored = (([] : List ProcessPtr) : Multiset ProcessPtr) := isEmpty rfl
      rw [nothing] at conserved
      exact ⟨[], [], conserved, rfl⟩
  | PSJF => exact absurd rfl notPSJF

/-! ### One arrival -/

def pidOf (c : Core) (process : ProcessPtr) : Int := (c.allProcessInfo process).pid

/-- The calls made for one arrived process. -/
def forkCalls (c : Core) (process : ProcessPtr) : List Call :=
  .addProcess process :: .priority (.suspend (pidOf c process)) ::
    if c.currentStrategy = .FIFO then [.priority (.resume (pidOf c process))] else []

/-- What an arrival changes outside the scheduler's own state. -/
structure Forked (fork : Core → ProcessPtr → Int) (c later : Core) : Prop where
  input : SameInput c later
  arrivalPtr : later.arrivalPtr = c.arrivalPtr + 1
  pid : pidOf later c.arrivalPtr = fork { c with arrivalPtr := c.arrivalPtr + 1 } c.arrivalPtr
  demand : ∀ process,
    (later.allProcessInfo process).timeNeeded = (c.allProcessInfo process).timeNeeded ∧
      (later.allProcessInfo process).remainingTime = (c.allProcessInfo process).remainingTime
  others : ∀ process, process ≠ c.arrivalPtr →
    later.allProcessInfo process = c.allProcessInfo process
  active : later.sjf.activeProcess = c.sjf.activeProcess
  calls : later.calls = c.calls ++ forkCalls later c.arrivalPtr

theorem addArrivedProcess_forked (notPSJF : c.currentStrategy ≠ .PSJF)
    (added : addArrivedProcess fork c = .ok later) : Forked fork c later := by
  obtain ⟨input, arrivalPtr⟩ := addArrivedProcess_sameInput added
  let forked := forkSuspended fork { c with arrivalPtr := c.arrivalPtr + 1 } c.arrivalPtr
  have effect : later.allProcessInfo = forked.allProcessInfo ∧
      later.sjf.activeProcess = c.sjf.activeProcess ∧
      later.calls = c.calls ++ .addProcess c.arrivalPtr ::
        .priority (.suspend (pidOf forked c.arrivalPtr)) ::
        if c.currentStrategy = .FIFO then [.priority (.resume (pidOf forked c.arrivalPtr))]
        else [] := by
    have child : pidOf forked c.arrivalPtr =
        fork { c with arrivalPtr := c.arrivalPtr + 1 } c.arrivalPtr := by
      change (c.allProcessInfo.modify c.arrivalPtr _ c.arrivalPtr).pid = _
      rw [Memory.modify_same]
    rw [addArrivedProcess, addProcess] at added
    split at added
    · unfold addToScheduler at added
      cases strategy : c.currentStrategy with
      | FIFO =>
          have isFIFO : forked.currentStrategy = .FIFO := strategy
          simp only [forked] at isFIFO
          simp only [isFIFO] at added
          cases Except.ok.inj added
          refine ⟨rfl, rfl, ?_⟩
          rw [child]
          change (c.calls ++ [_, _]) ++ [.priority (.resume (pidOf forked c.arrivalPtr))] = _
          rw [child, List.append_assoc]
          rfl
      | RR =>
          have isRR : forked.currentStrategy = .RR := strategy
          simp only [forked] at isRR
          simp only [isRR] at added
          obtain ⟨rr, _, added⟩ := bind_eq_ok added
          cases Except.ok.inj added
          rw [child]
          exact ⟨rfl, rfl, rfl⟩
      | SJF =>
          have isSJF : forked.currentStrategy = .SJF := strategy
          simp only [forked] at isSJF
          simp only [isSJF] at added
          obtain ⟨sjf, inserted, added⟩ := bind_eq_ok added
          obtain ⟨heap, _, inserted⟩ := bind_eq_ok inserted
          cases Except.ok.inj inserted
          cases Except.ok.inj added
          rw [child]
          exact ⟨rfl, rfl, rfl⟩
      | PSJF => exact absurd strategy notPSJF
    · cases added
  obtain ⟨table, active, calls⟩ := effect
  exact
    { input := input
      arrivalPtr := arrivalPtr
      pid := by
        rw [pidOf, table]
        change (c.allProcessInfo.modify c.arrivalPtr _ c.arrivalPtr).pid = _
        rw [Memory.modify_same]
      demand := by
        intro process
        rw [table]
        change (c.allProcessInfo.modify c.arrivalPtr _ process).timeNeeded = _ ∧
          (c.allProcessInfo.modify c.arrivalPtr _ process).remainingTime = _
        unfold Memory.modify
        split <;> exact ⟨rfl, rfl⟩
      others := by
        intro process different
        rw [table]
        exact forkSuspended_other fork _ different
      active := active
      calls := by
        rw [calls, forkCalls, pidOf, pidOf, table, input.strategy] }

theorem addArrivedProcess_lists (fork : Core → ProcessPtr → Int) (lists : Lists c queue)
    (pending : c.arrivalPtr < c.numProcess) :
    ∃ later, addArrivedProcess fork c = .ok later ∧ Lists later (queue ++ [c.arrivalPtr]) := by
  rcases lists.cases with ⟨strategy, _, count, gone, bounded, isQueue⟩ | queued |
    ⟨gone, waiting, conserved, isQueue⟩
  · let forked := forkSuspended fork { c with arrivalPtr := c.arrivalPtr + 1 } c.arrivalPtr
    let added := FIFO.addProcess forked.allProcessInfo forked.fifo c.arrivalPtr
    have isFIFO : forked.currentStrategy = .FIFO := strategy
    refine ⟨{ forked with fifo := added.1, calls := forked.calls ++ added.2.map .priority },
      ?_, lists_of_fifo isFIFO pending ?_ (Nat.le_succ_of_le bounded) ?_⟩
    · rw [addArrivedProcess, addProcess, if_pos pending, addToScheduler, isFIFO]
      rfl
    · change c.fifo.countProcess + 1 = _
      rw [count, List.length_append, List.length_singleton]
      rfl
    · change _ = List.range' gone (c.arrivalPtr + 1 - gone)
      rw [isQueue, Nat.succ_sub bounded, List.range'_1_concat, Nat.add_sub_cancel' bounded]
  · obtain ⟨later, added, _, queued'⟩ := RR.addArrivedProcess_queued fork queued pending
    exact ⟨later, added, lists_of_queued queued'⟩
  · obtain ⟨later, _, added, conserved', active, _⟩ :=
      SJF.addArrivedProcess_conserved conserved pending
    have stored : (c.arrivalPtr ::ₘ (waiting : Multiset ProcessPtr)) =
        ((waiting ++ [c.arrivalPtr] : List ProcessPtr) : Multiset ProcessPtr) := by
      rw [Multiset.cons_coe, Multiset.coe_eq_coe]
      exact (List.perm_append_singleton _ _).symm
    rw [stored] at conserved'
    refine ⟨later, added, lists_of_conserved conserved' ?_⟩
    rw [active, isQueue, List.append_assoc]

/-! ### A group of arrivals -/

/-- The processes that arrived between two states. -/
def groupOf (c later : Core) : List ProcessPtr :=
  List.range' c.arrivalPtr (later.arrivalPtr - c.arrivalPtr)

theorem mem_groupOf {process : ProcessPtr} (le : c.arrivalPtr ≤ later.arrivalPtr) :
    process ∈ groupOf c later ↔ c.arrivalPtr ≤ process ∧ process < later.arrivalPtr := by
  rw [groupOf, List.mem_range'_1, Nat.add_sub_cancel' le]

theorem head_groupOf (further : c.arrivalPtr < later.arrivalPtr) :
    (groupOf c later).head? = some c.arrivalPtr := by
  rw [groupOf, List.head?_range', if_neg (Nat.sub_ne_zero_of_lt further)]

theorem range_groupOf (le : c.arrivalPtr ≤ later.arrivalPtr) :
    List.range later.arrivalPtr = List.range c.arrivalPtr ++ groupOf c later := by
  have joined := List.range'_append_1 (s := 0) (m := c.arrivalPtr)
    (n := later.arrivalPtr - c.arrivalPtr)
  rw [Nat.zero_add, Nat.add_sub_cancel' le] at joined
  rw [groupOf, List.range_eq_range', List.range_eq_range', joined]

/-- What a group of arrivals changes outside the scheduler's own state.  Every
pid comes from a `fork` that saw the pids of the group so far. -/
structure GroupForked (fork : Core → ProcessPtr → Int) (c later : Core) : Prop where
  le : c.arrivalPtr ≤ later.arrivalPtr
  strategy : later.currentStrategy = c.currentStrategy
  demand : ∀ process,
    (later.allProcessInfo process).timeNeeded = (c.allProcessInfo process).timeNeeded ∧
      (later.allProcessInfo process).remainingTime = (c.allProcessInfo process).remainingTime
  earlier : ∀ process, process < c.arrivalPtr →
    later.allProcessInfo process = c.allProcessInfo process
  forks : ∀ process ∈ groupOf c later, ∃ seen : Core,
    pidOf later process = fork seen process ∧
      ∀ other, other < process → pidOf seen other = pidOf later other
  active : later.sjf.activeProcess = c.sjf.activeProcess
  calls : later.calls = c.calls ++ (groupOf c later).flatMap (forkCalls later)

theorem GroupForked.refl (fork : Core → ProcessPtr → Int) (c : Core) : GroupForked fork c c := by
  have nobody : groupOf c c = [] := by
    rw [groupOf, Nat.sub_self, List.range'_zero]
  exact
    { le := Nat.le_refl _
      strategy := rfl
      demand := fun _ => ⟨rfl, rfl⟩
      earlier := fun _ _ => rfl
      forks := by
        rw [nobody]
        intro process impossible
        cases impossible
      active := rfl
      calls := by
        rw [nobody]
        exact (List.append_nil _).symm }

theorem groupOf_succ {now : Core} (le : c.arrivalPtr ≤ now.arrivalPtr)
    (pointer : later.arrivalPtr = now.arrivalPtr + 1) :
    groupOf c later = groupOf c now ++ [now.arrivalPtr] := by
  rw [groupOf, pointer, Nat.succ_sub le, List.range'_1_concat, Nat.add_sub_cancel' le]
  rfl

theorem GroupForked.next {now : Core} (grouped : GroupForked fork c now)
    (forked : Forked fork now later) : GroupForked fork c later := by
  have group := groupOf_succ grouped.le forked.arrivalPtr
  have kept : ∀ process, process < now.arrivalPtr → pidOf later process = pidOf now process := by
    intro process before
    rw [pidOf, forked.others process (Nat.ne_of_lt before)]
    rfl
  exact
    { le := by
        rw [forked.arrivalPtr]
        exact Nat.le_succ_of_le grouped.le
      strategy := forked.input.strategy.trans grouped.strategy
      demand := fun process =>
        ⟨(forked.demand process).1.trans (grouped.demand process).1,
          (forked.demand process).2.trans (grouped.demand process).2⟩
      earlier := by
        intro process before
        rw [forked.others process (Nat.ne_of_lt (Nat.lt_of_lt_of_le before grouped.le))]
        exact grouped.earlier process before
      forks := by
        intro process member
        rw [group] at member
        rcases List.mem_append.mp member with old | new
        · obtain ⟨_, upper⟩ := (mem_groupOf grouped.le).mp old
          obtain ⟨seen, isFork, saw⟩ := grouped.forks process old
          refine ⟨seen, (kept process upper).trans isFork, ?_⟩
          intro other before
          rw [saw other before, kept other (Nat.lt_trans before upper)]
        · rw [List.mem_singleton.mp new]
          refine ⟨_, forked.pid, ?_⟩
          intro other before
          exact (kept other before).symm
      active := forked.active.trans grouped.active
      calls := by
        have same : (groupOf c now).flatMap (forkCalls now) =
            (groupOf c now).flatMap (forkCalls later) := by
          apply List.flatMap_congr
          intro process member
          rw [forkCalls, forkCalls, forked.input.strategy,
            kept process ((mem_groupOf grouped.le).mp member).2]
        rw [forked.calls, grouped.calls, same, group, List.flatMap_append,
          List.flatMap_singleton, List.append_assoc] }

/-- A group joins the list in input order. -/
theorem processArrival_lists (fork : Core → ProcessPtr → Int) (lists : Lists c queue)
    (pending : c.arrivalPtr < c.numProcess) :
    ∃ later untilNext, processArrival fork c = .ok (later, untilNext) ∧
      Lists later (queue ++ groupOf c later) ∧ GroupForked fork c later ∧
      Admitted c later c.arrivalPtr untilNext := by
  let invariant (now : Core) : Prop := Lists now (queue ++ groupOf c now) ∧ GroupForked fork c now
  have initially : invariant c := by
    refine ⟨?_, GroupForked.refl fork c⟩
    rw [groupOf, Nat.sub_self, List.range'_zero, List.append_nil]
    exact lists
  have progress : ∀ now, invariant now → now.arrivalPtr < now.numProcess →
      ∃ later, addArrivedProcess fork now = .ok later ∧ invariant later := by
    rintro now ⟨lists', grouped⟩ pending'
    obtain ⟨later, added, lists''⟩ := addArrivedProcess_lists fork lists' pending'
    have forked := addArrivedProcess_forked lists'.notPSJF added
    refine ⟨later, added, ?_, grouped.next forked⟩
    rw [groupOf_succ grouped.le forked.arrivalPtr, ← List.append_assoc]
    exact lists''
  obtain ⟨later, untilNext, ended, ⟨lists', grouped⟩, admitted⟩ :=
    processArrival_spec invariant progress initially pending
  exact ⟨later, untilNext, ended, lists', grouped, admitted⟩

/-! ### A slice end and a termination -/

/-- Nothing of the input or of the process table changed. -/
structure KeepsTable (c later : Core) : Prop where
  strategy : later.currentStrategy = c.currentStrategy
  numProcess : later.numProcess = c.numProcess
  arrivalPtr : later.arrivalPtr = c.arrivalPtr
  table : later.allProcessInfo = c.allProcessInfo

theorem KeepsTable.pid (keeps : KeepsTable c later) (process : ProcessPtr) :
    pidOf later process = pidOf c process := by
  rw [pidOf, keeps.table]
  rfl

theorem KeepsTable.trans {middle : Core} (first : KeepsTable c middle)
    (second : KeepsTable middle later) : KeepsTable c later where
  strategy := second.strategy.trans first.strategy
  numProcess := second.numProcess.trans first.numProcess
  arrivalPtr := second.arrivalPtr.trans first.arrivalPtr
  table := second.table.trans first.table

theorem RR.rotate_perm (queue : List ProcessPtr) : (RR.rotate queue).Perm queue := by
  cases queue with
  | nil => exact List.Perm.refl _
  | cons head tail => exact List.perm_append_singleton _ _

theorem timeslice_lists (lists : Lists c queue) (isRR : c.currentStrategy = .RR) :
    ∃ later, timesliceOver c = .ok later ∧ Lists later (RR.rotate queue) ∧ KeepsTable c later ∧
      later.calls = c.calls ++ [.timesliceOver] ∧
      ∀ head tail, queue = head :: tail →
        later.rr.pq.read later.rr.previousActiveId = .ok (some head) := by
  obtain ⟨later, ended, rfl, queued, atPrevious⟩ := RR.timesliceOver_queued (lists.queued isRR)
  exact ⟨_, ended, lists_of_queued queued, ⟨rfl, rfl, rfl, rfl⟩, rfl, atPrevious⟩

/-- Under SJF the process that terminates has to be the active one. -/
theorem child_lists (fork : Core → ProcessPtr → Int) {head : ProcessPtr}
    {rest : List ProcessPtr} (lists : Lists c (head :: rest))
    (active : c.currentStrategy = .SJF → c.sjf.activeProcess = some head) :
    ∃ later, handleEvent fork c .childTerminated = .ok later ∧ Lists later rest ∧
      KeepsTable c later ∧ later.calls = c.calls ++ [.wait, .removeCurrentProcess] ∧
      (c.currentStrategy = .SJF → later.sjf.activeProcess = none) := by
  rcases lists.cases with ⟨strategy, within, count, gone, bounded, isQueue⟩ | queued |
    ⟨gone, waiting, conserved, isQueue⟩
  · have someLeft : 0 < c.arrivalPtr - gone := by
      have length := congrArg List.length isQueue
      rw [List.length_cons, List.length_range'] at length
      omega
    have isRest : rest = List.range' (gone + 1) (c.arrivalPtr - (gone + 1)) := by
      rw [show c.arrivalPtr - gone = c.arrivalPtr - (gone + 1) + 1 by omega,
        List.range'_succ] at isQueue
      exact (List.cons.inj isQueue).2
    refine ⟨{ c with
      fifo := FIFO.removeCurrentProcess c.fifo
      calls := c.calls ++ [.wait, .removeCurrentProcess] }, ?_,
      lists_of_fifo strategy within ?_ (by omega : gone + 1 ≤ c.arrivalPtr) isRest,
      ⟨rfl, rfl, rfl, rfl⟩, rfl, ?_⟩
    · simp only [handleEvent, removeCurrentProcess, removeFromScheduler, strategy,
        List.append_assoc]
      rfl
    · change c.fifo.countProcess - 1 = _
      rw [count, List.length_cons]
      omega
    · intro isSJF
      rw [strategy] at isSJF
      cases isSJF
  · obtain ⟨later, rr, removed, rfl, queued', _⟩ :=
      RR.removeCurrentProcess_queued (queued.with_calls (c.calls ++ [.wait]))
    refine ⟨_, removed, lists_of_queued queued', ⟨rfl, rfl, rfl, rfl⟩, ?_, ?_⟩
    · change c.calls ++ [.wait] ++ [.removeCurrentProcess] = _
      rw [List.append_assoc]
      rfl
    · intro isSJF
      rw [queued.strategy] at isSJF
      cases isSJF
  · have isActive := active conserved.strategy
    obtain ⟨later, removed, conserved', idle, _, samePtr, sameNumber, calls⟩ :=
      SJF.child_conserved fork conserved isActive
    have isWaiting : rest = waiting := by
      rw [isActive] at isQueue
      exact (List.cons.inj isQueue).2
    have table : later.allProcessInfo = c.allProcessInfo := by
      simp only [handleEvent, removeCurrentProcess, removeFromScheduler,
        conserved.strategy] at removed
      rw [← Except.ok.inj removed]
    refine ⟨later, removed, lists_of_conserved conserved' ?_,
      ⟨(removeFromScheduler_internal removed).strategy, sameNumber, samePtr, table⟩, calls,
      fun _ => idle⟩
    rw [idle, isWaiting]
    rfl

/-! ### The context switch -/

/-- What a context switch does: the list it leaves and the calls it makes. -/
inductive Switches (c later : Core) (queue : List ProcessPtr) :
    List ProcessPtr → List PriorityCall → Prop where
  | nothing : c.currentStrategy = .FIFO → Switches c later queue queue []
  | rotates (stopped : Option ProcessPtr) : c.currentStrategy = .RR →
      (∀ process ∈ stopped, process ∈ queue) →
      (∀ process, c.rr.pq.read c.rr.previousActiveId = .ok (some process) →
        stopped = some process) →
      Switches c later queue queue
        (stopped.toList.map (fun process => .suspend (pidOf c process)) ++
          queue.head?.toList.map (fun process => .resume (pidOf c process)))
  | keeps (active : ProcessPtr) : c.currentStrategy = .SJF →
      c.sjf.activeProcess = some active → later.sjf.activeProcess = some active →
      Switches c later queue queue []
  | takes (top : ProcessPtr) (rest : List ProcessPtr) : c.currentStrategy = .SJF →
      c.sjf.activeProcess = none → later.sjf.activeProcess = some top →
      queue.Perm (top :: rest) →
      (∀ other ∈ queue, processKey c.allProcessInfo top ≤ processKey c.allProcessInfo other) →
      Switches c later queue (top :: rest) [.resume (pidOf c top)]

theorem contextSwitch_lists (lists : Lists c queue)
    (fed : c.currentStrategy = .SJF → c.sjf.activeProcess = none → queue ≠ []) :
    ∃ later queue' made, contextSwitch c = .ok later ∧ Lists later queue' ∧
      KeepsTable c later ∧ later.calls = c.calls ++ made.map .priority ∧
      Switches c later queue queue' made := by
  rcases lists.cases with ⟨strategy, _⟩ | queued | ⟨gone, waiting, conserved, isQueue⟩
  · refine ⟨c, queue, [], ?_, lists, ⟨rfl, rfl, rfl, rfl⟩, (List.append_nil _).symm,
      .nothing strategy⟩
    rw [contextSwitch, strategy]
    rfl
  · obtain ⟨stopped, inQueue, atPrevious, switched⟩ := RR.contextSwitch_queued queued
    refine ⟨_, queue, _, switched, lists_of_queued (queued.with_calls _), ⟨rfl, rfl, rfl, rfl⟩,
      ?_, .rotates stopped queued.strategy inQueue atPrevious⟩
    cases queue <;> simp only [List.map_append, List.map_map] <;> rfl
  · cases active : c.sjf.activeProcess with
    | some process =>
        refine ⟨c, queue, [], ?_, lists, ⟨rfl, rfl, rfl, rfl⟩, (List.append_nil _).symm,
          .keeps process conserved.strategy active active⟩
        rw [SJF.contextSwitch_of_sjf conserved.strategy (SJF.contextSwitch_keeps _ active),
          List.map_nil, List.append_nil]
    | none =>
        rw [active] at isQueue
        have someWaiting : (waiting : Multiset ProcessPtr) ≠ 0 := by
          intro isEmpty
          apply fed conserved.strategy active
          rw [isQueue, (Multiset.coe_eq_zero _).mp isEmpty]
          rfl
        obtain ⟨top, heap, switching, member, stores, sameLength, least⟩ :=
          SJF.contextSwitch_takes conserved.stores someWaiting active
        have inWaiting : top ∈ waiting := Multiset.mem_coe.mp member
        have arranged := List.perm_cons_erase inWaiting
        rw [Multiset.coe_erase] at stores
        refine ⟨_, top :: waiting.erase top, _,
          SJF.contextSwitch_of_sjf conserved.strategy switching, ?_, ⟨rfl, rfl, rfl, rfl⟩, rfl,
          .takes top (waiting.erase top) conserved.strategy active rfl ?_ ?_⟩
        · refine @lists_of_conserved _ _ gone (waiting.erase top) ?_ rfl
          exact
            { strategy := conserved.strategy
              within := conserved.within
              capacity := sameLength.trans conserved.capacity
              stores := stores
              accounted := by
                have accounted := conserved.accounted
                rw [active, Multiset.coe_add, Multiset.coe_add] at accounted
                change ((waiting.erase top : List ProcessPtr) : Multiset ProcessPtr) +
                  (([top] : List ProcessPtr) : Multiset ProcessPtr) + gone = _
                rw [Multiset.coe_add, Multiset.coe_add, ← accounted, Multiset.coe_eq_coe]
                apply List.Perm.append_right
                rw [Option.toList_none, List.append_nil]
                exact (List.perm_append_singleton _ _).trans arranged.symm }
        · rw [isQueue]
          exact arranged
        · intro other inQueue
          rw [isQueue] at inQueue
          exact least other (Multiset.mem_coe.mpr inQueue)

end UserScheduler
