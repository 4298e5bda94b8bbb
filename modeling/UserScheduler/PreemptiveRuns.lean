/-
PSJF simulates the preemptive shortest-job-first schedule.

PSJF is never told the time: it takes the arrival time of each new process as
the current time and adds the remaining time of each finished one.  The runs
here feed it events in the order of a virtual clock.  The reference schedule is
computed from the workload alone, one unit of time after the other.
-/

import UserScheduler.Lib.PreemptiveSchedule
import UserScheduler.PreemptiveCharging

namespace UserScheduler.PSJF

open Machines
open PreemptiveSchedule (Workload)

/-- A PSJF state with a running process, and the processes still to arrive. -/
structure Scenario where
  mem : Memory
  psjf : State
  live : List ProcessPtr
  later : List ProcessPtr
  running : ∃ active, Running mem psjf live active
  pids : ((live ++ later).map fun process => (mem process).pid).Nodup
  room : (live ++ later).length ≤ psjf.pq.pq.length
  unfinished : ∀ process ∈ live, 1 ≤ (mem process).remainingTime
  clock : psjf.lastContextSwitchTime = psjf.currentTime
  increasing : later.Pairwise fun first second =>
    (mem first).arrivalTime < (mem second).arrivalTime
  future : ∀ process ∈ later, psjf.currentTime < (mem process).arrivalTime
  whole : ∀ process ∈ later, (mem process).timeNeeded = (mem process).remainingTime ∧
    1 ≤ (mem process).remainingTime

namespace Scenario

variable (scenario : Scenario)

/-- Time units from the start of the scenario to an arrival. -/
def due (process : ProcessPtr) : Nat :=
  ((scenario.mem process).arrivalTime - scenario.psjf.currentTime).toNat

/-- What the reference schedule is told: nothing of the heap and nothing of the
events. -/
def workload : Workload ProcessPtr where
  jobs := scenario.live ++ scenario.later
  release process := if process ∈ scenario.later then scenario.due process else 0
  work process := (scenario.mem process).remainingTime
  rank process := (scenario.mem process).pid

theorem ranked : scenario.workload.Ranked := by
  intro first firstIn second secondIn sameRank
  exact List.inj_on_of_nodup_map scenario.pids firstIn secondIn sameRank

theorem jobs_nodup : (scenario.live ++ scenario.later).Nodup :=
  List.Nodup.of_map _ scenario.pids

end Scenario

/-- `elapsed` is the virtual clock, counted from the start of the scenario. -/
structure Timed where
  mem : Memory
  psjf : State
  elapsed : Nat
  waiting : List ProcessPtr

inductive TimedEvent where
  | arrival
  | termination (elapsed : Nat)
deriving DecidableEq

def Scenario.start (scenario : Scenario) : Timed :=
  { mem := scenario.mem
    psjf := scenario.psjf
    elapsed := 0
    waiting := scenario.later }

def timedStep (scenario : Scenario) (now : Timed) : TimedEvent → Result Timed
  | .arrival =>
      match now.waiting with
      | [] => return now
      | process :: rest => do
          let added ← addProcess now.mem now.psjf process
          let switched ← contextSwitch added.1 added.2
          return {
            mem := added.1
            psjf := switched.1
            elapsed := scenario.due process
            waiting := rest }
  | .termination elapsed => do
      let removed ← removeCurrentProcess now.mem now.psjf
      let switched ← contextSwitch now.mem removed
      return { now with psjf := switched.1, elapsed := elapsed }

/-- The active process has work left, by the reference, up to a time. -/
def Busy (scenario : Scenario) (now : Timed) (deadline : Nat) : Prop :=
  ∀ active, now.psjf.activeProcess = some active → ∀ time, now.elapsed ≤ time → time < deadline →
    scenario.workload.remaining time active ≠ 0

/-- Events in the order of the virtual clock.  A process arrives at its arrival
time, unless the active one has finished before or the heap is empty.  The
active process terminates when it has run its reference work, unless a process
has arrived before. -/
def timedMachine (scenario : Scenario) : Machine Timed TimedEvent Fault where
  enabled now
    | .arrival => heapEmpty now.psjf.pq = false ∧
        ∃ process rest, now.waiting = process :: rest ∧ Busy scenario now (scenario.due process)
    | .termination elapsed => now.elapsed ≤ elapsed ∧ Busy scenario now elapsed ∧
        (∃ active, now.psjf.activeProcess = some active ∧
          scenario.workload.remaining elapsed active = 0) ∧
        ∀ process ∈ now.waiting, elapsed ≤ scenario.due process
  step := timedStep scenario

/-! ### The invariant -/

/-- Where every job of the scenario is, and what PSJF knows about it. -/
structure Accounted (scenario : Scenario) (now : Timed) (live finished : Multiset ProcessPtr) :
    Prop where
  stores : now.psjf.pq.Stores now.mem live
  capacity : now.psjf.pq.pq.length = scenario.psjf.pq.pq.length
  accounted : live + (now.waiting : Multiset ProcessPtr) + finished =
    (scenario.live ++ scenario.later : List ProcessPtr)
  waitingLater : now.waiting ⊆ scenario.later
  increasing : now.waiting.Pairwise fun first second =>
    scenario.due first < scenario.due second
  pending : ∀ process ∈ now.waiting, now.elapsed ≤ scenario.due process ∧
    now.mem process = scenario.mem process ∧
    scenario.workload.remaining now.elapsed process = (scenario.mem process).remainingTime
  clock : now.psjf.currentTime = scenario.psjf.currentTime + now.elapsed
  charged : ∀ process ∈ live, now.mem process = { scenario.mem process with
    remainingTime := scenario.workload.remaining now.elapsed process }
  released : ∀ process ∈ live, scenario.workload.release process ≤ now.elapsed
  done : ∀ process ∈ finished, scenario.workload.remaining now.elapsed process = 0
  nonnegative : ∀ process ∈ live, 0 ≤ scenario.workload.remaining now.elapsed process

/-- What holds between two events: only the active process may have finished,
namely when another one arrived at the same instant. -/
structure Simulates (scenario : Scenario) (now : Timed) (live finished : Multiset ProcessPtr) :
    Prop extends Accounted scenario now live finished where
  switched : now.psjf.lastContextSwitchTime = now.psjf.currentTime
  oneFinished : ∀ process ∈ live, now.psjf.activeProcess ≠ some process →
    0 < scenario.workload.remaining now.elapsed process
  active : (live = 0 ∧ now.psjf.activeProcess = none) ∨
    ∃ active, Running now.mem now.psjf live active

variable {scenario : Scenario} {now : Timed} {live finished : Multiset ProcessPtr}
  {active : ProcessPtr}

theorem Accounted.mem_jobs (holds : Accounted scenario now live finished)
    (process : ProcessPtr) :
    process ∈ scenario.workload.jobs ↔
      process ∈ live ∨ process ∈ now.waiting ∨ process ∈ finished := by
  change process ∈ scenario.live ++ scenario.later ↔ _
  rw [← Multiset.mem_coe, ← holds.accounted, Multiset.mem_add, Multiset.mem_add,
    Multiset.mem_coe, or_assoc]

theorem Accounted.distinct (holds : Accounted scenario now live finished) :
    (live + (now.waiting : Multiset ProcessPtr) + finished).Nodup := by
  rw [holds.accounted]
  exact Multiset.coe_nodup.mpr scenario.jobs_nodup

theorem Accounted.live_nodup (holds : Accounted scenario now live finished) : live.Nodup :=
  (Multiset.nodup_add.mp (Multiset.nodup_add.mp holds.distinct).1).1

theorem Accounted.not_waiting (holds : Accounted scenario now live finished)
    {process : ProcessPtr} (member : process ∈ live) : process ∉ now.waiting := by
  have apart := (Multiset.nodup_add.mp (Multiset.nodup_add.mp holds.distinct).1).2.2
  exact Multiset.disjoint_left.mp apart member

/-- PSJF's keys are the reference keys. -/
theorem Accounted.key_eq (holds : Accounted scenario now live finished)
    {process : ProcessPtr} (member : process ∈ live) :
    processKey now.mem process = scenario.workload.key now.elapsed process := by
  unfold processKey
  rw [holds.charged process member]
  rfl

theorem Accounted.release_waiting (holds : Accounted scenario now live finished)
    {process : ProcessPtr} (member : process ∈ now.waiting) :
    scenario.workload.release process = scenario.due process :=
  if_pos (holds.waitingLater member)

theorem start_remaining (scenario : Scenario) (process : ProcessPtr) :
    scenario.workload.remaining scenario.start.elapsed process =
      (scenario.mem process).remainingTime := Workload.remaining_zero

theorem start_simulates (scenario : Scenario) :
    Simulates scenario scenario.start scenario.live 0 where
  stores := by
    obtain ⟨active, running⟩ := scenario.running
    exact running.stores
  capacity := rfl
  accounted := by
    rw [Multiset.add_zero, Multiset.coe_add]
    rfl
  waitingLater := List.Subset.refl _
  increasing := by
    apply List.Pairwise.imp_of_mem _ scenario.increasing
    intro first second firstIn secondIn less
    have after := scenario.future first firstIn
    unfold Scenario.due
    omega
  pending := by
    intro process _
    exact ⟨Nat.zero_le _, rfl, Workload.remaining_zero⟩
  clock := (Int.add_zero _).symm
  switched := scenario.clock
  charged := by
    intro process _
    rw [start_remaining]
    rfl
  released := by
    intro process member
    have notLater : process ∉ scenario.later := fun isLater =>
      List.disjoint_of_nodup_append scenario.jobs_nodup member isLater
    change (if process ∈ scenario.later then _ else 0) ≤ 0
    rw [if_neg notLater]
  done := by
    intro process impossible
    exact absurd impossible (Multiset.notMem_zero process)
  nonnegative := by
    intro process member
    rw [start_remaining]
    have positive := scenario.unfinished process member
    omega
  oneFinished := by
    intro process member _
    rw [start_remaining]
    exact scenario.unfinished process member
  active := Or.inr scenario.running

/-! ### Between two events -/

/-- Of the jobs released before some arrival is due, none that still has work is
before the active process. -/
theorem Accounted.active_least (holds : Accounted scenario now live finished)
    (running : Running now.mem now.psjf live active) {bound : Nat}
    (noArrival : ∀ process ∈ now.waiting, bound ≤ scenario.due process) {other : ProcessPtr}
    (isJob : other ∈ scenario.workload.jobs) (early : scenario.workload.release other < bound)
    (unfinished : 0 < scenario.workload.remaining now.elapsed other) :
    scenario.workload.key now.elapsed active ≤ scenario.workload.key now.elapsed other := by
  rcases (holds.mem_jobs other).mp isJob with isLive | isWaiting | isDone
  · rw [← holds.key_eq running.member, ← holds.key_eq isLive]
    exact running.least other isLive
  · rw [holds.release_waiting isWaiting] at early
    have late := noArrival other isWaiting
    omega
  · rw [holds.done other isDone] at unfinished
    exact absurd unfinished (Int.lt_irrefl 0)

/-- While the active process is busy and nobody arrives, the reference serves
that process and no other. -/
theorem Simulates.advance (simulates : Simulates scenario now live finished)
    (running : Running now.mem now.psjf live active) {elapsed : Nat}
    (forward : now.elapsed ≤ elapsed) (busy : Busy scenario now elapsed)
    (noArrival : ∀ process ∈ now.waiting, elapsed ≤ scenario.due process) :
    scenario.workload.remaining elapsed active =
        scenario.workload.remaining now.elapsed active - ((elapsed : Int) - now.elapsed) ∧
      0 ≤ scenario.workload.remaining elapsed active ∧
      ∀ other, other ≠ active → scenario.workload.remaining elapsed other =
        scenario.workload.remaining now.elapsed other := by
  obtain ⟨units, isLater⟩ := Nat.exists_eq_add_of_le forward
  subst isLater
  have isJob : active ∈ scenario.workload.jobs :=
    (simulates.mem_jobs active).mpr (Or.inl running.member)
  obtain ⟨lowered, nonnegative, others⟩ := Workload.remaining_of_least scenario.ranked isJob
    (simulates.released active running.member) (simulates.nonnegative active running.member)
    units (busy active running.isActive)
    fun other otherJob early unfinished =>
      simulates.active_least running noArrival otherJob early unfinished
  refine ⟨?_, nonnegative, others⟩
  rw [lowered]
  omega

/-- The switch makes the least process active. -/
theorem Accounted.switch {mid : Timed} (holds : Accounted scenario mid live finished)
    (candidate : ProcessPtr)
    (others : ∀ process ∈ live, process ≠ candidate →
      0 < scenario.workload.remaining mid.elapsed process)
    (idle : live = 0 → mid.psjf.activeProcess = none) :
    ∃ psjf made, contextSwitch mid.mem mid.psjf = .ok (psjf, made) ∧
      Simulates scenario { mid with psjf := psjf } live finished := by
  obtain ⟨psjf, made, switching, samePq, sameTime, switched, ifEmpty, ifStored⟩ :=
    contextSwitch_spec holds.stores
  have kept : Accounted scenario { mid with psjf := psjf } live finished :=
    { holds with
      stores := by
        change psjf.pq.Stores mid.mem live
        rw [samePq]
        exact holds.stores
      capacity := by
        change psjf.pq.pq.length = _
        rw [samePq]
        exact holds.capacity
      clock := sameTime.trans holds.clock }
  refine ⟨psjf, made, switching, kept, switched.trans sameTime.symm, ?_, ?_⟩
  · intro process member notActive
    by_cases isCandidate : process = candidate
    · have nonempty : live ≠ 0 := by
        rintro rfl
        exact Multiset.notMem_zero process member
      obtain ⟨active, running⟩ := ifStored nonempty
      have different : active ≠ candidate := by
        rintro rfl
        rw [isCandidate] at notActive
        exact notActive running.isActive
      have positive := others active running.member different
      have ordered := running.least process member
      rw [kept.key_eq running.member, kept.key_eq member] at ordered
      rcases Prod.Lex.toLex_le_toLex.mp ordered with less | same
      · exact Int.lt_trans positive less
      · exact Int.lt_of_lt_of_le positive (Int.le_of_eq same.1)
    · exact others process member isCandidate
  · by_cases isEmpty : live = 0
    · exact Or.inl ⟨isEmpty, (ifEmpty isEmpty).trans (idle isEmpty)⟩
    · exact Or.inr (ifStored isEmpty)

/-! ### The two events -/

theorem due_eq {scenario : Scenario} {process : ProcessPtr} (member : process ∈ scenario.later) :
    (scenario.mem process).arrivalTime =
      scenario.psjf.currentTime + (scenario.due process : Int) := by
  have after := scenario.future process member
  unfold Scenario.due
  omega

theorem Accounted.waiting_ne (holds : Accounted scenario now live finished)
    (member : active ∈ live) {other : ProcessPtr} (isWaiting : other ∈ now.waiting) :
    other ≠ active := by
  rintro rfl
  exact holds.not_waiting member isWaiting

theorem Accounted.done_ne (holds : Accounted scenario now live finished)
    (member : active ∈ live) {other : ProcessPtr} (isDone : other ∈ finished) :
    other ≠ active := by
  rintro rfl
  have apart := (Multiset.nodup_add.mp holds.distinct).2.2
  exact Multiset.disjoint_left.mp apart (Multiset.mem_add.mpr (Or.inl member)) isDone

/-- Only the active process may have finished. -/
theorem Simulates.unfinished_of_ne (simulates : Simulates scenario now live finished)
    (running : Running now.mem now.psjf live active) {other : ProcessPtr} (isLive : other ∈ live)
    (different : other ≠ active) : 0 < scenario.workload.remaining now.elapsed other := by
  apply simulates.oneFinished other isLive
  rw [running.isActive]
  intro same
  exact different (Option.some.inj same).symm

/-- The heap was allocated for everyone, so a process that waits fits in. -/
theorem Accounted.room (holds : Accounted scenario now live finished) {process : ProcessPtr}
    {rest : List ProcessPtr} (next : now.waiting = process :: rest) :
    live.card < now.psjf.pq.pq.length := by
  have counted := congrArg Multiset.card holds.accounted
  have fits := scenario.room
  rw [next, Multiset.card_add, Multiset.card_add, Multiset.coe_card, Multiset.coe_card,
    List.length_cons] at counted
  rw [holds.capacity]
  omega

/-- The first process in the line is the next to arrive. -/
theorem Accounted.first_due (holds : Accounted scenario now live finished) {process : ProcessPtr}
    {rest : List ProcessPtr} (next : now.waiting = process :: rest) :
    (∀ other ∈ rest, scenario.due process < scenario.due other) ∧
      ∀ other ∈ now.waiting, scenario.due process ≤ scenario.due other := by
  have increasing := holds.increasing
  rw [next] at increasing
  have firstDue := (List.pairwise_cons.mp increasing).1
  refine ⟨firstDue, ?_⟩
  intro other member
  rw [next] at member
  rcases List.mem_cons.mp member with same | inTail
  · rw [same]
  · exact Nat.le_of_lt (firstDue other inTail)

/-- Between `add_process_PSJF` and the switch. -/
def Timed.admitted (scenario : Scenario) (now : Timed) (active process : ProcessPtr)
    (rest : List ProcessPtr) (pq : Heap) : Timed :=
  { mem := charged now.mem now.psjf active (now.mem process).arrivalTime
    psjf := { now.psjf with pq := pq, currentTime := (now.mem process).arrivalTime }
    elapsed := scenario.due process
    waiting := rest }

/-- The process that arrives is whole, the active one was charged, and nobody
else was touched. -/
theorem admitted_charged (simulates : Simulates scenario now live finished)
    (running : Running now.mem now.psjf live active) {process : ProcessPtr}
    {rest : List ProcessPtr} {pq : Heap} (isWaiting : process ∈ now.waiting)
    (lowered : scenario.workload.remaining (scenario.due process) active =
      scenario.workload.remaining now.elapsed active -
        ((scenario.due process : Int) - now.elapsed))
    (others : ∀ other, other ≠ active →
      scenario.workload.remaining (scenario.due process) other =
        scenario.workload.remaining now.elapsed other) :
    ∀ other ∈ process ::ₘ live, (now.admitted scenario active process rest pq).mem other =
      { scenario.mem other with
        remainingTime := scenario.workload.remaining (scenario.due process) other } := by
  obtain ⟨_, untouched, unserved⟩ := simulates.pending process isWaiting
  have passed : (now.mem process).arrivalTime - now.psjf.lastContextSwitchTime =
      (scenario.due process : Int) - now.elapsed := by
    rw [untouched, due_eq (simulates.waitingLater isWaiting), simulates.switched,
      simulates.clock]
    omega
  intro other member
  rcases Multiset.mem_cons.mp member with isNew | isLive
  · have different := simulates.waiting_ne running.member isWaiting
    rw [isNew, others process different, unserved]
    exact (charged_other _ different).trans untouched
  · by_cases isActive : other = active
    · subst isActive
      change charged now.mem now.psjf other (now.mem process).arrivalTime other = _
      rw [charged_active, passed, simulates.charged other isLive, lowered]
    · rw [others other isActive, ← simulates.charged other isLive]
      exact charged_other _ isActive

theorem arrival_accounted (simulates : Simulates scenario now live finished)
    (running : Running now.mem now.psjf live active) {process : ProcessPtr}
    {rest : List ProcessPtr} (next : now.waiting = process :: rest)
    (busy : Busy scenario now (scenario.due process)) :
    ∃ pq, addProcess now.mem now.psjf process =
        .ok ((now.admitted scenario active process rest pq).mem,
          (now.admitted scenario active process rest pq).psjf) ∧
      Accounted scenario (now.admitted scenario active process rest pq) (process ::ₘ live)
        finished ∧
      ∀ other ∈ process ::ₘ live, other ≠ active →
        0 < scenario.workload.remaining (scenario.due process) other := by
  have inRest : ∀ other ∈ rest, other ∈ now.waiting := by
    intro other member
    rw [next]
    exact List.mem_cons_of_mem process member
  have isWaiting : process ∈ now.waiting := by
    rw [next]
    exact List.mem_cons_self
  obtain ⟨forward, untouched, unserved⟩ := simulates.pending process isWaiting
  have isLater := simulates.waitingLater isWaiting
  have whole := (scenario.whole process isLater).2
  obtain ⟨firstDue, noArrival⟩ := simulates.first_due next
  obtain ⟨lowered, nonnegative, others⟩ := simulates.advance running forward busy noArrival
  have unfinished : ∀ other ∈ process ::ₘ live, other ≠ active →
      0 < scenario.workload.remaining (scenario.due process) other := by
    intro other member different
    rw [others other different]
    rcases Multiset.mem_cons.mp member with isNew | isLive
    · rw [isNew, unserved]
      omega
    · exact simulates.unfinished_of_ne running isLive different
  have arrivalTime : (now.mem process).arrivalTime =
      scenario.psjf.currentTime + (scenario.due process : Int) := by
    rw [untouched, due_eq isLater]
  have onward : now.psjf.lastContextSwitchTime ≤ (now.mem process).arrivalTime := by
    rw [arrivalTime, simulates.switched, simulates.clock]
    omega
  obtain ⟨pq, added, stores, sameLength, _⟩ :=
    addProcess_spec running simulates.live_nodup (simulates.room next) onward
  refine ⟨pq, added, ?_, unfinished⟩
  exact
    { stores := stores
      capacity := sameLength.trans simulates.capacity
      accounted := by
        have accounted := simulates.accounted
        rw [next, ← Multiset.cons_coe, Multiset.add_cons] at accounted
        rw [Multiset.cons_add]
        exact accounted
      waitingLater := fun other member => simulates.waitingLater (inRest other member)
      increasing := by
        have increasing := simulates.increasing
        rw [next] at increasing
        exact (List.pairwise_cons.mp increasing).2
      pending := by
        intro other member
        obtain ⟨_, otherUntouched, otherUnserved⟩ :=
          simulates.pending other (inRest other member)
        have different := simulates.waiting_ne running.member (inRest other member)
        exact ⟨Nat.le_of_lt (firstDue other member),
          (charged_other _ different).trans otherUntouched,
          (others other different).trans otherUnserved⟩
      clock := arrivalTime
      charged := admitted_charged simulates running isWaiting lowered others
      released := by
        intro other member
        rcases Multiset.mem_cons.mp member with isNew | isLive
        · rw [isNew, simulates.release_waiting isWaiting]
          exact Nat.le_refl _
        · exact Nat.le_trans (simulates.released other isLive) forward
      done := by
        intro other isDone
        have different := simulates.done_ne running.member isDone
        exact (others other different).trans (simulates.done other isDone)
      nonnegative := by
        intro other member
        by_cases isActive : other = active
        · rw [isActive]
          exact nonnegative
        · exact Int.le_of_lt (unfinished other member isActive) }

theorem arrival_simulates (simulates : Simulates scenario now live finished)
    (running : Running now.mem now.psjf live active) {process : ProcessPtr}
    {rest : List ProcessPtr} (next : now.waiting = process :: rest)
    (busy : Busy scenario now (scenario.due process)) :
    ∃ later, timedStep scenario now .arrival = .ok later ∧
      Simulates scenario later (process ::ₘ live) finished := by
  obtain ⟨pq, added, holds, unfinished⟩ := arrival_accounted simulates running next busy
  obtain ⟨psjf, made, switching, simulates'⟩ := holds.switch active unfinished
    (fun impossible => absurd impossible Multiset.cons_ne_zero)
  refine ⟨_, ?_, simulates'⟩
  rw [timedStep, next]
  change (addProcess now.mem now.psjf process >>= _) = _
  rw [added, ok_bind, switching]
  rfl

/-- Between `remove_current_process_PSJF` and the switch. -/
def Timed.vacated (now : Timed) (active : ProcessPtr) (elapsed : Nat) (pq : Heap) : Timed :=
  { now with
    psjf := { now.psjf with
      pq := pq
      activeProcess := none
      currentTime := now.psjf.currentTime + (now.mem active).remainingTime }
    elapsed := elapsed }

theorem termination_accounted (simulates : Simulates scenario now live finished)
    (running : Running now.mem now.psjf live active) {elapsed : Nat}
    (forward : now.elapsed ≤ elapsed) (busy : Busy scenario now elapsed)
    (ended : scenario.workload.remaining elapsed active = 0)
    (noArrival : ∀ process ∈ now.waiting, elapsed ≤ scenario.due process) :
    ∃ pq, removeCurrentProcess now.mem now.psjf = .ok (now.vacated active elapsed pq).psjf ∧
      Accounted scenario (now.vacated active elapsed pq) (live.erase active)
        (active ::ₘ finished) ∧
      ∀ other ∈ live.erase active, other ≠ active →
        0 < scenario.workload.remaining elapsed other := by
  obtain ⟨lowered, _, others⟩ := simulates.advance running forward busy noArrival
  obtain ⟨pq, removed, stores, sameLength⟩ := removeCurrentProcess_spec running
  have workLeft : (now.mem active).remainingTime =
      scenario.workload.remaining now.elapsed active := by
    rw [simulates.charged active running.member]
  have kept : ∀ other ∈ live.erase active, other ∈ live ∧ other ≠ active := by
    intro other member
    have both := simulates.live_nodup.mem_erase_iff.mp member
    exact ⟨both.2, both.1⟩
  have unfinished : ∀ other ∈ live.erase active, other ≠ active →
      0 < scenario.workload.remaining elapsed other := by
    intro other member different
    rw [others other different]
    exact simulates.unfinished_of_ne running (kept other member).1 different
  refine ⟨pq, removed, ?_, unfinished⟩
  exact
    { stores := stores
      capacity := sameLength.trans simulates.capacity
      accounted := by
        rw [Multiset.add_cons, ← Multiset.cons_add, ← Multiset.cons_add,
          Multiset.cons_erase running.member]
        exact simulates.accounted
      waitingLater := simulates.waitingLater
      increasing := simulates.increasing
      pending := by
        intro other isWaiting
        obtain ⟨_, untouched, unserved⟩ := simulates.pending other isWaiting
        have different := simulates.waiting_ne running.member isWaiting
        exact ⟨noArrival other isWaiting, untouched, (others other different).trans unserved⟩
      clock := by
        change now.psjf.currentTime + (now.mem active).remainingTime = _ + (elapsed : Int)
        rw [workLeft, simulates.clock]
        omega
      charged := by
        intro other member
        obtain ⟨isLive, different⟩ := kept other member
        change now.mem other = _
        rw [simulates.charged other isLive, ← others other different]
        rfl
      released := by
        intro other member
        exact Nat.le_trans (simulates.released other (kept other member).1) forward
      done := by
        intro other member
        by_cases isActive : other = active
        · rw [isActive]
          exact ended
        · have isDone := (Multiset.mem_cons.mp member).resolve_left isActive
          exact (others other isActive).trans (simulates.done other isDone)
      nonnegative := by
        intro other member
        exact Int.le_of_lt (unfinished other member (kept other member).2) }

theorem termination_simulates (simulates : Simulates scenario now live finished)
    (running : Running now.mem now.psjf live active) {elapsed : Nat}
    (forward : now.elapsed ≤ elapsed) (busy : Busy scenario now elapsed)
    (ended : scenario.workload.remaining elapsed active = 0)
    (noArrival : ∀ process ∈ now.waiting, elapsed ≤ scenario.due process) :
    ∃ later, timedStep scenario now (.termination elapsed) = .ok later ∧
      Simulates scenario later (live.erase active) (active ::ₘ finished) := by
  obtain ⟨pq, removed, holds, unfinished⟩ :=
    termination_accounted simulates running forward busy ended noArrival
  obtain ⟨psjf, made, switching, simulates'⟩ := holds.switch active unfinished (fun _ => rfl)
  refine ⟨_, ?_, simulates'⟩
  rw [timedStep, removed, ok_bind]
  change (contextSwitch (now.vacated active elapsed pq).mem
    (now.vacated active elapsed pq).psjf >>= _) = _
  rw [switching]
  rfl

/-! ### Runs -/

/-- The state PSJF is in, seen from the reference schedule. -/
structure FollowsReference (scenario : Scenario) (now : Timed)
    (live finished : Multiset ProcessPtr) : Prop where
  stores : now.psjf.pq.Stores now.mem live
  accounted : live + (now.waiting : Multiset ProcessPtr) + finished =
    (scenario.live ++ scenario.later : List ProcessPtr)
  finished : ∀ process ∈ finished, (scenario.mem process).remainingTime =
    scenario.workload.served now.elapsed process
  clock : now.psjf.currentTime = scenario.psjf.currentTime + now.elapsed
  info : ∀ process ∈ live, now.mem process = { scenario.mem process with
    remainingTime := (scenario.mem process).remainingTime -
      scenario.workload.served now.elapsed process }
  needed : ∀ process ∈ live, process ∈ scenario.later → (now.mem process).remainingTime =
    (now.mem process).timeNeeded - scenario.workload.served now.elapsed process
  idle : live = 0 → now.psjf.activeProcess = none
  active : live ≠ 0 → ∃ active ∈ live, now.psjf.activeProcess = some active ∧
    ∀ process ∈ live, scenario.workload.key now.elapsed active ≤
      scenario.workload.key now.elapsed process
  -- once every event of this instant was handled
  chosen : ∀ active, now.psjf.activeProcess = some active →
    scenario.workload.remaining now.elapsed active ≠ 0 →
    (∀ process ∈ now.waiting, now.elapsed < scenario.due process) →
    scenario.workload.chosen now.elapsed = some active

theorem Simulates.follows (simulates : Simulates scenario now live finished) :
    FollowsReference scenario now live finished where
  stores := simulates.stores
  accounted := simulates.accounted
  finished := by
    intro process isDone
    have spent := simulates.done process isDone
    exact Int.sub_eq_zero.mp spent
  clock := simulates.clock
  info := simulates.charged
  needed := by
    intro process member isLater
    rw [simulates.charged process member]
    change _ = (scenario.mem process).timeNeeded - _
    rw [(scenario.whole process isLater).1]
    rfl
  idle := by
    intro isEmpty
    rcases simulates.active with ⟨_, idle⟩ | ⟨active, running⟩
    · exact idle
    · exact absurd isEmpty running.nonempty
  active := by
    intro nonempty
    rcases simulates.active with ⟨isEmpty, _⟩ | ⟨active, running⟩
    · exact absurd isEmpty nonempty
    · refine ⟨active, running.member, running.isActive, ?_⟩
      intro process member
      rw [← simulates.key_eq running.member, ← simulates.key_eq member]
      exact running.least process member
  chosen := by
    intro active isActive busy noArrival
    rcases simulates.active with ⟨_, idle⟩ | ⟨found, running⟩
    · rw [idle] at isActive
      cases isActive
    · have isFound : found = active :=
        Option.some.inj (running.isActive.symm.trans isActive)
      subst isFound
      have nonnegative := simulates.nonnegative found running.member
      apply Workload.chosen_eq scenario.ranked
        ((simulates.mem_jobs found).mpr (Or.inl running.member))
        (simulates.released found running.member) (by omega)
      intro other isJob isReleased unfinished
      exact simulates.active_least running noArrival isJob (Nat.lt_succ_of_le isReleased)
        unfinished

theorem timedStep_simulates (simulates : Simulates scenario now live finished)
    {event : TimedEvent} (allowed : (timedMachine scenario).enabled now event) :
    ∃ later live' finished', timedStep scenario now event = .ok later ∧
      Simulates scenario later live' finished' := by
  cases event with
  | arrival =>
      obtain ⟨notEmpty, process, rest, next, busy⟩ := allowed
      rcases simulates.active with ⟨isEmpty, _⟩ | ⟨active, running⟩
      · rw [(heapEmpty_iff simulates.stores).mpr isEmpty] at notEmpty
        cases notEmpty
      · obtain ⟨later, stepped, simulates'⟩ := arrival_simulates simulates running next busy
        exact ⟨later, _, _, stepped, simulates'⟩
  | termination elapsed =>
      obtain ⟨forward, busy, ⟨active, isActive, ended⟩, noArrival⟩ := allowed
      rcases simulates.active with ⟨_, idle⟩ | ⟨found, running⟩
      · rw [idle] at isActive
        cases isActive
      · have isFound : found = active :=
          Option.some.inj (running.isActive.symm.trans isActive)
        subst isFound
        obtain ⟨later, stepped, simulates'⟩ :=
          termination_simulates simulates running forward busy ended noArrival
        exact ⟨later, _, _, stepped, simulates'⟩

/-- In every run in the order of the virtual clock PSJF knows the time, the
work left of every live process and which one the reference serves, and no
event faults. -/
theorem psjf_follows_reference (scenario : Scenario) :
    (timedMachine scenario).Safe scenario.start ∧
      ∀ history now, (timedMachine scenario).Run scenario.start history now →
        ∃ live finished, FollowsReference scenario now live finished := by
  have progress : ∀ now event, (∃ live finished, Simulates scenario now live finished) →
      (timedMachine scenario).enabled now event →
      ∃ later, (timedMachine scenario).step now event = .ok later ∧
        ∃ live finished, Simulates scenario later live finished := by
    rintro now event ⟨live, finished, simulates⟩ allowed
    obtain ⟨later, live', finished', stepped, simulates'⟩ := timedStep_simulates simulates allowed
    exact ⟨later, stepped, live', finished', simulates'⟩
  have initially : ∃ live finished, Simulates scenario scenario.start live finished :=
    ⟨_, _, start_simulates scenario⟩
  constructor
  · exact Machine.safe_of_progress _ initially progress
  · intro history now run
    obtain ⟨live, finished, simulates⟩ := run.holds_of_progress _ initially progress
    exact ⟨live, finished, simulates.follows⟩

/-- A job of three units is preempted after one by a job of one unit. -/
def preempted : Scenario where
  mem process := if process = 0 then ⟨0, 3, 3, 100⟩ else ⟨1, 1, 1, 101⟩
  psjf :=
    { pq := { pq := [some 0, none], heapSize := 1 }
      activeProcess := some 0
      lastContextSwitchTime := 0
      currentTime := 0 }
  live := [0]
  later := [1]
  running := ⟨0, running_alone _ 0 _ 0⟩
  pids := by decide
  room := by decide
  unfinished := by decide
  clock := rfl
  increasing := by decide
  future := by decide
  whole := by decide

theorem psjf_follows_reference_preempted :
    ∃ now live finished,
      (timedMachine preempted).Run preempted.start [.arrival, .termination 2] now ∧
      now.psjf.activeProcess = some 0 ∧ (now.mem 0).remainingTime = 2 ∧
      FollowsReference preempted now live finished := by
  have arrives : (timedMachine preempted).enabled preempted.start .arrival := by
    refine ⟨rfl, 1, [], rfl, ?_⟩
    intro active isActive time _ before
    have isFirst : active = 0 := (Option.some.inj isActive).symm
    have isZero : time = 0 := Nat.lt_one_iff.mp before
    rw [isFirst, isZero]
    decide
  obtain ⟨now, run, isActive, remaining⟩ : ∃ now,
      (timedMachine preempted).Run preempted.start [.arrival, .termination 2] now ∧
      now.psjf.activeProcess = some 0 ∧ (now.mem 0).remainingTime = 2 := by
    refine ⟨_, (Machine.Run.start.next arrives rfl).next ⟨by decide, ?_, ⟨1, rfl, by decide⟩, ?_⟩
      rfl, rfl, rfl⟩
    · intro active isActive time after before
      have isSecond : active = 1 := (Option.some.inj isActive).symm
      have isOne : time = 1 := Nat.le_antisymm (Nat.le_of_lt_succ before) after
      rw [isSecond, isOne]
      decide
    · intro process impossible
      exact absurd impossible List.not_mem_nil
  obtain ⟨live, finished, follows⟩ := (psjf_follows_reference preempted).2 _ now run
  exact ⟨now, live, finished, run, isActive, remaining, follows⟩

end UserScheduler.PSJF
