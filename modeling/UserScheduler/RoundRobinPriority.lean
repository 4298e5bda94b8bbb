/-
Under RR exactly one live child has the high priority.

A child's level is the last call made on its pid.  Before a context switch every
process behind the head is low, except perhaps the one `previous_active_id`
points to; the switch suspends that one and raises the head.  The index may be
stale, but it stays inside the array, so all it can do wrong is to lower a
process that is low already or the head, which is raised right after.
-/

import UserScheduler.RoundRobinRuns

namespace UserScheduler.RR

open Machines

inductive Level where
  | low
  | high
deriving DecidableEq, Repr

/-- How one call changes the level of the child with this pid. -/
def levelAfter (pid : Int) (level : Option Level) : Call → Option Level
  | .priority (.suspend target) => if target = pid then some .low else level
  | .priority (.resume target) => if target = pid then some .high else level
  | _ => level

/-- The level the last call on a pid left it with. -/
def lastLevel (calls : List Call) (pid : Int) : Option Level :=
  calls.foldl (levelAfter pid) none

theorem lastLevel_append (calls made : List Call) (pid : Int) :
    lastLevel (calls ++ made) pid = made.foldl (levelAfter pid) (lastLevel calls pid) :=
  List.foldl_append

def levelOf (c : Core) (process : ProcessPtr) : Option Level :=
  lastLevel c.calls (c.allProcessInfo process).pid

/-- `fork` never returns the pid of a child that has not been waited for. -/
def ForkFresh (fork : Core → ProcessPtr → Int) : Prop :=
  ∀ c process live, some live ∈ readyQueue c.rr → (c.allProcessInfo live).pid ≠ fork c process

/-- Live children have different pids. -/
def DistinctPids (c : Core) (queue : List ProcessPtr) : Prop :=
  ∀ first ∈ queue, ∀ second ∈ queue,
    (c.allProcessInfo first).pid = (c.allProcessInfo second).pid → first = second

/-- All but the head are low. -/
def OthersLow (c : Core) (queue : List ProcessPtr) : Prop :=
  ∀ process ∈ queue.tail, levelOf c process = some .low

variable {fork : Core → ProcessPtr → Int} {c later : Core} {queue : List ProcessPtr}

/-! ### Arrivals -/

/-- A fresh child is suspended, and nobody else's level changes. -/
theorem TakenIn.levelOf_new (taken : TakenIn fork c later) :
    levelOf later c.arrivalPtr = some .low := by
  rw [levelOf, taken.calls, lastLevel_append]
  change levelAfter _ _ (.priority (.suspend _)) = some .low
  rw [levelAfter, if_pos rfl]

theorem TakenIn.levelOf_other (taken : TakenIn fork c later) {process : ProcessPtr}
    (different : process ≠ c.arrivalPtr)
    (fresh : (c.allProcessInfo process).pid ≠ (later.allProcessInfo c.arrivalPtr).pid) :
    levelOf later process = levelOf c process := by
  rw [levelOf, taken.others process different, taken.calls, lastLevel_append]
  change levelAfter _ _ (.priority (.suspend _)) = _
  rw [levelAfter, if_neg (Ne.symm fresh)]
  rfl

theorem addArrivedProcess_low (fresh : ForkFresh fork) (queued : Queued c queue)
    (pids : DistinctPids c queue) (low : OthersLow c queue)
    (pending : c.arrivalPtr < c.numProcess) :
    ∃ later, addArrivedProcess fork c = .ok later ∧ Queued later (queue ++ [c.arrivalPtr]) ∧
      DistinctPids later (queue ++ [c.arrivalPtr]) ∧ OthersLow later (queue ++ [c.arrivalPtr]) := by
  obtain ⟨later, added, taken, queued'⟩ := addArrivedProcess_queued fork queued pending
  have different : ∀ process ∈ queue, process ≠ c.arrivalPtr := by
    intro process member
    exact Nat.ne_of_lt (queued.arrived process member)
  have unused : ∀ process ∈ queue,
      (c.allProcessInfo process).pid ≠ (later.allProcessInfo c.arrivalPtr).pid := by
    intro process member
    rw [taken.pid]
    apply fresh { c with arrivalPtr := c.arrivalPtr + 1 }
    change some process ∈ readyQueue c.rr
    rw [queued.readyQueue_eq]
    exact List.mem_map_of_mem member
  refine ⟨later, added, queued', ?_, ?_⟩
  · intro first firstIn second secondIn samePid
    rcases List.mem_append.mp firstIn with firstOld | firstNew <;>
      rcases List.mem_append.mp secondIn with secondOld | secondNew
    · rw [taken.others first (different first firstOld),
        taken.others second (different second secondOld)] at samePid
      exact pids first firstOld second secondOld samePid
    · rw [List.mem_singleton.mp secondNew, taken.others first (different first firstOld)] at samePid
      exact absurd samePid (unused first firstOld)
    · rw [List.mem_singleton.mp firstNew,
        taken.others second (different second secondOld)] at samePid
      exact absurd samePid.symm (unused second secondOld)
    · rw [List.mem_singleton.mp firstNew, List.mem_singleton.mp secondNew]
  · intro process member
    cases queue with
    | nil => cases member
    | cons head tail =>
        rcases List.mem_append.mp member with old | new
        · have inQueue : process ∈ head :: tail := List.mem_cons_of_mem head old
          rw [taken.levelOf_other (different process inQueue) (unused process inQueue)]
          exact low process old
        · rw [List.mem_singleton.mp new]
          exact taken.levelOf_new

theorem processArrival_low (fresh : ForkFresh fork) (queued : Queued c queue)
    (pids : DistinctPids c queue) (low : OthersLow c queue)
    (pending : c.arrivalPtr < c.numProcess) :
    ∃ later queue', handleEvent fork c .processArrival = .ok later ∧ Queued later queue' ∧
      DistinctPids later queue' ∧ OthersLow later queue' := by
  let invariant (now : Core) : Prop := ∃ queue', Queued now queue' ∧ DistinctPids now queue' ∧
    OthersLow now queue'
  have progress : ∀ now, invariant now → now.arrivalPtr < now.numProcess →
      ∃ later, addArrivedProcess fork now = .ok later ∧ invariant later := by
    rintro now ⟨queue', queued', pids', low'⟩ pending'
    obtain ⟨later, added, queued'', pids'', low''⟩ :=
      addArrivedProcess_low fresh queued' pids' low' pending'
    exact ⟨later, added, _, queued'', pids'', low''⟩
  obtain ⟨later, untilNext, ended, ⟨queue', queued', pids', low'⟩, _⟩ :=
    processArrival_spec invariant progress ⟨queue, queued, pids, low⟩ pending
  refine ⟨later, queue', ?_, queued', pids', low'⟩
  rw [handleEvent, ended]
  rfl

/-! ### The context switch -/

/-- What a switch finds: behind the head at most the process it is about to
suspend is not low. -/
def SwitchReady (c : Core) (queue : List ProcessPtr) : Prop :=
  ∀ process ∈ queue.tail, levelOf c process = some .low ∨
    c.rr.pq.read c.rr.previousActiveId = .ok (some process)

/-- What a switch leaves. -/
structure Elected (c : Core) (queue : List ProcessPtr) : Prop where
  head : ∀ process ∈ queue.head?, levelOf c process = some .high
  others : OthersLow c queue

theorem contextSwitch_elected (queued : Queued c queue) (pids : DistinctPids c queue)
    (ready : SwitchReady c queue) :
    ∃ later, UserScheduler.contextSwitch c = .ok later ∧ Queued later queue ∧
      DistinctPids later queue ∧ Elected later queue := by
  obtain ⟨stopped, stoppedIn, atPrevious, switched⟩ := contextSwitch_queued queued
  refine ⟨_, switched, queued.with_calls _, pids, ?_, ?_⟩
  · intro process isHead
    cases queue with
    | nil => cases isHead
    | cons head tail =>
        cases isHead
        rw [levelOf, lastLevel_append, List.foldl_append]
        change levelAfter _ _ (.priority (.resume _)) = some .high
        rw [levelAfter, if_pos rfl]
  · intro process member
    cases queue with
    | nil => cases member
    | cons head tail =>
        have notHead : process ≠ head := by
          rintro rfl
          exact (List.nodup_cons.mp queued.distinct).1 member
        have inQueue : process ∈ head :: tail := List.mem_cons_of_mem head member
        have otherPid : (c.allProcessInfo head).pid ≠ (c.allProcessInfo process).pid := by
          intro samePid
          exact notHead (pids head List.mem_cons_self process inQueue samePid).symm
        rw [levelOf, lastLevel_append, List.foldl_append]
        change levelAfter _ _ (.priority (.resume (c.allProcessInfo head).pid)) = some .low
        rw [levelAfter, if_neg otherPid]
        cases stopped with
        | none =>
            rcases ready process member with isLow | isPrevious
            · exact isLow
            · cases atPrevious process isPrevious
        | some suspended =>
            change levelAfter _ _ (.priority (.suspend (c.allProcessInfo suspended).pid)) = _
            rw [levelAfter]
            split
            · rfl
            · rename_i differentPid
              rcases ready process member with isLow | isPrevious
              · exact isLow
              · cases atPrevious process isPrevious
                exact absurd rfl differentPid

/-! ### Runs -/

/-- What holds whenever the loop waits. -/
def Led (now : Iteration) : Prop :=
  ∃ queue, Queued now.core queue ∧ DistinctPids now.core queue ∧ Elected now.core queue

theorem start_led (entries : List Entry) (garbage : Nat → Option ProcessPtr) :
    Led (start .RR entries garbage) := by
  refine ⟨[], start_queued entries garbage, ?_, ?_, ?_⟩
  · intro first member
    cases member
  · intro process isHead
    cases isHead
  · intro process member
    cases member

/-- An event leaves the queue ready for a switch. -/
theorem handleEvent_ready (fresh : ForkFresh fork) {now : Iteration} (led : Led now)
    {event : LoopEvent} (allowed : (eventMachine fork).enabled now event) :
    ∃ later queue', handleEvent fork now.core event.type = .ok later ∧ Queued later queue' ∧
      DistinctPids later queue' ∧ SwitchReady later queue' := by
  obtain ⟨queue, queued, pids, elected⟩ := led
  cases event with
  | arrival =>
      have pending : now.core.arrivalPtr < now.core.numProcess := by
        have notEmpty := beq_eq_false_iff_ne.mp allowed.2
        exact Nat.lt_of_le_of_ne queued.within notEmpty
      obtain ⟨later, queue', handled, queued', pids', low⟩ :=
        processArrival_low fresh queued pids elected.others pending
      exact ⟨later, queue', handled, queued', pids', fun process member =>
        Or.inl (low process member)⟩
  | timeslice =>
      obtain ⟨later, handled, rfl, queued', atPrevious⟩ := timesliceOver_queued queued
      refine ⟨_, rotate queue, handled, queued', ?_, ?_⟩
      · intro first firstIn second secondIn
        exact pids first ((mem_rotate _ _).mp firstIn) second ((mem_rotate _ _).mp secondIn)
      · intro process member
        cases queue with
        | nil => cases member
        | cons head tail =>
            rcases List.mem_append.mp (List.mem_of_mem_tail member) with behind | isHead
            · left
              have kept : levelOf now.core process = some .low := elected.others process behind
              rw [levelOf, lastLevel_append]
              exact kept
            · right
              rw [List.mem_singleton.mp isHead]
              exact atPrevious head tail rfl
  | child process =>
      obtain ⟨tail, rfl⟩ := queued.runsUnder allowed.2
      obtain ⟨later, rr, handled, rfl, queued', _⟩ :=
        removeCurrentProcess_queued (queued.with_calls (now.core.calls ++ [.wait]))
      refine ⟨_, tail, handled, queued', ?_, ?_⟩
      · intro first firstIn second secondIn
        exact pids first (List.mem_cons_of_mem _ firstIn) second (List.mem_cons_of_mem _ secondIn)
      · intro other member
        left
        have kept : levelOf now.core other = some .low :=
          elected.others other (List.mem_of_mem_tail member)
        rw [levelOf, lastLevel_append, lastLevel_append]
        exact kept

theorem iterate_led (fresh : ForkFresh fork) {now : Iteration} (led : Led now)
    {event : LoopEvent} (allowed : (eventMachine fork).enabled now event) :
    ∃ later, (eventMachine fork).step now event = .ok later ∧ Led later := by
  obtain ⟨c, queue, handled, queued, pids, ready⟩ := handleEvent_ready fresh led allowed
  change ∃ later, iterate fork now event = .ok later ∧ Led later
  rw [iterate, handled, ok_bind, endIteration]
  split
  · rename_i breaks
    have isEmpty := queued.schedulerEmpty_iff.mp (Bool.and_eq_true_iff.mp breaks).2
    subst isEmpty
    refine ⟨_, rfl, [], queued, pids, ?_, ?_⟩
    · intro process isHead
      cases isHead
    · intro process member
      cases member
  · obtain ⟨later, switched, queued', pids', elected⟩ := contextSwitch_elected queued pids ready
    rw [switched]
    exact ⟨_, rfl, queue, queued', pids', elected⟩

/-! ### The array as the scheduler sees it -/

/-- `index` points nowhere or into `pq[0 .. process_count)`. -/
def IndexInUse (s : State) (index : Int) : Prop :=
  index = -1 ∨ 0 ≤ index ∧ index < s.processCount

/-- The process under the cursor is high, every other one is low. -/
structure ExactlyOneHigh (c : Core) : Prop where
  current : IndexInUse c.rr c.rr.currentProcessId
  previous : IndexInUse c.rr c.rr.previousActiveId
  cursor : 0 < c.rr.processCount → 0 ≤ c.rr.currentProcessId
  levels : ∀ index, 0 ≤ index → index < c.rr.processCount →
    ∃ process, c.rr.pq.read index = .ok (some process) ∧
      levelOf c process = some (if index = c.rr.currentProcessId then .high else .low)

theorem Elected.exactlyOneHigh (queued : Queued c queue) (elected : Elected c queue) :
    ExactlyOneHigh c := by
  obtain ⟨before, after, spare, arranged, same⟩ := queued.arranged
  have current := arranged.cursor_bounds
  refine ⟨current, arranged.previous, ?_, ?_⟩
  · intro positive
    cases after with
    | nil =>
        rw [arranged.count, (arranged.vacant rfl).1] at positive
        exact absurd positive (by decide)
    | cons head tail =>
        rw [arranged.occupied (List.cons_ne_nil head tail)]
        exact Int.natCast_nonneg _
  · intro index nonnegative inUse
    obtain ⟨process, found, placed⟩ := arranged.read_index nonnegative inUse
    refine ⟨process, found, ?_⟩
    cases after with
    | nil =>
        rw [arranged.count, (arranged.vacant rfl).1] at inUse
        change index < 0 at inUse
        omega
    | cons head tail =>
        have cursor := arranged.occupied (List.cons_ne_nil head tail)
        have isQueue : queue = head :: (tail ++ before) := same
        subst isQueue
        by_cases atCursor : index = c.rr.currentProcessId
        · rw [atCursor, arranged.read_cursor] at found
          cases Except.ok.inj found
          rw [if_pos atCursor]
          exact elected.head process rfl
        · rw [if_neg atCursor]
          apply elected.others
          change process ∈ tail ++ before
          have distinct : (before ++ head :: tail).Nodup :=
            List.perm_append_comm.nodup_iff.mp (same ▸ queued.distinct)
          have isHead : (before ++ head :: tail)[before.length]? = some head := by
            rw [List.getElem?_append_right (Nat.le_refl _), Nat.sub_self]
            rfl
          have member : process ∈ before ++ head :: tail := List.mem_of_getElem? placed
          have notHead : process ≠ head := by
            rintro rfl
            have inRange := (List.getElem?_eq_some_iff.mp placed).1
            have samePlace := (List.getElem?_inj inRange distinct).mp (placed.trans isHead.symm)
            omega
          rcases List.mem_append.mp member with early | late
          · exact List.mem_append_right _ early
          · rcases List.mem_cons.mp late with isHead' | behind
            · exact absurd isHead' notHead
            · exact List.mem_append_left _ behind

/-- In every run under RR no event faults, and whenever the loop waits the
process under the cursor is the only high one. -/
theorem exactly_one_high (fork : Core → ProcessPtr → Int) (fresh : ForkFresh fork)
    (entries : List Entry) (garbage : Nat → Option ProcessPtr) :
    (eventMachine fork).Safe (start .RR entries garbage) ∧
      ∀ history now, (eventMachine fork).Run (start .RR entries garbage) history now →
        ExactlyOneHigh now.core := by
  have progress : ∀ now event, Led now → (eventMachine fork).enabled now event →
      ∃ later, (eventMachine fork).step now event = .ok later ∧ Led later :=
    fun now event led allowed => iterate_led fresh led allowed
  constructor
  · exact Machine.safe_of_progress Led (start_led entries garbage) progress
  · intro history now run
    obtain ⟨queue, queued, _, elected⟩ :=
      run.holds_of_progress Led (start_led entries garbage) progress
    exact elected.exactlyOneHigh queued

/-- A pid above those of all children that have not been waited for. -/
def nextPid (c : Core) (_ : ProcessPtr) : Int :=
  (readyQueue c.rr).foldr (fun cell bound =>
    match cell with
    | some live => max (c.allProcessInfo live).pid bound
    | none => bound) 0 + 1

theorem nextPid_fresh : ForkFresh nextPid := by
  intro c process live member samePid
  have bounded : ∀ cells : List (Option ProcessPtr), some live ∈ cells →
      (c.allProcessInfo live).pid ≤ cells.foldr (fun cell bound =>
        match cell with
        | some live => max (c.allProcessInfo live).pid bound
        | none => bound) 0 := by
    intro cells
    induction cells with
    | nil =>
        intro impossible
        cases impossible
    | cons cell rest ih =>
        intro inCells
        rcases List.mem_cons.mp inCells with isCell | inRest
        · subst isCell
          exact le_max_left _ _
        · cases cell with
          | none => exact ih inRest
          | some other => exact le_trans (ih inRest) (le_max_right _ _)
  have below := bounded _ member
  unfold nextPid at samePid
  omega

/-- The third process arrives while `previous_active_id` is still set. -/
def lateEntries : List Entry := [⟨0, 900⟩, ⟨0, 900⟩, ⟨600, 9⟩]

theorem exactly_one_high_lateEntries :
    ∃ now, (eventMachine nextPid).Run (start .RR lateEntries fun _ => none)
        [.arrival, .timeslice, .timeslice, .arrival] now ∧
      now.core.rr.processCount = 3 ∧ ExactlyOneHigh now.core := by
  refine ⟨_, Machine.run_of_replay _ rfl, rfl, ?_⟩
  apply (exactly_one_high nextPid nextPid_fresh lateEntries fun _ => none).2
  exact Machine.run_of_replay
    [LoopEvent.arrival, LoopEvent.timeslice, LoopEvent.timeslice, LoopEvent.arrival] rfl

end UserScheduler.RR
