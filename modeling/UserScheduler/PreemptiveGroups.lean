/-
Arrivals under PSJF, one at a time and in groups.

main adds everything that arrives at one instant before it switches context.
Each `add_process_PSJF` charges the running process for the time since the last
switch, so a group charges it once for every member.  Each also asserts that
the running process is still on top of the heap, so only the last member of a
group may go to the top.
-/

import UserScheduler.Lib.LineUp
import UserScheduler.PreemptiveCharging

namespace UserScheduler.PSJF

open Machines
open LineUp (Admissible Patient admissible_cons)

variable {mem : Memory} {s : State} {stored : Multiset ProcessPtr} {active : ProcessPtr}

/-! ### One arrival -/

/-- What an arrival and the switch after it leave behind. -/
structure Arrived (mem : Memory) (s : State) (stored : Multiset ProcessPtr)
    (active process : ProcessPtr) (table : Memory) (later : State)
    (made : List PriorityCall) : Prop where
  ordered : later.pq.Stores table (process ::ₘ stored)
  once : (process ::ₘ stored).Nodup
  charged : table active = { mem active with remainingTime := (mem active).remainingTime -
    ((mem process).arrivalTime - s.lastContextSwitchTime) }
  untouched : ∀ other, other ≠ active → table other = mem other
  least : ∃ top ∈ process ::ₘ stored, later.activeProcess = some top ∧
    heapTop later.pq = .ok (some top) ∧
    ∀ other ∈ process ::ₘ stored, processKey table top ≤ processKey table other
  preempts : processKey table process < processKey table active →
    later.activeProcess = some process ∧
      made = [.suspend (mem active).pid, .resume (mem process).pid]
  otherwise : ¬ processKey table process < processKey table active →
    later.activeProcess = some active ∧ made = []

/-- The heap stays a heap although a key inside it is lowered, and only the new
process can displace the running one. -/
theorem arrival_keeps_heap (running : Running mem s stored active) (distinct : stored.Nodup)
    {process : ProcessPtr} (room : stored.card < s.pq.pq.length)
    (forward : s.lastContextSwitchTime ≤ (mem process).arrivalTime)
    (fresh : ∀ other ∈ stored, (mem other).pid ≠ (mem process).pid) :
    ∃ table added later made, addProcess mem s process = .ok (table, added) ∧
      contextSwitch table added = .ok (later, made) ∧
      Arrived mem s stored active process table later made := by
  have notStored : process ∉ stored := fun member => fresh process member rfl
  have different : process ≠ active := fun same => notStored (same ▸ running.member)
  obtain ⟨pq, adding, stores, _, atTop⟩ := addProcess_spec running distinct room forward
  let table := charged mem s active (mem process).arrivalTime
  have nonempty : process ::ₘ stored ≠ 0 := Multiset.cons_ne_zero
  let added : State := { s with pq := pq, currentTime := (mem process).arrivalTime }
  have isActive : added.activeProcess = some active := running.isActive
  have switching := contextSwitch_active (s := added) stores nonempty isActive atTop
  refine ⟨table, _, _, _, adding, switching, ?_⟩
  exact
    { ordered := stores
      once := Multiset.nodup_cons.mpr ⟨notStored, distinct⟩
      charged := charged_active _
      untouched := fun other apart => charged_other _ apart
      least := by
        obtain ⟨top, member, isTop, least⟩ := heapTop_stores stores nonempty
        have sameTop := Option.some.inj (Except.ok.inj (isTop.symm.trans atTop))
        exact ⟨top, member, by rw [sameTop], isTop, least⟩
      preempts := by
        intro smaller
        rw [if_pos smaller, if_neg (Ne.symm different)]
        refine ⟨rfl, ?_⟩
        rw [charged_active, charged_other _ different]
      otherwise := by
        intro notSmaller
        rw [if_neg notSmaller, if_pos rfl]
        exact ⟨rfl, rfl⟩ }

/-- A job of 500 units runs since 100.  A short one and any number of long ones
arrive at 200. -/
def crowdMemory : Memory := fun process =>
  if process = 0 then ⟨100, 500, 500, 10⟩
  else if process = 1 then ⟨200, 200, 200, 11⟩
  else ⟨200, 4000, 4000, 10 + process⟩

def crowdState : State :=
  { pq := { pq := [some 0, none, none, none], heapSize := 1 }
    activeProcess := some 0
    lastContextSwitchTime := 100
    currentTime := 100 }

theorem arrival_keeps_heap_short_job :
    ∃ table added later made, addProcess crowdMemory crowdState 1 = .ok (table, added) ∧
      contextSwitch table added = .ok (later, made) ∧
      Arrived crowdMemory crowdState {0} 0 1 table later made :=
  arrival_keeps_heap (running_alone crowdMemory 0 _ 100) (Multiset.nodup_singleton 0) (by decide)
    (by decide) (by decide)

/-! ### The charge for a group -/

/-- The loop of main over simultaneous arrivals, without a switch in between. -/
def addGroup : Memory → State → List ProcessPtr → Result (Memory × State)
  | mem, s, [] => return (mem, s)
  | mem, s, process :: rest => do
      let added ← addProcess mem s process
      addGroup added.1 added.2 rest

/-- The process table after `amount` was taken off the active process. -/
def lowered (mem : Memory) (active : ProcessPtr) (amount : Int) : Memory :=
  mem.modify active fun info => { info with remainingTime := info.remainingTime - amount }

theorem lowered_active (amount : Int) : lowered mem active amount active =
    { mem active with remainingTime := (mem active).remainingTime - amount } :=
  Memory.modify_same mem active _

theorem lowered_other (amount : Int) {other : ProcessPtr} (different : other ≠ active) :
    lowered mem active amount other = mem other :=
  Memory.modify_other mem _ different

theorem lowered_zero (mem : Memory) (active : ProcessPtr) : lowered mem active 0 = mem := by
  funext process
  by_cases isActive : process = active
  · rw [isActive, lowered_active, Int.sub_zero]
  · exact lowered_other 0 isActive

theorem lowered_arrivalTime (amount : Int) (process : ProcessPtr) :
    (lowered mem active amount process).arrivalTime = (mem process).arrivalTime := by
  by_cases isActive : process = active
  · rw [isActive, lowered_active]
  · rw [lowered_other amount isActive]

theorem lowered_lowered (first second : Int) :
    lowered (lowered mem active first) active second = lowered mem active (first + second) := by
  funext process
  by_cases isActive : process = active
  · rw [isActive, lowered_active, lowered_active, lowered_active, Int.sub_sub]
  · rw [lowered_other _ isActive, lowered_other _ isActive, lowered_other _ isActive]

theorem lowered_place (mem : Memory) (active : ProcessPtr) (place : Nat) (elapsed : Int) :
    lowered (lowered mem active (place * elapsed)) active elapsed =
      lowered mem active ((place + 1 : Nat) * elapsed) := by
  rw [lowered_lowered, Int.natCast_succ, Int.add_mul, Int.one_mul]

/-- Every member of the group takes the whole time off once more. -/
theorem addGroup_charges (group : List ProcessPtr) {time : Int} {table : Memory} {later : State}
    (isActive : s.activeProcess = some active)
    (together : ∀ process ∈ group, (mem process).arrivalTime = time)
    (added : addGroup mem s group = .ok (table, later)) :
    table = lowered mem active (group.length * (time - s.lastContextSwitchTime)) := by
  induction group generalizing mem s with
  | nil =>
      cases Except.ok.inj added
      rw [List.length_nil, Int.natCast_zero, Int.zero_mul, lowered_zero]
  | cons process rest ih =>
      obtain ⟨⟨middle, between⟩, adding, added⟩ := bind_eq_ok added
      obtain ⟨isCharged, stillActive, sameSwitch, _⟩ := addProcess_inv isActive adding
      change middle = lowered mem active _ at isCharged
      rw [together process List.mem_cons_self] at isCharged
      subst isCharged
      have others := ih stillActive (by
        intro other inRest
        rw [lowered_arrivalTime]
        exact together other (List.mem_cons_of_mem process inRest)) added
      rw [others, sameSwitch, lowered_lowered, List.length_cons, Int.natCast_succ, Int.add_mul,
        Int.one_mul, Int.add_comm]

/-- The active process lost `elapsed` and nobody else lost anything. -/
def ChargedOnce (mem table : Memory) (active : ProcessPtr) (elapsed : Int) : Prop :=
  (table active).remainingTime = (mem active).remainingTime - elapsed ∧
    ∀ other, other ≠ active → (table other).remainingTime = (mem other).remainingTime

/-- A group of several is charged rightly only if no time has passed. -/
theorem charged_once_iff (group : List ProcessPtr) {time : Int} {table : Memory} {later : State}
    (isActive : s.activeProcess = some active) (nonempty : group ≠ [])
    (together : ∀ process ∈ group, (mem process).arrivalTime = time)
    (added : addGroup mem s group = .ok (table, later)) :
    ChargedOnce mem table active (time - s.lastContextSwitchTime) ↔
      group.length = 1 ∨ time = s.lastContextSwitchTime := by
  have positive : 0 < group.length := List.length_pos_iff.mpr nonempty
  rw [addGroup_charges group isActive together added]
  constructor
  · rintro ⟨once, _⟩
    rw [lowered_active] at once
    have same : (group.length - 1 : Int) * (time - s.lastContextSwitchTime) = 0 := by
      rw [Int.sub_mul, Int.one_mul]
      change (mem active).remainingTime - _ = _ at once
      omega
    rcases Int.mul_eq_zero.mp same with single | instant
    · left
      omega
    · right
      omega
  · intro condition
    refine ⟨?_, fun other different => by rw [lowered_other _ different]⟩
    rw [lowered_active]
    rcases condition with single | instant
    · rw [single, Int.natCast_one, Int.one_mul]
    · rw [instant, Int.sub_self, Int.mul_zero]

/-- A long and a short job arrive together: 200 units are charged for 100. -/
theorem group_charges_twice :
    Running crowdMemory crowdState {0} 0 ∧
      (∀ process ∈ [2, 1], (crowdMemory process).arrivalTime = 200) ∧
      ∃ table later, addGroup crowdMemory crowdState [2, 1] = .ok (table, later) ∧
        (table 0).remainingTime = 300 ∧
        ¬ ChargedOnce crowdMemory table 0 (200 - crowdState.lastContextSwitchTime) := by
  refine ⟨running_alone crowdMemory 0 _ 100, by decide, _, _, rfl, rfl, ?_⟩
  rintro ⟨once, _⟩
  exact absurd once (by decide)

theorem charged_once_iff_long_job :
    ∃ table later, addGroup crowdMemory crowdState [2] = .ok (table, later) ∧
      ChargedOnce crowdMemory table 0 (200 - crowdState.lastContextSwitchTime) :=
  ⟨_, _, rfl, (charged_once_iff [2] rfl (by decide) (by decide) rfl).mpr (Or.inl rfl)⟩

/-! ### The order within a group -/

/-- As the `place`-th member of its group a process goes to the top: it is
smaller than the active one after that many charges. -/
def Overtakes (mem : Memory) (active : ProcessPtr) (elapsed : Int) (place : Nat)
    (process : ProcessPtr) : Prop :=
  (mem process).remainingTime < (mem active).remainingTime - place * elapsed ∨
    (mem process).remainingTime = (mem active).remainingTime - place * elapsed ∧
      (mem process).pid < (mem active).pid

instance (mem : Memory) (active : ProcessPtr) (elapsed : Int) (place : Nat) :
    DecidablePred (Overtakes mem active elapsed place) :=
  fun _ => inferInstanceAs (Decidable (_ ∨ _))

theorem processKey_lowered_lt_iff {process : ProcessPtr} (different : process ≠ active)
    (elapsed : Int) (place : Nat) :
    processKey (lowered mem active (place * elapsed)) process <
        processKey (lowered mem active (place * elapsed)) active ↔
      Overtakes mem active elapsed place process := by
  rw [processKey_lt_iff, lowered_active, lowered_other _ different]
  rfl

/-- The more the active process is charged, the harder it is to overtake. -/
theorem overtakes_patient {elapsed : Int} (forward : 0 ≤ elapsed) :
    Patient (Overtakes mem active elapsed) := by
  intro place process overtakes
  have less : (place : Int) * elapsed ≤ (place + 1 : Nat) * elapsed := by
    rw [Int.natCast_succ, Int.add_mul, Int.one_mul]
    omega
  unfold Overtakes at *
  omega

/-- Processes that arrive together and are not yet in the heap. -/
structure Newcomers (mem : Memory) (stored : Multiset ProcessPtr) (group : List ProcessPtr)
    (time : Int) : Prop where
  together : ∀ process ∈ group, (mem process).arrivalTime = time
  fresh : ∀ process ∈ group, process ∉ stored
  pids : (group.map fun process => (mem process).pid).Nodup

variable {process : ProcessPtr} {rest group : List ProcessPtr} {time : Int} {place : Nat}

theorem Newcomers.tail (newcomers : Newcomers mem stored (process :: rest) time) :
    Newcomers mem (process ::ₘ stored) rest time where
  together other inRest := newcomers.together other (List.mem_cons_of_mem process inRest)
  fresh := by
    have distinct := (List.nodup_cons.mp (List.Nodup.of_map _ newcomers.pids)).1
    intro other inRest inHeap
    rcases Multiset.mem_cons.mp inHeap with isFirst | isStored
    · rw [isFirst] at inRest
      exact distinct inRest
    · exact newcomers.fresh other (List.mem_cons_of_mem process inRest) isStored
  pids := (List.nodup_cons.mp newcomers.pids).2

theorem Newcomers.perm (newcomers : Newcomers mem stored group time) {line : List ProcessPtr}
    (isPerm : line.Perm group) : Newcomers mem stored line time where
  together process inLine := newcomers.together process (isPerm.mem_iff.mp inLine)
  fresh process inLine := newcomers.fresh process (isPerm.mem_iff.mp inLine)
  pids := (isPerm.map _).nodup_iff.mpr newcomers.pids

/-- `place` members of a group were added and the active process is still on
top. -/
structure Gathering (mem : Memory) (active : ProcessPtr) (elapsed : Int) (place : Nat) (s : State)
    (stored : Multiset ProcessPtr) : Prop where
  running : Running (lowered mem active (place * elapsed)) s stored active
  distinct : stored.Nodup

/-- One more member is added.  The last conjunct says where it goes. -/
theorem Gathering.add {elapsed : Int} (gathering : Gathering mem active elapsed place s stored)
    (forward : 0 ≤ elapsed) (since : time - s.lastContextSwitchTime = elapsed)
    (newcomers : Newcomers mem stored (process :: rest) time)
    (room : stored.card < s.pq.pq.length) :
    ∃ pq, addProcess (lowered mem active (place * elapsed)) s process =
        .ok (lowered mem active ((place + 1 : Nat) * elapsed),
          { s with pq := pq, currentTime := time }) ∧
      pq.Stores (lowered mem active ((place + 1 : Nat) * elapsed)) (process ::ₘ stored) ∧
      pq.pq.length = s.pq.pq.length ∧
      heapTop pq = .ok (some
        (if Overtakes mem active elapsed (place + 1) process then process else active)) := by
  have notStored := newcomers.fresh process List.mem_cons_self
  have different : process ≠ active := fun same => notStored (same ▸ gathering.running.member)
  have arrival : (lowered mem active (place * elapsed) process).arrivalTime = time := by
    rw [lowered_arrivalTime]
    exact newcomers.together process List.mem_cons_self
  have table : charged (lowered mem active (place * elapsed)) s active time =
      lowered mem active ((place + 1 : Nat) * elapsed) := by
    rw [← lowered_place, ← since]
    rfl
  obtain ⟨pq, adding, stores, sameLength, atTop⟩ :=
    addProcess_spec gathering.running gathering.distinct room (by rw [arrival]; omega)
  rw [arrival, table] at adding stores atTop
  simp only [processKey_lowered_lt_iff different] at atTop
  exact ⟨pq, adding, stores, sameLength, atTop⟩

theorem Gathering.next {elapsed : Int} (gathering : Gathering mem active elapsed place s stored)
    (newcomers : Newcomers mem stored (process :: rest) time) {pq : Heap}
    (stores : pq.Stores (lowered mem active ((place + 1 : Nat) * elapsed)) (process ::ₘ stored))
    (atTop : heapTop pq = .ok (some active)) :
    Gathering mem active elapsed (place + 1) { s with pq := pq, currentTime := time }
      (process ::ₘ stored) where
  running :=
    { stores := stores
      member := Multiset.mem_cons_of_mem gathering.running.member
      isActive := gathering.running.isActive
      atTop := atTop }
  distinct := Multiset.nodup_cons.mpr
    ⟨newcomers.fresh process List.mem_cons_self, gathering.distinct⟩

/-- The process on top once a group is in. -/
def leader (mem : Memory) (active : ProcessPtr) (elapsed : Int) (place : Nat)
    (group : List ProcessPtr) : ProcessPtr :=
  (group.find? fun process => Overtakes mem active elapsed place process).getD active

theorem leader_cons_of_not {elapsed : Int} (behind : ¬ Overtakes mem active elapsed place process)
    (rest : List ProcessPtr) :
    leader mem active elapsed place (process :: rest) = leader mem active elapsed place rest := by
  rw [leader, List.find?_cons_of_neg (by simpa using behind)]
  rfl

theorem leader_singleton (elapsed : Int) (place : Nat) :
    leader mem active elapsed place [process] =
      if Overtakes mem active elapsed place process then process else active := by
  by_cases overtakes : Overtakes mem active elapsed place process
  · rw [leader, List.find?_cons_of_pos (by simpa using overtakes), if_pos overtakes]
    rfl
  · rw [leader_cons_of_not overtakes, if_neg overtakes]
    rfl

theorem leader_perm {elapsed : Int} (forward : 0 ≤ elapsed) {first second : List ProcessPtr}
    (isPerm : first.Perm second) (admissible : Admissible (Overtakes mem active elapsed) 0 second) :
    leader mem active elapsed first.length first =
      leader mem active elapsed second.length second := by
  have sameFind := admissible.find_eq (overtakes_patient forward) isPerm
  simp only [Nat.zero_add] at sameFind
  rw [leader, leader, sameFind]

/-- A group in an admissible order is taken in. -/
theorem addGroup_admissible {elapsed : Int} (forward : 0 ≤ elapsed) (group : List ProcessPtr)
    (gathering : Gathering mem active elapsed place s stored)
    (since : time - s.lastContextSwitchTime = elapsed)
    (newcomers : Newcomers mem stored group time)
    (room : stored.card + group.length ≤ s.pq.pq.length)
    (admissible : Admissible (Overtakes mem active elapsed) place group) :
    ∃ later kept, addGroup (lowered mem active (place * elapsed)) s group =
        .ok (lowered mem active ((place + group.length : Nat) * elapsed), later) ∧
      later.activeProcess = some active ∧ active ∈ kept ∧
      later.pq.Stores (lowered mem active ((place + group.length : Nat) * elapsed)) kept ∧
      heapTop later.pq =
        .ok (some (leader mem active elapsed (place + group.length) group)) := by
  induction group generalizing place s stored with
  | nil =>
      have running := gathering.running
      exact ⟨s, stored, rfl, running.isActive, running.member, running.stores, running.atTop⟩
  | cons process rest ih =>
      rw [List.length_cons] at room
      obtain ⟨pq, adding, stores, sameLength, atTop⟩ :=
        gathering.add forward since newcomers (by omega)
      rw [addGroup, adding, ok_bind]
      by_cases more : rest = []
      · subst more
        refine ⟨_, _, rfl, gathering.running.isActive,
          Multiset.mem_cons_of_mem gathering.running.member, stores, ?_⟩
        rw [leader_singleton]
        exact atTop
      · obtain ⟨behind, others⟩ := (admissible_cons more).mp admissible
        rw [if_neg behind] at atTop
        have smaller : (process ::ₘ stored).card + rest.length ≤ pq.pq.length := by
          rw [Multiset.card_cons, sameLength]
          omega
        have stillBehind : ¬ Overtakes mem active elapsed (place + 1 + rest.length) process :=
          fun overtakes => behind ((overtakes_patient forward).mono rest.length overtakes)
        rw [List.length_cons, Nat.add_comm rest.length, ← Nat.add_assoc,
          leader_cons_of_not stillBehind]
        exact ih (gathering.next newcomers stores atTop) since newcomers.tail smaller others

/-- In any other order the assertion fails right after the first overtaking. -/
theorem addGroup_inadmissible {elapsed : Int} (forward : 0 ≤ elapsed) (group : List ProcessPtr)
    (gathering : Gathering mem active elapsed place s stored)
    (since : time - s.lastContextSwitchTime = elapsed)
    (newcomers : Newcomers mem stored group time)
    (room : stored.card + group.length ≤ s.pq.pq.length)
    (inadmissible : ¬ Admissible (Overtakes mem active elapsed) place group) :
    addGroup (lowered mem active (place * elapsed)) s group = .error .assertionFailed := by
  induction group generalizing place s stored with
  | nil => exact absurd trivial inadmissible
  | cons process rest ih =>
      rw [List.length_cons] at room
      obtain ⟨pq, adding, stores, sameLength, atTop⟩ :=
        gathering.add forward since newcomers (by omega)
      rw [addGroup, adding, ok_bind]
      cases rest with
      | nil => exact absurd trivial inadmissible
      | cons second others =>
          rw [admissible_cons (List.cons_ne_nil second others)] at inadmissible
          by_cases overtakes : Overtakes mem active elapsed (place + 1) process
          · have different : active ≠ process := fun same =>
              newcomers.fresh process List.mem_cons_self (same ▸ gathering.running.member)
            let between : State := { s with pq := pq, currentTime := time }
            have isActive : between.activeProcess = some active := gathering.running.isActive
            rw [if_pos overtakes] at atTop
            rw [addGroup, addProcess_asserts isActive atTop different second]
            rfl
          · rw [if_neg overtakes] at atTop
            have smaller : (process ::ₘ stored).card + (second :: others).length ≤
                pq.pq.length := by
              rw [Multiset.card_cons, sameLength]
              omega
            exact ih (gathering.next newcomers stores atTop) since newcomers.tail smaller
              fun admissible => inadmissible ⟨overtakes, admissible⟩

/-- A whole arrival event: the group, then the switch. -/
def admitGroup (mem : Memory) (s : State) (group : List ProcessPtr) :
    Result (Memory × State) := do
  let added ← addGroup mem s group
  let switched ← contextSwitch added.1 added.2
  return (added.1, switched.1)

/-- Both abort on the assertion, or both end with the same active process and
the same remaining times. -/
def SameOutcome : Result (Memory × State) → Result (Memory × State) → Prop
  | .ok (table, later), .ok (otherTable, otherLater) =>
      later.activeProcess = otherLater.activeProcess ∧
        ∀ process, (table process).remainingTime = (otherTable process).remainingTime
  | .error reason, .error otherReason =>
      reason = .assertionFailed ∧ otherReason = .assertionFailed
  | _, _ => False

def OrderIrrelevant (mem : Memory) (s : State) (group : List ProcessPtr) : Prop :=
  ∀ first second, first.Perm group → second.Perm group →
    SameOutcome (admitGroup mem s first) (admitGroup mem s second)

/-- The state a group arrives in, with all that is known of the group. -/
structure Ready (mem : Memory) (s : State) (stored : Multiset ProcessPtr) (active : ProcessPtr)
    (group : List ProcessPtr) (time : Int) : Prop where
  running : Running mem s stored active
  distinct : stored.Nodup
  newcomers : Newcomers mem stored group time
  room : stored.card + group.length ≤ s.pq.pq.length
  forward : s.lastContextSwitchTime ≤ time

theorem Ready.perm (ready : Ready mem s stored active group time) {line : List ProcessPtr}
    (isPerm : line.Perm group) : Ready mem s stored active line time :=
  { ready with
    newcomers := ready.newcomers.perm isPerm
    room := by
      rw [isPerm.length_eq]
      exact ready.room }

theorem Ready.gathering (ready : Ready mem s stored active group time) (elapsed : Int) :
    Gathering mem active elapsed 0 s stored where
  running := by
    rw [Int.natCast_zero, Int.zero_mul, lowered_zero]
    exact ready.running
  distinct := ready.distinct

theorem admitGroup_admissible (ready : Ready mem s stored active group time)
    (admissible : Admissible (Overtakes mem active (time - s.lastContextSwitchTime)) 0 group) :
    ∃ later, admitGroup mem s group = .ok
        (lowered mem active (group.length * (time - s.lastContextSwitchTime)), later) ∧
      later.activeProcess = some
        (leader mem active (time - s.lastContextSwitchTime) group.length group) := by
  have forward := Int.sub_nonneg.mpr ready.forward
  obtain ⟨between, kept, adding, isActive, member, stores, atTop⟩ :=
    addGroup_admissible forward group (ready.gathering _) rfl ready.newcomers ready.room admissible
  rw [Int.natCast_zero, Int.zero_mul, lowered_zero, Nat.zero_add] at adding
  rw [Nat.zero_add] at stores atTop
  have nonempty : kept ≠ 0 := by
    intro isEmpty
    rw [isEmpty] at member
    exact Multiset.notMem_zero active member
  have switching := contextSwitch_active stores nonempty isActive atTop
  refine ⟨{ between with
    activeProcess := some
      (leader mem active (time - s.lastContextSwitchTime) group.length group)
    lastContextSwitchTime := between.currentTime }, ?_, rfl⟩
  rw [admitGroup, adding, ok_bind, switching]
  rfl

theorem admitGroup_inadmissible (ready : Ready mem s stored active group time)
    (inadmissible :
      ¬ Admissible (Overtakes mem active (time - s.lastContextSwitchTime)) 0 group) :
    admitGroup mem s group = .error .assertionFailed := by
  have forward := Int.sub_nonneg.mpr ready.forward
  have aborted := addGroup_inadmissible forward group (ready.gathering _) rfl ready.newcomers
    ready.room inadmissible
  rw [Int.natCast_zero, Int.zero_mul, lowered_zero] at aborted
  rw [admitGroup, aborted]
  rfl

/-- The order matters exactly if some orders are admissible and some are not. -/
theorem orderIrrelevant_iff_admissible (ready : Ready mem s stored active group time) :
    OrderIrrelevant mem s group ↔
      (∀ line, line.Perm group →
        Admissible (Overtakes mem active (time - s.lastContextSwitchTime)) 0 line) ∨
      (∀ line, line.Perm group →
        ¬ Admissible (Overtakes mem active (time - s.lastContextSwitchTime)) 0 line) := by
  constructor
  · intro irrelevant
    by_contra mixed
    obtain ⟨notAll, notNone⟩ := not_or.mp mixed
    obtain ⟨bad, badPerm, inadmissible⟩ := not_forall₂.mp notAll
    obtain ⟨good, goodPerm, admissible⟩ := not_forall₂.mp notNone
    obtain ⟨later, ended, _⟩ :=
      admitGroup_admissible (ready.perm goodPerm) (not_not.mp admissible)
    have outcome := irrelevant good bad goodPerm badPerm
    rw [ended, admitGroup_inadmissible (ready.perm badPerm) inadmissible] at outcome
    exact outcome
  · intro uniform first second firstPerm secondPerm
    rcases uniform with all | none
    · obtain ⟨later, ended, isActive⟩ :=
        admitGroup_admissible (ready.perm firstPerm) (all first firstPerm)
      obtain ⟨otherLater, otherEnded, otherActive⟩ :=
        admitGroup_admissible (ready.perm secondPerm) (all second secondPerm)
      have isPerm := firstPerm.trans secondPerm.symm
      rw [ended, otherEnded]
      constructor
      · rw [isActive, otherActive, leader_perm (Int.sub_nonneg.mpr ready.forward) isPerm
          (all second secondPerm)]
      · intro process
        rw [isPerm.length_eq]
    · rw [admitGroup_inadmissible (ready.perm firstPerm) (none first firstPerm),
        admitGroup_inadmissible (ready.perm secondPerm) (none second secondPerm)]
      exact ⟨rfl, rfl⟩

theorem crowd_ready (group : List ProcessPtr) (members : ∀ process ∈ group, 0 < process)
    (pids : (group.map fun process => (crowdMemory process).pid).Nodup)
    (few : group.length ≤ 3) : Ready crowdMemory crowdState {0} 0 group 200 where
  running := running_alone crowdMemory 0 _ 100
  distinct := Multiset.nodup_singleton 0
  newcomers :=
    { together := by
        intro process inGroup
        have positive := members process inGroup
        rw [crowdMemory, if_neg (Nat.ne_of_gt positive)]
        split <;> rfl
      fresh := by
        intro process inGroup stored
        rw [Multiset.mem_singleton] at stored
        exact Nat.ne_of_gt (members process inGroup) stored
      pids := pids }
  room := by
    rw [Multiset.card_singleton]
    exact Nat.add_le_add_left few 1
  forward := by decide

end UserScheduler.PSJF
