/-
The clock PSJF reconstructs when jobs end early or late.

An arrival sets `current_time` to the nominal arrival time, and a termination
advances it by the nominal remaining time.  The environment here is free to
raise the two in any order.  The two sources agree exactly as long as every
arrival falls into the time the active process should still be running.
-/

import UserScheduler.PreemptiveCharging

namespace UserScheduler.PSJF

open Machines

/-- `lastArrival` is the latest arrival time so far. -/
structure Clocked where
  mem : Memory
  psjf : State
  lastArrival : Int

inductive ClockEvent where
  | arrival (process : ProcessPtr)
  | termination
deriving DecidableEq

def clockStep (now : Clocked) : ClockEvent → Result Clocked
  | .arrival process => do
      let added ← addProcess now.mem now.psjf process
      let switched ← contextSwitch added.1 added.2
      return {
        mem := added.1
        psjf := switched.1
        lastArrival := (now.mem process).arrivalTime }
  | .termination => do
      let removed ← removeCurrentProcess now.mem now.psjf
      let switched ← contextSwitch now.mem removed
      return { now with psjf := switched.1 }

/-- The process is in the part of the heap that is in use. -/
def State.Live (s : State) (process : ProcessPtr) : Prop :=
  some process ∈ s.pq.pq.take s.pq.heapSize.toNat

def WorkInRange (mem : Memory) (process : ProcessPtr) : Prop :=
  0 ≤ (mem process).remainingTime ∧ (mem process).remainingTime ≤ (mem process).timeNeeded

instance (s : State) (process : ProcessPtr) : Decidable (s.Live process) :=
  inferInstanceAs (Decidable (_ ∈ _))

instance (mem : Memory) (process : ProcessPtr) : Decidable (WorkInRange mem process) :=
  inferInstanceAs (Decidable (_ ∧ _))

/-- New processes arrive in the order of their arrival times while some process
is active, and the active process may terminate at any moment. -/
def clockMachine : Machine Clocked ClockEvent Fault where
  enabled now
    | .arrival process => now.psjf.activeProcess ≠ none ∧ ¬ now.psjf.Live process ∧
        WorkInRange now.mem process ∧ now.lastArrival ≤ (now.mem process).arrivalTime ∧
        now.psjf.pq.heapSize < now.psjf.pq.pq.length
    | .termination => now.psjf.activeProcess ≠ none
  step := clockStep

instance (now : Clocked) (event : ClockEvent) : Decidable (clockMachine.enabled now event) :=
  match event with
  | .arrival process => inferInstanceAs (Decidable (_ ∧ ¬ now.psjf.Live process ∧
      WorkInRange now.mem process ∧ now.lastArrival ≤ (now.mem process).arrivalTime ∧
      now.psjf.pq.heapSize < now.psjf.pq.pq.length))
  | .termination => inferInstanceAs (Decidable (now.psjf.activeProcess ≠ none))

/-- One step keeps the clock from running backwards, gives no process more
work and leaves every live one in range. -/
structure Kept (now later : Clocked) : Prop where
  clock : now.psjf.currentTime ≤ later.psjf.currentTime
  work : ∀ process, (later.mem process).remainingTime ≤ (now.mem process).remainingTime
  range : ∀ process, later.psjf.Live process → WorkInRange later.mem process

/-- Every step of every run is kept. -/
def ClockKept (start : Clocked) : Prop :=
  ∀ history now event later, clockMachine.Run start history now → clockMachine.enabled now event →
    clockMachine.step now event = .ok later → Kept now later

/-- The arrival falls into the time the active process is still to run. -/
def OnSchedule (now : Clocked) : ClockEvent → Prop
  | .arrival process => ∃ active, now.psjf.activeProcess = some active ∧
      now.psjf.currentTime ≤ (now.mem process).arrivalTime ∧
      (now.mem process).arrivalTime ≤ now.psjf.currentTime + (now.mem active).remainingTime
  | .termination => True

/-! ### The invariant -/

/-- The heap is in order, its top is active unless it is empty, and the last
switch was made at the current time. -/
structure Sound (now : Clocked) (stored : Multiset ProcessPtr) : Prop where
  stores : now.psjf.pq.Stores now.mem stored
  distinct : stored.Nodup
  active : ∀ active, now.psjf.activeProcess = some active → Running now.mem now.psjf stored active
  clock : now.psjf.lastContextSwitchTime = now.psjf.currentTime
  range : ∀ process ∈ stored, WorkInRange now.mem process

variable {now later : Clocked} {stored : Multiset ProcessPtr} {active process : ProcessPtr}

theorem live_iff {mem : Memory} {s : State} (stores : s.pq.Stores mem stored) :
    s.Live process ↔ process ∈ stored := by
  unfold State.Live
  rw [← Multiset.mem_coe, stores.contents, Multiset.mem_map]
  constructor
  · rintro ⟨found, member, same⟩
    exact Option.some.inj same ▸ member
  · intro member
    exact ⟨process, member, rfl⟩

/-- The switch leaves the top active. -/
theorem switch_running {mem : Memory} {s : State} (stores : s.pq.Stores mem stored)
    (idle : stored = 0 → s.activeProcess = none) :
    ∃ psjf made, contextSwitch mem s = .ok (psjf, made) ∧ psjf.pq = s.pq ∧
      psjf.currentTime = s.currentTime ∧ psjf.lastContextSwitchTime = s.currentTime ∧
      ∀ active, psjf.activeProcess = some active → Running mem psjf stored active := by
  obtain ⟨psjf, made, switching, samePq, sameTime, switched, ifEmpty, ifStored⟩ :=
    contextSwitch_spec stores
  refine ⟨psjf, made, switching, samePq, sameTime, switched, ?_⟩
  intro active isActive
  by_cases isEmpty : stored = 0
  · rw [ifEmpty isEmpty, idle isEmpty] at isActive
    cases isActive
  · obtain ⟨top, running⟩ := ifStored isEmpty
    rw [Option.some.inj (isActive.symm.trans running.isActive)]
    exact running

/-! ### Arrivals -/

/-- An arrival that does not turn the clock back. -/
theorem arrival_step (sound : Sound now stored)
    (running : Running now.mem now.psjf stored active)
    (allowed : clockMachine.enabled now (.arrival process))
    (forward : now.psjf.currentTime ≤ (now.mem process).arrivalTime) :
    ∃ later, clockStep now (.arrival process) = .ok later ∧
      later.mem = charged now.mem now.psjf active (now.mem process).arrivalTime ∧
      later.psjf.currentTime = (now.mem process).arrivalTime ∧
      later.psjf.lastContextSwitchTime = (now.mem process).arrivalTime ∧
      later.psjf.pq.Stores later.mem (process ::ₘ stored) ∧
      ∀ active, later.psjf.activeProcess = some active →
        Running later.mem later.psjf (process ::ₘ stored) active := by
  obtain ⟨_, _, _, _, bounded⟩ := allowed
  have room : stored.card < now.psjf.pq.pq.length := by
    have size := sound.stores.size_eq
    omega
  obtain ⟨pq, adding, stores, _⟩ := addProcess_spec running sound.distinct room
    (by rw [sound.clock]; exact forward)
  obtain ⟨psjf, made, switching, samePq, sameTime, switched, isRunning⟩ :=
    switch_running
      (s := { now.psjf with pq := pq, currentTime := (now.mem process).arrivalTime }) stores
      (fun isEmpty => absurd isEmpty Multiset.cons_ne_zero)
  refine ⟨{ mem := charged now.mem now.psjf active (now.mem process).arrivalTime
            psjf := psjf
            lastArrival := (now.mem process).arrivalTime },
    ?_, rfl, sameTime, switched, ?_, isRunning⟩
  · rw [clockStep, adding, ok_bind, switching]
    rfl
  · change psjf.pq.Stores _ _
    rw [samePq]
    exact stores

theorem Sound.charged_range (sound : Sound now stored)
    (running : Running now.mem now.psjf stored active) {time : Int}
    (forward : now.psjf.currentTime ≤ time)
    (notOverdue : time ≤ now.psjf.currentTime + (now.mem active).remainingTime) :
    ∀ other, WorkInRange now.mem other →
      WorkInRange (charged now.mem now.psjf active time) other := by
  intro other inRange
  by_cases isActive : other = active
  · subst isActive
    unfold WorkInRange at *
    rw [charged_active, sound.clock]
    dsimp only
    omega
  · unfold WorkInRange at *
    rw [charged_other time isActive]
    exact inRange

theorem charged_le {mem : Memory} {s : State} {time : Int}
    (forward : s.lastContextSwitchTime ≤ time) (other : ProcessPtr) :
    (charged mem s active time other).remainingTime ≤ (mem other).remainingTime := by
  by_cases isActive : other = active
  · rw [isActive, charged_active]
    dsimp only
    omega
  · rw [charged_other time isActive]

theorem arrival_onSchedule (sound : Sound now stored)
    (allowed : clockMachine.enabled now (.arrival process))
    (onSchedule : OnSchedule now (.arrival process)) :
    ∃ later, clockStep now (.arrival process) = .ok later ∧ Sound later (process ::ₘ stored) ∧
      Kept now later := by
  obtain ⟨active, isActive, forward, notOverdue⟩ := onSchedule
  have running := sound.active active isActive
  obtain ⟨later, stepped, table, current, switched, stores, isRunning⟩ :=
    arrival_step sound running allowed forward
  have notStored : process ∉ stored := fun member =>
    allowed.2.1 ((live_iff sound.stores).mpr member)
  have inRange : ∀ other ∈ process ::ₘ stored, WorkInRange later.mem other := by
    rw [table]
    intro other member
    apply sound.charged_range running forward notOverdue
    rcases Multiset.mem_cons.mp member with isNew | isStored
    · rw [isNew]
      exact allowed.2.2.1
    · exact sound.range other isStored
  refine ⟨later, stepped, ?_, ?_⟩
  · exact
      { stores := stores
        distinct := Multiset.nodup_cons.mpr ⟨notStored, sound.distinct⟩
        active := isRunning
        clock := switched.trans current.symm
        range := inRange }
  · exact
      { clock := by
          rw [current]
          exact forward
        work := by
          intro other
          rw [table]
          exact charged_le (by rw [sound.clock]; exact forward) other
        range := fun other live => inRange other ((live_iff stores).mp live) }

/-- Only an arrival on schedule is kept. -/
theorem arrival_kept (sound : Sound now stored)
    (allowed : clockMachine.enabled now (.arrival process))
    (stepped : clockStep now (.arrival process) = .ok later) (kept : Kept now later) :
    OnSchedule now (.arrival process) := by
  obtain ⟨active, isActive⟩ := Option.ne_none_iff_exists'.mp allowed.1
  have running := sound.active active isActive
  have forward : now.psjf.currentTime ≤ (now.mem process).arrivalTime := by
    have clock := kept.clock
    obtain ⟨⟨table, added⟩, adding, rest⟩ := bind_eq_ok stepped
    obtain ⟨⟨psjf, made⟩, switching, rest⟩ := bind_eq_ok rest
    cases Except.ok.inj rest
    rw [contextSwitch_currentTime switching, (addProcess_inv isActive adding).2.2.2] at clock
    exact clock
  obtain ⟨found, same, table, _, _, stores, _⟩ := arrival_step sound running allowed forward
  have isLater : found = later := Except.ok.inj (same.symm.trans stepped)
  subst isLater
  have live : found.psjf.Live active :=
    (live_iff stores).mpr (Multiset.mem_cons_of_mem running.member)
  have inRange := (kept.range active live).1
  rw [table, charged_active, sound.clock] at inRange
  dsimp only at inRange
  exact ⟨active, isActive, forward, by omega⟩

/-! ### Terminations -/

theorem termination_kept (sound : Sound now stored)
    (allowed : clockMachine.enabled now .termination) :
    ∃ later active, clockStep now .termination = .ok later ∧ Sound later (stored.erase active) ∧
      Kept now later := by
  obtain ⟨active, isActive⟩ := Option.ne_none_iff_exists'.mp allowed
  have running := sound.active active isActive
  obtain ⟨pq, removing, stores, _⟩ := removeCurrentProcess_spec running
  obtain ⟨psjf, made, switching, samePq, sameTime, switched, isRunning⟩ :=
    switch_running (s := { now.psjf with
      pq := pq
      activeProcess := none
      currentTime := now.psjf.currentTime + (now.mem active).remainingTime }) stores
      (fun _ => rfl)
  have laterStores : psjf.pq.Stores now.mem (stored.erase active) := by
    rw [samePq]
    exact stores
  have inRange : ∀ other ∈ stored.erase active, WorkInRange now.mem other := by
    intro other member
    exact sound.range other (Multiset.mem_of_mem_erase member)
  refine ⟨{ now with psjf := psjf }, active, ?_, ?_, ?_⟩
  · rw [clockStep, removing, ok_bind, switching]
    rfl
  · exact
      { stores := laterStores
        distinct := sound.distinct.erase active
        active := isRunning
        clock := switched.trans sameTime.symm
        range := inRange }
  · exact
      { clock := by
          have nonnegative := (sound.range active running.member).1
          change now.psjf.currentTime ≤ psjf.currentTime
          rw [sameTime]
          dsimp only
          omega
        work := fun _ => Int.le_refl _
        range := fun other live => inRange other ((live_iff laterStores).mp live) }

/-! ### Runs -/

theorem step_onSchedule (sound : Sound now stored) {event : ClockEvent}
    (allowed : clockMachine.enabled now event) (onSchedule : OnSchedule now event) :
    ∃ later stored', clockStep now event = .ok later ∧ Sound later stored' ∧ Kept now later := by
  cases event with
  | arrival process =>
      obtain ⟨later, stepped, sound', kept⟩ := arrival_onSchedule sound allowed onSchedule
      exact ⟨later, _, stepped, sound', kept⟩
  | termination =>
      obtain ⟨later, active, stepped, sound', kept⟩ := termination_kept sound allowed
      exact ⟨later, _, stepped, sound', kept⟩

theorem kept_iff_onSchedule (sound : Sound now stored) {event : ClockEvent}
    (allowed : clockMachine.enabled now event) (stepped : clockStep now event = .ok later) :
    Kept now later ↔ OnSchedule now event := by
  constructor
  · intro kept
    cases event with
    | arrival process => exact arrival_kept sound allowed stepped kept
    | termination => trivial
  · intro onSchedule
    obtain ⟨found, _, same, _, kept⟩ := step_onSchedule sound allowed onSchedule
    exact Except.ok.inj (same.symm.trans stepped) ▸ kept

theorem Kept.trans {start : Clocked} (before : Kept start now) (step : Kept now later) :
    Kept start later where
  clock := Int.le_trans before.clock step.clock
  work process := Int.le_trans (step.work process) (before.work process)
  range := step.range

/-- A running PSJF scheduler at `t0`, with nothing arrived after it. -/
structure Begins (start : Clocked) (stored : Multiset ProcessPtr) (active : ProcessPtr) : Prop where
  running : Running start.mem start.psjf stored active
  distinct : stored.Nodup
  clock : start.psjf.lastContextSwitchTime = start.psjf.currentTime
  lastArrival : start.lastArrival = start.psjf.currentTime
  range : ∀ process, start.psjf.Live process → WorkInRange start.mem process

theorem Begins.sound {start : Clocked} (begins : Begins start stored active) :
    Sound start stored where
  stores := begins.running.stores
  distinct := begins.distinct
  active other isActive := by
    rw [Option.some.inj (isActive.symm.trans begins.running.isActive)]
    exact begins.running
  clock := begins.clock
  range process member := begins.range process ((live_iff begins.running.stores).mpr member)

theorem run_sound {start : Clocked} (begins : Begins start stored active)
    {history : List ClockEvent}
    (run : (clockMachine.restrict OnSchedule).Run start history now) :
    (∃ stored, Sound now stored) ∧ Kept start now := by
  apply run.holds_of_progress fun now => (∃ stored, Sound now stored) ∧ Kept start now
  · exact ⟨⟨stored, begins.sound⟩, Int.le_refl _, fun _ => Int.le_refl _, begins.range⟩
  · rintro now event ⟨⟨stored, sound⟩, since⟩ allowed
    obtain ⟨later, stored', stepped, sound', kept⟩ :=
      step_onSchedule sound allowed.1 allowed.2
    exact ⟨later, stepped, ⟨stored', sound'⟩, since.trans kept⟩

/-- Two jobs of five units, the first one running, and a third to arrive at 4. -/
def earlyStart : Clocked :=
  { mem := fun process =>
      if process = 0 then ⟨0, 5, 5, 10⟩ else if process = 1 then ⟨0, 5, 5, 11⟩ else ⟨4, 9, 9, 12⟩
    psjf :=
      { pq := { pq := [some 0, some 1, none], heapSize := 2 }
        activeProcess := some 0
        lastContextSwitchTime := 0
        currentTime := 0 }
    lastArrival := 0 }

theorem earlyStart_begins : Begins earlyStart {1, 0} 0 where
  running :=
    { stores := by
        obtain ⟨stores, _⟩ := heapMachine_stores earlyStart.mem (fun _ => none) 3
          (Machine.run_of_replay [.insert 0, .insert 1] rfl)
        exact stores
      member := by decide
      isActive := rfl
      atTop := rfl }
  distinct := by decide
  clock := rfl
  lastArrival := rfl
  range := by
    intro process live
    have isStored : process = 0 ∨ process = 1 := by
      simpa [State.Live, earlyStart] using live
    rcases isStored with isFirst | isSecond
    · rw [isFirst]
      exact ⟨by decide, by decide⟩
    · rw [isSecond]
      exact ⟨by decide, by decide⟩

end UserScheduler.PSJF
