/-
Guarded machines whose steps may fault.

A machine has a guard, which says what the environment is allowed to do in a
state, and a partial step, which says what the program then does.  A run holds
only steps that were allowed and did not fault.  Faults are therefore excluded
by a separate statement, `Machine.Safe`, never by the choice of runs.

Nothing here names a particular program.
-/

import Mathlib.Logic.Basic

namespace Machines

/-! ### Outcomes of a partial step -/

@[simp] theorem ok_bind {fault first second : Type} (value : first)
    (next : first → Except fault second) :
    (Except.ok value >>= next) = next value := rfl

@[simp] theorem pure_eq_ok {fault result : Type} (value : result) :
    (pure value : Except fault result) = Except.ok value := rfl

/-- A bind that ends well went well in both halves. -/
theorem bind_eq_ok {fault first second : Type} {action : Except fault first}
    {next : first → Except fault second} {result : second}
    (ended : (action >>= next) = Except.ok result) :
    ∃ value, action = Except.ok value ∧ next value = Except.ok result := by
  cases action with
  | error reason => cases ended
  | ok value => exact ⟨value, rfl, ended⟩

/-- A bind that faults did so in one of its halves. -/
theorem bind_eq_error {fault first second : Type} {action : Except fault first}
    {next : first → Except fault second} {reason : fault}
    (failed : (action >>= next) = Except.error reason) :
    action = Except.error reason ∨
      ∃ value, action = Except.ok value ∧ next value = Except.error reason := by
  cases action with
  | error found => exact Or.inl (congrArg Except.error (Except.error.inj failed))
  | ok value => exact Or.inr ⟨value, rfl, failed⟩

/-! ### Machines and their runs -/

structure Machine (state event fault : Type) where
  enabled : state → event → Prop
  step : state → event → Except fault state

variable {state event fault : Type} {machine : Machine state event fault}

/-- Runs from a fixed start.  The list is the history, oldest event first. -/
inductive Machine.Run (machine : Machine state event fault) (start : state) :
    List event → state → Prop where
  | start : machine.Run start [] start
  | next {history : List event} {now later : state} {event : event} :
      machine.Run start history now → machine.enabled now event →
      machine.step now event = Except.ok later →
      machine.Run start (history ++ [event]) later

/-- No event the environment may raise in a reachable state faults. -/
def Machine.Safe (machine : Machine state event fault) (start : state) : Prop :=
  ∀ history now event, machine.Run start history now → machine.enabled now event →
    ∃ later, machine.step now event = Except.ok later

/-- Induction over runs with the history in the invariant. -/
theorem Machine.Run.history_invariant {start : state} {history : List event} {now : state}
    (run : machine.Run start history now) (invariant : List event → state → Prop)
    (initially : invariant [] start)
    (preserved : ∀ history now event later, invariant history now →
      machine.enabled now event → machine.step now event = Except.ok later →
      invariant (history ++ [event]) later) :
    invariant history now := by
  induction run with
  | start => exact initially
  | next _ allowed stepped ih => exact preserved _ _ _ _ ih allowed stepped

/-- The last step of a run. -/
theorem Machine.Run.last_step {start : state} {history : List event} {event : event}
    {now : state} (run : machine.Run start (history ++ [event]) now) :
    ∃ previous, machine.Run start history previous ∧ machine.enabled previous event ∧
      machine.step previous event = Except.ok now := by
  generalize whole : history ++ [event] = full at run
  cases run with
  | start => cases history <;> cases whole
  | next earlier allowed stepped =>
      obtain ⟨sameHistory, sameEvent⟩ := List.append_inj' whole rfl
      rw [sameHistory, List.head_eq_of_cons_eq sameEvent]
      exact ⟨_, earlier, allowed, stepped⟩

/-- An invariant that also excludes faults holds along every run. -/
theorem Machine.Run.holds_of_progress {start : state} {history : List event} {now : state}
    (run : machine.Run start history now) (invariant : state → Prop)
    (initially : invariant start)
    (progress : ∀ now event, invariant now → machine.enabled now event →
      ∃ later, machine.step now event = Except.ok later ∧ invariant later) :
    invariant now := by
  apply run.history_invariant (fun _ now => invariant now) initially
  intro _ now event later holds allowed stepped
  obtain ⟨found, same, preserved⟩ := progress now event holds allowed
  rw [stepped] at same
  exact Except.ok.inj same ▸ preserved

/-- One step lemma gives the absence of faults in every run. -/
theorem Machine.safe_of_progress {start : state} (invariant : state → Prop)
    (initially : invariant start)
    (progress : ∀ now event, invariant now → machine.enabled now event →
      ∃ later, machine.step now event = Except.ok later ∧ invariant later) :
    machine.Safe start := by
  intro history now event run allowed
  have holds := run.holds_of_progress invariant initially progress
  obtain ⟨later, stepped, _⟩ := progress now event holds allowed
  exact ⟨later, stepped⟩

/-- What is left of a budget that every step draws on bounds the length of
every run. -/
theorem Machine.Run.within_budget {start : state} {history : List event} {now : state}
    (run : machine.Run start history now) (within : Nat → state → Prop) {budget : Nat}
    (initially : within budget start)
    (progress : ∀ budget now event, within budget now → machine.enabled now event →
      ∃ later rest, machine.step now event = Except.ok later ∧ rest < budget ∧
        within rest later) :
    ∃ rest, history.length + rest ≤ budget ∧ within rest now := by
  apply run.history_invariant
    fun history now => ∃ rest, history.length + rest ≤ budget ∧ within rest now
  · exact ⟨budget, Nat.le_of_eq (Nat.zero_add budget), initially⟩
  · rintro history now event later ⟨rest, spent, holds⟩ allowed stepped
    obtain ⟨found, less, same, falls, preserved⟩ := progress rest now event holds allowed
    rw [stepped] at same
    refine ⟨less, ?_, Except.ok.inj same ▸ preserved⟩
    rw [List.length_append, List.length_singleton]
    omega

/-- If every reachable state is final or has a step that draws on the budget,
some run ends in a final state. -/
theorem Machine.Run.exists_final {start : state} {history : List event} {now : state}
    (run : machine.Run start history now) (within : Nat → state → Prop) (final : state → Prop)
    (progress : ∀ budget history now, machine.Run start history now → within budget now →
      final now ∨ ∃ event later rest, machine.enabled now event ∧
        machine.step now event = Except.ok later ∧ rest < budget ∧ within rest later)
    (budget : Nat) (holds : within budget now) :
    ∃ history now rest, machine.Run start history now ∧ final now ∧ within rest now := by
  induction budget using Nat.strongRecOn generalizing history now with
  | ind budget ih =>
      rcases progress budget history now run holds with
        isFinal | ⟨event, later, rest, allowed, stepped, falls, preserved⟩
      · exact ⟨history, now, budget, run, isFinal, holds⟩
      · exact ih rest falls (run.next allowed stepped) preserved

/-! ### Restricting the environment -/

/-- The same machine in an environment that also keeps to `condition`. -/
def Machine.restrict (machine : Machine state event fault)
    (condition : state → event → Prop) : Machine state event fault where
  enabled now event := machine.enabled now event ∧ condition now event
  step := machine.step

instance (condition : state → event → Prop)
    [∀ now event, Decidable (machine.enabled now event)]
    [∀ now event, Decidable (condition now event)] (now : state) (event : event) :
    Decidable ((machine.restrict condition).enabled now event) :=
  inferInstanceAs (Decidable (_ ∧ _))

/-! ### Executing a run -/

/-- Runs a list of events, or nothing when one is not allowed or faults. -/
def Machine.replay (machine : Machine state event fault)
    [∀ now event, Decidable (machine.enabled now event)] : state → List event → Option state
  | now, [] => some now
  | now, event :: rest =>
      if machine.enabled now event then
        match machine.step now event with
        | .ok later => machine.replay later rest
        | .error _ => none
      else none

theorem Machine.Run.extend [∀ now event, Decidable (machine.enabled now event)]
    {start : state} {history : List event} {now : state} (run : machine.Run start history now)
    (events : List event) {final : state} (replayed : machine.replay now events = some final) :
    machine.Run start (history ++ events) final := by
  induction events generalizing history now with
  | nil =>
      rw [List.append_nil]
      exact Option.some.inj replayed ▸ run
  | cons event rest ih =>
      rw [Machine.replay] at replayed
      split at replayed
      · rename_i allowed
        cases stepped : machine.step now event with
        | error reason =>
            rw [stepped] at replayed
            cases replayed
        | ok later =>
            rw [stepped] at replayed
            have extended := ih (run.next allowed stepped) replayed
            rw [List.append_assoc] at extended
            exact extended
      · cases replayed

theorem Machine.run_of_replay [∀ now event, Decidable (machine.enabled now event)]
    {start final : state} (events : List event)
    (replayed : machine.replay start events = some final) : machine.Run start events final :=
  Machine.Run.start.extend events replayed

/-- A run whose final state is only looked at through `view`. -/
theorem Machine.run_of_replay_map [∀ now event, Decidable (machine.enabled now event)]
    {start : state} (events : List event) {seen : Type} (view : state → seen) {expected : seen}
    (replayed : (machine.replay start events).map view = some expected) :
    ∃ now, machine.Run start events now ∧ view now = expected := by
  obtain ⟨now, isNow, viewed⟩ := Option.map_eq_some_iff.mp replayed
  exact ⟨now, Machine.run_of_replay events isNow, viewed⟩

/-- A run through one marked event, looked at before it, after it and at the
end. -/
theorem Machine.step_of_replay_map [∀ now event, Decidable (machine.enabled now event)]
    {start : state} (events : List event) (marked : event) (more : List event) {seen : Type}
    (view : state → state → state → seen) {expected : seen}
    (replayed : ((machine.replay start events).bind fun now =>
      (machine.replay now [marked]).bind fun later =>
        (machine.replay later more).map (view now later)) = some expected) :
    ∃ now later final, machine.Run start events now ∧ machine.enabled now marked ∧
      machine.step now marked = Except.ok later ∧ machine.Run later more final ∧
      view now later final = expected := by
  obtain ⟨now, isNow, rest⟩ := Option.bind_eq_some_iff.mp replayed
  obtain ⟨later, isLater, viewing⟩ := Option.bind_eq_some_iff.mp rest
  obtain ⟨final, isFinal, viewed⟩ := Option.map_eq_some_iff.mp viewing
  rw [Machine.replay] at isLater
  split at isLater
  · rename_i allowed
    cases stepped : machine.step now marked with
    | error reason =>
        rw [stepped] at isLater
        cases isLater
    | ok next =>
        rw [stepped] at isLater
        cases Option.some.inj isLater
        exact ⟨now, later, final, Machine.run_of_replay events isNow, allowed, stepped,
          Machine.run_of_replay more isFinal, viewed⟩
  · cases isLater

end Machines
