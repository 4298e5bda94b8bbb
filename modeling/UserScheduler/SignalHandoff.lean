/-
The hand-off from signals to the event loop.

SIGALRM and SIGCHLD are pending flags of the scheduler.  `sigsuspend` runs the
handler once for each pending flag, in some order, and clears them; every
handler overwrites the same `event_type`, and one iteration acts on what is
left in it.  The counts below compare what was raised with what was acted on,
under any of the four strategies.
-/

import Mathlib.Algebra.Group.Prod
import UserScheduler.EventRuns

namespace UserScheduler

open Machines

inductive Signal where
  | SIGALRM
  | SIGCHLD
deriving DecidableEq, Repr

def signalHandler (_ : EventType) : Signal → EventType
  | .SIGCHLD => .childTerminated
  | .SIGALRM => .timerExpired

/-- `armed` is the one-shot timer.  `expiries` and `terminations` count what has
happened so far, `raise(SIGALRM)` at the start included. -/
structure Signals where
  loop : LoopState
  stopped : Bool
  armed : Bool
  sigalrm : Bool
  sigchld : Bool
  expiries : Nat
  terminations : Nat

def Signals.isPending (now : Signals) : Signal → Bool
  | .SIGALRM => now.sigalrm
  | .SIGCHLD => now.sigchld

inductive Action where
  | timerExpiry
  | childTermination
  | iterate (order : List Signal)
deriving DecidableEq

def handoffStep (fork : Core → ProcessPtr → Int) (now : Signals) : Action → Result Signals
  | .timerExpiry =>
      return { now with armed := false, sigalrm := true, expiries := now.expiries + 1 }
  | .childTermination =>
      return { now with sigchld := true, terminations := now.terminations + 1 }
  | .iterate order => do
      let eventType := order.foldl signalHandler now.loop.eventType
      let ended ← loopBody fork { now.loop with eventType := eventType }
      return { now with
        loop := ended.1
        stopped := ended.2
        armed :=
          if eventType = .timerExpired then !timspecIsZero ended.1.itValue else now.armed
        sigalrm := false
        sigchld := false }

/-- Only an armed timer expires, only a forked child that is alive terminates,
and `sigsuspend` returns after delivering exactly what is pending. -/
def handoffMachine (fork : Core → ProcessPtr → Int) : Machine Signals Action Fault where
  enabled now action := now.stopped = false ∧
    match action with
    | .timerExpiry => now.armed = true
    | .childTermination =>
        now.terminations < (addedProcesses now.loop.core.calls).length
    | .iterate order => order ≠ [] ∧ order.Nodup ∧
        ∀ signal, signal ∈ order ↔ now.isPending signal = true
  step := handoffStep fork

instance (now : Signals) (order : List Signal) :
    Decidable (∀ signal, signal ∈ order ↔ now.isPending signal = true) :=
  decidable_of_iff ((.SIGALRM ∈ order ↔ now.isPending .SIGALRM = true) ∧
    (.SIGCHLD ∈ order ↔ now.isPending .SIGCHLD = true)) (by
      constructor
      · rintro ⟨alarm, child⟩ signal
        cases signal with
        | SIGALRM => exact alarm
        | SIGCHLD => exact child
      · intro all
        exact ⟨all .SIGALRM, all .SIGCHLD⟩)

instance (fork : Core → ProcessPtr → Int) (now : Signals) (action : Action) :
    Decidable ((handoffMachine fork).enabled now action) :=
  match action with
  | .timerExpiry => inferInstanceAs (Decidable (_ ∧ now.armed = true))
  | .childTermination => inferInstanceAs (Decidable
      (_ ∧ now.terminations < (addedProcesses now.loop.core.calls).length))
  | .iterate _ => inferInstanceAs (Decidable (_ ∧ _ ∧ _ ∧ _))

/-- Just before the first `sigsuspend`. -/
def handoffStart (strategy : ScheduleStrategy) (entries : List Entry)
    (garbage : Nat → Option ProcessPtr) (timeUnit : Timespec) : Result Signals := do
  let created ← createTimer (initCore strategy entries garbage) timeUnit
  return {
    loop := created.1
    stopped := false
    armed := !timspecIsZero created.1.itValue
    sigalrm := created.2
    sigchld := false
    expiries := created.2.toNat
    terminations := 0 }

/-- Runs of the TIMER_EXPIRED branch and calls of `remove_current_process`. -/
def tally (calls : List Call) : Nat × Nat :=
  (calls.count .timerExpired, calls.count .removeCurrentProcess)

def Signals.handled (now : Signals) : Nat × Nat := tally now.loop.core.calls

/-- Nothing that happened was lost. -/
def Signals.NoneLost (now : Signals) : Prop :=
  now.handled = (now.expiries, now.terminations)

/-- A signal is raised only when none is pending. -/
def Alone (now : Signals) : Action → Prop
  | .timerExpiry | .childTermination => now.sigalrm = false ∧ now.sigchld = false
  | .iterate _ => True

instance (now : Signals) (action : Action) : Decidable (Alone now action) :=
  match action with
  | .timerExpiry => inferInstanceAs (Decidable (_ ∧ _))
  | .childTermination => inferInstanceAs (Decidable (_ ∧ _))
  | .iterate _ => inferInstanceAs (Decidable True)

/-! ### Calls made by one iteration -/

theorem tally_append (calls made : List Call) :
    tally (calls ++ made) = tally calls + tally made := by
  simp only [tally, List.count_append, Prod.mk_add_mk]

theorem tally_priority (made : List PriorityCall) : tally (made.map .priority) = 0 := by
  induction made with
  | nil => rfl
  | cons call rest ih =>
      rw [List.map_cons, ← List.singleton_append, tally_append, ih]
      rfl

/-- No branch and no removal is counted between two states. -/
def Silent (c later : Core) : Prop := tally later.calls = tally c.calls

variable {fork : Core → ProcessPtr → Int} {c later : Core}

theorem Internal.silent (internal : Internal c later) : Silent c later := by
  obtain ⟨made, calls⟩ := internal.calls
  rw [Silent, calls, tally_append, tally_priority]
  rfl

theorem addArrivedProcess_silent (added : addArrivedProcess fork c = .ok later) :
    Silent c later := by
  unfold addArrivedProcess addProcess at added
  split at added
  · have silent := (addToScheduler_internal added).silent
    rw [Silent] at silent
    rw [Silent, silent]
    change tally (c.calls ++ [_, _]) = tally c.calls
    rw [tally_append]
    rfl
  · cases added

theorem addSimultaneous_silent {fuel : Nat} {untilNext untilNext' : Int}
    (ended : addSimultaneous fork fuel c untilNext = .ok (later, untilNext')) :
    Silent c later := by
  induction fuel generalizing c untilNext with
  | zero => cases ended
  | succ fuel ih =>
      rw [addSimultaneous] at ended
      split at ended
      · cases Except.ok.inj ended
        rfl
      · obtain ⟨units, _, ended⟩ := bind_eq_ok ended
        split at ended
        · obtain ⟨added, adding, ended⟩ := bind_eq_ok ended
          exact (ih ended).trans (addArrivedProcess_silent adding)
        · cases Except.ok.inj ended
          rfl

theorem processArrival_silent {untilNext : Int}
    (ended : processArrival fork c = .ok (later, untilNext)) : Silent c later := by
  obtain ⟨added, adding, ended⟩ := bind_eq_ok ended
  exact (addSimultaneous_silent ended).trans (addArrivedProcess_silent adding)

theorem timesliceOver_silent (ended : timesliceOver c = .ok later) : Silent c later := by
  obtain ⟨_, _, ended⟩ := bind_eq_ok ended
  cases Except.ok.inj ended
  change tally (c.calls ++ [_]) = tally c.calls
  rw [tally_append]
  rfl

theorem handleExpiry_silent {ti ti' : TimerInfo} {reason : EventType}
    (ended : handleExpiry fork c ti reason = .ok (later, ti')) : Silent c later := by
  cases reason with
  | timesliceOver =>
      obtain ⟨rotated, rotating, ended⟩ := bind_eq_ok ended
      obtain ⟨updated, _, ended⟩ := bind_eq_ok ended
      cases Except.ok.inj ended
      exact timesliceOver_silent rotating
  | processArrival =>
      obtain ⟨⟨added, units⟩, adding, ended⟩ := bind_eq_ok ended
      obtain ⟨updated, _, ended⟩ := bind_eq_ok ended
      cases Except.ok.inj ended
      exact processArrival_silent adding
  | timerExpired =>
      cases Except.ok.inj ended
      rfl
  | childTerminated =>
      cases Except.ok.inj ended
      rfl

/-- The share of one signal in the two counts. -/
def Signal.share : Signal → Nat × Nat
  | .SIGALRM => (1, 0)
  | .SIGCHLD => (0, 1)

/-- An iteration acts on one signal, whichever wrote `event_type` last. -/
theorem loopBody_tally {s later : LoopState} {breaks : Bool} {signal : Signal}
    {before : EventType} (last : s.eventType = signalHandler before signal)
    (ended : loopBody fork s = .ok (later, breaks)) :
    tally later.core.calls = tally s.core.calls + signal.share := by
  obtain ⟨dispatched, dispatching, ended⟩ := bind_eq_ok ended
  obtain ⟨⟨c, breaks'⟩, ending, ended⟩ := bind_eq_ok ended
  cases Except.ok.inj ended
  have silent := (endIteration_internal ending).silent
  rw [Silent] at silent
  change tally c.calls = _
  rw [silent]
  unfold dispatchEvent at dispatching
  cases signal with
  | SIGALRM =>
      rw [last] at dispatching
      obtain ⟨⟨handled, ti⟩, handling, dispatching⟩ := bind_eq_ok dispatching
      obtain ⟨armed, _, dispatching⟩ := bind_eq_ok dispatching
      cases Except.ok.inj dispatching
      have quiet := handleExpiry_silent handling
      rw [Silent] at quiet
      change tally handled.calls = _
      rw [quiet]
      exact tally_append s.core.calls [.timerExpired]
  | SIGCHLD =>
      rw [last] at dispatching
      obtain ⟨removed, removing, dispatching⟩ := bind_eq_ok dispatching
      cases Except.ok.inj dispatching
      have quiet := (removeFromScheduler_internal removing).silent
      rw [Silent] at quiet
      change tally removed.calls = _
      rw [quiet]
      change tally (s.core.calls ++ [.wait] ++ [.removeCurrentProcess]) = _
      rw [List.append_assoc]
      exact tally_append s.core.calls [.wait, .removeCurrentProcess]

/-! ### One step -/

variable {now next : Signals} {order : List Signal}

theorem foldl_signalHandler (before : EventType) (nonempty : order ≠ []) :
    ∃ signal ∈ order, ∃ earlier,
      order.foldl signalHandler before = signalHandler earlier signal := by
  refine ⟨order.getLast nonempty, List.getLast_mem nonempty,
    order.dropLast.foldl signalHandler before, ?_⟩
  conv_lhs => rw [← List.dropLast_concat_getLast nonempty, List.foldl_append]
  rfl

/-- An iteration takes in all flags and acts on one of them. -/
theorem iterate_handled (allowed : (handoffMachine fork).enabled now (.iterate order))
    (stepped : handoffStep fork now (.iterate order) = .ok next) :
    ∃ signal, now.isPending signal = true ∧ next.handled = now.handled + signal.share ∧
      next.sigalrm = false ∧ next.sigchld = false ∧ next.expiries = now.expiries ∧
      next.terminations = now.terminations := by
  obtain ⟨_, nonempty, _, delivered⟩ := allowed
  obtain ⟨signal, inOrder, earlier, last⟩ := foldl_signalHandler now.loop.eventType nonempty
  obtain ⟨⟨loop, breaks⟩, ended, stepped⟩ := bind_eq_ok stepped
  cases Except.ok.inj stepped
  let woken : LoopState :=
    { now.loop with eventType := order.foldl signalHandler now.loop.eventType }
  have sameLast : woken.eventType = signalHandler earlier signal := last
  have counted := loopBody_tally sameLast ended
  exact ⟨signal, (delivered signal).mp inOrder, counted, rfl, rfl, rfl, rfl⟩

/-! ### Balance -/

/-- Whatever was raised has been acted on or is pending, and at most one flag
is set. -/
structure Balanced (now : Signals) : Prop where
  expiries : now.expiries = now.handled.1 + now.sigalrm.toNat
  terminations : now.terminations = now.handled.2 + now.sigchld.toNat
  oneFlag : now.sigalrm = false ∨ now.sigchld = false

/-- More was raised than can still be acted on. -/
def Behind (now : Signals) : Prop :=
  now.handled.1 + now.handled.2 + (now.sigalrm || now.sigchld).toNat <
    now.expiries + now.terminations

theorem Balanced.step (balanced : Balanced now) {action : Action}
    (allowed : (handoffMachine fork).enabled now action) (alone : Alone now action)
    (stepped : handoffStep fork now action = .ok next) : Balanced next := by
  have expiries := balanced.expiries
  have terminations := balanced.terminations
  cases action with
  | timerExpiry =>
      cases Except.ok.inj stepped
      obtain ⟨noAlarm, noChild⟩ := alone
      rw [noAlarm, Bool.toNat_false] at expiries
      exact ⟨congrArg (· + 1) expiries, terminations, Or.inr noChild⟩
  | childTermination =>
      cases Except.ok.inj stepped
      obtain ⟨noAlarm, noChild⟩ := alone
      rw [noChild, Bool.toNat_false] at terminations
      exact ⟨expiries, congrArg (· + 1) terminations, Or.inl noAlarm⟩
  | iterate order =>
      obtain ⟨signal, isPending, handled, alarmOff, childOff, sameExpiries, sameTerminations⟩ :=
        iterate_handled allowed stepped
      have first := congrArg Prod.fst handled
      have second := congrArg Prod.snd handled
      rw [Prod.fst_add] at first
      rw [Prod.snd_add] at second
      cases signal with
      | SIGALRM =>
          change now.sigalrm = true at isPending
          have noChild : now.sigchld = false := by
            rcases balanced.oneFlag with noAlarm | noChild
            · rw [isPending] at noAlarm
              cases noAlarm
            · exact noChild
          rw [isPending, Bool.toNat_true] at expiries
          rw [noChild, Bool.toNat_false] at terminations
          refine ⟨?_, ?_, Or.inl alarmOff⟩
          · rw [sameExpiries, first, alarmOff, expiries]
            rfl
          · rw [sameTerminations, second, childOff, terminations]
            rfl
      | SIGCHLD =>
          change now.sigchld = true at isPending
          have noAlarm : now.sigalrm = false := by
            rcases balanced.oneFlag with noAlarm | noChild
            · exact noAlarm
            · rw [isPending] at noChild
              cases noChild
          rw [noAlarm, Bool.toNat_false] at expiries
          rw [isPending, Bool.toNat_true] at terminations
          refine ⟨?_, ?_, Or.inl alarmOff⟩
          · rw [sameExpiries, first, alarmOff, expiries]
            rfl
          · rw [sameTerminations, second, childOff, terminations]
            rfl

/-- A signal raised next to another one is never made up for. -/
theorem Balanced.behind_of_not_alone (balanced : Balanced now) {action : Action}
    (crowded : ¬ Alone now action) (stepped : handoffStep fork now action = .ok next) :
    Behind next := by
  have expiries := balanced.expiries
  have terminations := balanced.terminations
  have onePending : ¬ (now.sigalrm = false ∧ now.sigchld = false) →
      now.expiries + now.terminations = now.handled.1 + now.handled.2 + 1 := by
    intro pending
    rcases balanced.oneFlag with noAlarm | noChild
    · have child : now.sigchld = true := by
        by_contra noChild
        exact pending ⟨noAlarm, Bool.eq_false_iff.mpr noChild⟩
      rw [expiries, terminations, noAlarm, child, Bool.toNat_false, Bool.toNat_true]
      omega
    · have alarm : now.sigalrm = true := by
        by_contra noAlarm
        exact pending ⟨Bool.eq_false_iff.mpr noAlarm, noChild⟩
      rw [expiries, terminations, noChild, alarm, Bool.toNat_false, Bool.toNat_true]
      omega
  cases action with
  | timerExpiry =>
      cases Except.ok.inj stepped
      have raised := onePending crowded
      change now.handled.1 + now.handled.2 + (true || now.sigchld).toNat <
        now.expiries + 1 + now.terminations
      rw [Bool.true_or, Bool.toNat_true]
      omega
  | childTermination =>
      cases Except.ok.inj stepped
      have raised := onePending crowded
      change now.handled.1 + now.handled.2 + (now.sigalrm || true).toNat <
        now.expiries + (now.terminations + 1)
      rw [Bool.or_true, Bool.toNat_true]
      omega
  | iterate order => exact absurd trivial crowded

theorem Behind.step (behind : Behind now) {action : Action}
    (allowed : (handoffMachine fork).enabled now action)
    (stepped : handoffStep fork now action = .ok next) : Behind next := by
  unfold Behind at behind
  cases action with
  | timerExpiry =>
      cases Except.ok.inj stepped
      change now.handled.1 + now.handled.2 + (true || now.sigchld).toNat <
        now.expiries + 1 + now.terminations
      rw [Bool.true_or, Bool.toNat_true]
      omega
  | childTermination =>
      cases Except.ok.inj stepped
      change now.handled.1 + now.handled.2 + (now.sigalrm || true).toNat <
        now.expiries + (now.terminations + 1)
      rw [Bool.or_true, Bool.toNat_true]
      omega
  | iterate order =>
      obtain ⟨signal, isPending, handled, alarmOff, childOff, sameExpiries, sameTerminations⟩ :=
        iterate_handled allowed stepped
      have flagged : (now.sigalrm || now.sigchld) = true := by
        cases signal with
        | SIGALRM => exact Bool.or_eq_true_iff.mpr (Or.inl isPending)
        | SIGCHLD => exact Bool.or_eq_true_iff.mpr (Or.inr isPending)
      have total : next.handled.1 + next.handled.2 = now.handled.1 + now.handled.2 + 1 := by
        rw [handled, Prod.fst_add, Prod.snd_add]
        cases signal with
        | SIGALRM => exact Nat.add_right_comm _ 1 _
        | SIGCHLD => rfl
      rw [flagged, Bool.toNat_true] at behind
      unfold Behind
      rw [total, alarmOff, childOff, sameExpiries, sameTerminations]
      exact behind

/-! ### Runs -/

theorem handoffStart_balanced {strategy : ScheduleStrategy} {entries : List Entry}
    {garbage : Nat → Option ProcessPtr} {timeUnit : Timespec} {initial : Signals}
    (created : handoffStart strategy entries garbage timeUnit = .ok initial) :
    Balanced initial := by
  obtain ⟨⟨loop, raised⟩, creating, created⟩ := bind_eq_ok created
  cases Except.ok.inj created
  obtain ⟨untilFirst, _, creating⟩ := bind_eq_ok creating
  obtain ⟨armed, _, creating⟩ := bind_eq_ok creating
  cases Except.ok.inj creating
  exact ⟨(Nat.zero_add _).symm, rfl, Or.inr rfl⟩

/-- Every run is balanced and kept to `Alone`, or it is behind for good. -/
theorem run_balanced_or_behind {initial : Signals} (balanced : Balanced initial)
    {history : List Action} (run : (handoffMachine fork).Run initial history now) :
    (((handoffMachine fork).restrict Alone).Run initial history now ∧ Balanced now) ∨
      Behind now := by
  apply run.history_invariant (fun history now =>
    (((handoffMachine fork).restrict Alone).Run initial history now ∧ Balanced now) ∨ Behind now)
  · exact Or.inl ⟨Machine.Run.start, balanced⟩
  · intro history now action next holds allowed stepped
    rcases holds with ⟨aloneRun, holds⟩ | behind
    · by_cases alone : Alone now action
      · left
        exact ⟨aloneRun.next ⟨allowed, alone⟩ stepped, holds.step allowed alone stepped⟩
      · exact Or.inr (holds.behind_of_not_alone alone stepped)
    · exact Or.inr (behind.step allowed stepped)

theorem alone_run_balanced {initial : Signals} (balanced : Balanced initial)
    {history : List Action}
    (run : ((handoffMachine fork).restrict Alone).Run initial history now) : Balanced now := by
  apply run.history_invariant (fun _ now => Balanced now) balanced
  intro _ now action next holds allowed stepped
  exact holds.step allowed.1 allowed.2 stepped

/-- With no signal pending, nothing was lost exactly if no signal was ever
raised while another one, or itself, was pending. -/
theorem none_lost_iff_alone (fork : Core → ProcessPtr → Int) (strategy : ScheduleStrategy)
    (entries : List Entry) (garbage : Nat → Option ProcessPtr) (timeUnit : Timespec)
    {initial : Signals}
    (created : handoffStart strategy entries garbage timeUnit = .ok initial)
    {history : List Action} {now : Signals}
    (run : (handoffMachine fork).Run initial history now)
    (quiet : now.sigalrm = false ∧ now.sigchld = false) :
    now.NoneLost ↔ ((handoffMachine fork).restrict Alone).Run initial history now := by
  obtain ⟨noAlarm, noChild⟩ := quiet
  have balanced := handoffStart_balanced created
  constructor
  · intro noneLost
    rcases run_balanced_or_behind balanced run with ⟨aloneRun, _⟩ | behind
    · exact aloneRun
    · have first : now.handled.1 = now.expiries := congrArg Prod.fst noneLost
      have second : now.handled.2 = now.terminations := congrArg Prod.snd noneLost
      unfold Behind at behind
      omega
  · intro aloneRun
    have holds := alone_run_balanced balanced aloneRun
    have expiries := holds.expiries
    have terminations := holds.terminations
    rw [noAlarm, Bool.toNat_false, Nat.add_zero] at expiries
    rw [noChild, Bool.toNat_false, Nat.add_zero] at terminations
    exact Prod.ext expiries.symm terminations.symm

/-- The second job arrives at the instant the first one ends. -/
def backToBackEntries : List Entry := [⟨0, 1⟩, ⟨1, 1⟩]

def backToBackStart : Result Signals :=
  handoffStart .FIFO backToBackEntries (fun _ => none) { tvSec := 1, tvNsec := 0 }

/-- Both signals are pending when the scheduler wakes up.  SIGALRM is written
last: the second job is added, and the end of the first one is forgotten. -/
theorem simultaneous_signals_lose_termination :
    ValidInput backToBackEntries ∧ ∃ initial now, backToBackStart = .ok initial ∧
      (handoffMachine fun _ process => 100 + process).Run initial
        [.iterate [.SIGALRM], .childTermination, .timerExpiry, .iterate [.SIGCHLD, .SIGALRM]]
        now ∧
      now.stopped = false ∧ now.sigalrm = false ∧ now.sigchld = false ∧
      now.expiries = 2 ∧ now.terminations = 1 ∧ now.handled = (2, 0) ∧ ¬ now.NoneLost := by
  refine ⟨⟨by decide, by decide, by decide, by decide⟩, _, _, rfl,
    Machine.run_of_replay [Action.iterate [.SIGALRM], Action.childTermination,
      Action.timerExpiry, Action.iterate [.SIGCHLD, .SIGALRM]] rfl,
    rfl, rfl, rfl, rfl, rfl, rfl, ?_⟩
  intro noneLost
  have removals : 0 = 1 := congrArg Prod.snd noneLost
  cases removals

theorem none_lost_iff_alone_backToBack :
    ∃ initial now, backToBackStart = .ok initial ∧
      (handoffMachine fun _ process => 100 + process).Run initial
        [.iterate [.SIGALRM], .childTermination, .iterate [.SIGCHLD]] now ∧
      now.NoneLost := by
  refine ⟨_, _, rfl, Machine.run_of_replay [Action.iterate [.SIGALRM], Action.childTermination,
    Action.iterate [.SIGCHLD]] rfl, ?_⟩
  apply (none_lost_iff_alone (fun _ process => 100 + process) .FIFO backToBackEntries
    (fun _ => none) { tvSec := 1, tvNsec := 0 } rfl (Machine.run_of_replay
      [Action.iterate [.SIGALRM], Action.childTermination, Action.iterate [.SIGCHLD]] rfl)
    ⟨rfl, rfl⟩).mpr
  exact Machine.run_of_replay
    [Action.iterate [.SIGALRM], Action.childTermination, Action.iterate [.SIGCHLD]] rfl

end UserScheduler
