/-
How long a process waits under RR.

Behind the running process everybody moves up with each slice end and with each
termination, and an arrival goes to the end.  One thing can throw a process
back: when a child ends at the very moment of a slice end, the next one is
resumed and at once suspended again, and goes to the end of the list without
having run.  Each time this happens a process has ended, so it cannot happen
without end, and the wait is at most quadratic in the number of processes.
-/

import UserScheduler.RoundRobinTies
import UserScheduler.SystemLog
import Mathlib.Data.Nat.Choose.Basic

namespace UserScheduler

open Machines RunQueues
open RR (UsableUnit arrivalOf Reads ArrivalOrder OffSlices expiresAt Ticking nextUnits)

variable {env : Environment} {entries : List Entry} {timeUnit : Timespec}
  {strategy : ScheduleStrategy} {s later : System} {queue queue' : List ProcessPtr}
  {timeline : Timeline} {slices : Nat} {process : ProcessPtr}

/-! ### The limit -/

/-- The longest that a process waits for its first turn. -/
def longestWait (entries : List Entry) (timeUnit : Timespec) : Int :=
  ((entries.length + 1).choose 2 : Nat) * sliceTime timeUnit

/-- When a process begins at the latest. -/
def latestStart (entries : List Entry) (timeUnit : Timespec) (process : ProcessPtr) : Int :=
  arrivalAt entries timeUnit process + longestWait entries timeUnit

/-- The process may wait for so many slices to end and one more. -/
def InTime (entries : List Entry) (timeUnit : Timespec) (slices : Nat) (process : ProcessPtr) :
    Prop :=
  sliceEnd timeUnit slices ≤ latestStart entries timeUnit process

theorem InTime.mono (unit : UsableUnit timeUnit) {fewer more : Nat}
    (inTime : InTime entries timeUnit more process) (le : fewer ≤ more) :
    InTime entries timeUnit fewer process :=
  Int.le_trans (sliceEnd_mono unit le) inTime

theorem choose_two_succ (count : Nat) : (count + 1).choose 2 = count + count.choose 2 := by
  rw [Nat.choose_succ_succ, Nat.choose_one_right]

/-- Whoever arrives can wait for everybody to be thrown back. -/
theorem inTime_of_arrival (unit : UsableUnit timeUnit) {now : Int}
    (isNow : arrivalAt entries timeUnit process = now)
    (started : slices * sliceTime timeUnit ≤ now) {turns : Nat}
    (enough : turns + 1 ≤ (entries.length + 1).choose 2) :
    InTime entries timeUnit (slices + turns) process := by
  have room : ((turns + 1 : Nat) : Int) * sliceTime timeUnit ≤ longestWait entries timeUnit :=
    Int.mul_le_mul_of_nonneg_right (Int.ofNat_le.mpr enough) (Int.le_of_lt (sliceTime_pos unit))
  have split : sliceEnd timeUnit (slices + turns) =
      slices * sliceTime timeUnit + ((turns + 1 : Nat) : Int) * sliceTime timeUnit := by
    rw [sliceEnd, ← Int.add_mul]
    congr 1
  rw [InTime, latestStart, split, isNow]
  omega

theorem longestWait_nonneg (entries : List Entry) (unit : UsableUnit timeUnit) :
    0 ≤ longestWait entries timeUnit :=
  Int.mul_nonneg (Int.natCast_nonneg _) (Int.le_of_lt (sliceTime_pos unit))

/-! ### The invariant -/

/-- How many processes have not ended, with those that have not arrived. -/
def unended (entries : List Entry) (timeline : Timeline) : Nat :=
  entries.length - timeline.ended.length

/-- A process that has not begun gets its turn in time, even if everybody that
can still end throws it back. -/
structure Waiting (entries : List Entry) (timeUnit : Timespec) (s : System)
    (queue : List ProcessPtr) (timeline : Timeline) (slices : Nat) : Prop where
  sliced : Sliced entries timeUnit s slices
  first : ∀ head ∈ queue.head?, s.unbegun head = true →
    s.now ≤ latestStart entries timeUnit head ∧
      (s.deadline = some s.now → InTime entries timeUnit
        (slices + (unended entries timeline - 1) + (unended entries timeline).choose 2) head)
  behind : ∀ index process, queue.tail[index]? = some process → s.unbegun process = true →
    InTime entries timeUnit (slices + index + (unended entries timeline).choose 2) process
  begun : ∀ process ∈ queue, s.unbegun process = false →
    timeline.starts process ≤ latestStart entries timeUnit process
  ended : ∀ process ∈ timeline.ended,
    timeline.starts process ≤ latestStart entries timeUnit process

theorem Chronicled.length_le (serving : Serving env entries timeUnit strategy s queue)
    (chronicled : Chronicled env entries timeUnit s queue timeline) :
    queue.length ≤ unended entries timeline := by
  have accounted := chronicled.accounted.length_eq
  have within := serving.dispatching.lists.within
  rw [serving.reads.numProcess] at within
  rw [List.length_append, List.length_range] at accounted
  unfold unended
  omega

/-! ### Events -/

section Steps

variable {head : ProcessPtr} {tail rest : List ProcessPtr}

theorem Waiting.tick {elapsed : Int}
    (waiting : Waiting entries timeUnit s queue timeline slices)
    (ticks : Ticks s later queue elapsed) :
    Waiting entries timeUnit later queue timeline slices where
  sliced := waiting.sliced.sameLoop ticks.loop ticks.deadline
  first := by
    -- time passes only for a child that has begun
    intro head isHead fresh
    obtain ⟨tail, rfl⟩ := List.head?_eq_some_iff.mp isHead
    rw [ticks.unbegun_eq List.mem_cons_self, ticks.head_begun] at fresh
    cases fresh
  behind := by
    intro index process found fresh
    have member := List.mem_of_mem_tail (List.mem_of_getElem? found)
    rw [ticks.unbegun_eq member] at fresh
    exact waiting.behind index process found fresh
  begun := by
    intro process member started
    rw [ticks.unbegun_eq member] at started
    exact waiting.begun process member started
  ended := waiting.ended

theorem Waiting.begin (serving : Serving env entries timeUnit strategy s (head :: tail))
    (chronicled : Chronicled env entries timeUnit s (head :: tail) timeline)
    (waiting : Waiting entries timeUnit s (head :: tail) timeline slices)
    (begins : Begins env s later (head :: tail)) :
    Waiting entries timeUnit later (head :: tail) (timeline.begin head s.now) slices := by
  have others : ∀ process ∈ tail, process ≠ head := by
    intro process member same
    exact (List.nodup_cons.mp serving.dispatching.lists.arrived.2).1 (same ▸ member)
  exact
    { sliced := waiting.sliced.sameLoop begins.loop begins.deadline
      first := by
        intro first isFirst fresh
        rw [← Option.some.inj isFirst, begins.head_begun] at fresh
        cases fresh
      behind := by
        intro index process found fresh
        rw [begins.tail_unbegun (List.mem_of_getElem? found)] at fresh
        exact waiting.behind index process found fresh
      begun := by
        intro process member started
        rcases List.mem_cons.mp member with isHead | inTail
        · rw [isHead, timeline.begin_same]
          exact (waiting.first head rfl begins.head_unbegun).1
        · rw [begins.tail_unbegun inTail] at started
          rw [timeline.begin_other _ (others process inTail)]
          exact waiting.begun process member started
      ended := by
        intro process isEnded
        rw [timeline.begin_other _ (chronicled.ne_of_mem isEnded List.mem_cons_self)]
        exact waiting.ended process isEnded }

/-- A termination moves everybody up, and takes away one who could throw back. -/
theorem Waiting.finish {startTime : Timespec} (servable : Servable env entries timeUnit .RR)
    (serving : Serving env entries timeUnit .RR s (head :: rest))
    (serving' : Serving env entries timeUnit .RR later queue')
    (chronicled : Chronicled env entries timeUnit s (head :: rest) timeline)
    (waiting : Waiting entries timeUnit s (head :: rest) timeline slices)
    (finishes : Finishes env s later head rest queue' startTime) :
    Waiting entries timeUnit later queue' (timeline.finish head s.now) slices := by
  have same : queue' = rest := by
    apply finishes.inOrder
    rw [serving.isStrategy]
    decide
  subst same
  have fewer : unended entries timeline = unended entries (timeline.finish head s.now) + 1 := by
    have present := chronicled.length_le serving
    rw [List.length_cons] at present
    change _ = entries.length - (timeline.ended ++ [head]).length + 1
    rw [List.length_append, List.length_singleton]
    unfold unended at *
    omega
  have spared := choose_two_succ (unended entries (timeline.finish head s.now))
  rw [← fewer] at spared
  have onTime := waiting.sliced.now_le servable.unit serving
  exact
    { sliced := waiting.sliced.finish serving' finishes
      first := by
        intro first isFirst fresh
        rw [finishes.unbegun_eq] at fresh
        obtain ⟨tail, rfl⟩ := List.head?_eq_some_iff.mp isFirst
        have inTime := waiting.behind 0 first rfl fresh
        rw [finishes.now]
        refine ⟨?_, ?_⟩
        · exact Int.le_trans onTime (inTime.mono servable.unit (by omega))
        · intro _
          exact inTime.mono servable.unit (by omega)
      behind := by
        intro index process found fresh
        rw [finishes.unbegun_eq] at fresh
        rw [List.getElem?_tail] at found
        exact (waiting.behind (index + 1) process found fresh).mono servable.unit (by omega)
      begun := by
        intro process member started
        rw [finishes.unbegun_eq] at started
        exact waiting.begun process (List.mem_cons_of_mem head member) started
      ended := by
        intro process isEnded
        rcases List.mem_append.mp isEnded with before | isHead
        · exact waiting.ended process before
        · rw [List.mem_singleton.mp isHead]
          exact waiting.begun head List.mem_cons_self finishes.head_begun }

/-- A slice end moves everybody up but the first, who goes to the end. -/
theorem Waiting.slice (servable : Servable env entries timeUnit .RR)
    (serving : Serving env entries timeUnit .RR s (head :: tail))
    (chronicled : Chronicled env entries timeUnit s (head :: tail) timeline)
    (waiting : Waiting entries timeUnit s (head :: tail) timeline slices)
    (does : AlarmDoes env entries timeUnit s later (head :: tail) (tail ++ [head]))
    (due : s.deadline = some s.now) (ahead : ∀ deadline ∈ later.deadline, s.now < deadline)
    (isNow : later.now = s.now) (atEnd : s.now = sliceEnd timeUnit slices)
    (sliced : Sliced entries timeUnit later (slices + 1)) :
    Waiting entries timeUnit later (tail ++ [head]) timeline (slices + 1) := by
  have notDue : ¬ later.deadline = some later.now := by
    rw [isNow]
    exact fun again => Int.lt_irrefl _ (ahead _ again)
  have present := chronicled.length_le serving
  rw [List.length_cons] at present
  have old : ∀ process ∈ tail ++ [head], later.unbegun process = s.unbegun process := by
    intro process member
    exact does.unbegun_eq ((List.perm_append_singleton head tail).mem_iff.mp member)
  refine ⟨sliced, ?_, ?_, ?_, waiting.ended⟩
  · intro first isFirst fresh
    rw [old first (List.mem_of_mem_head? isFirst)] at fresh
    refine ⟨?_, fun again => absurd again notDue⟩
    rw [isNow]
    cases tail with
    | nil =>
        rw [← Option.some.inj isFirst] at fresh ⊢
        exact (waiting.first head rfl fresh).1
    | cons next others =>
        rw [← Option.some.inj isFirst] at fresh ⊢
        have inTime := waiting.behind 0 next rfl fresh
        rw [atEnd]
        exact inTime.mono servable.unit (by omega)
  · intro index process found fresh
    rw [old process (List.mem_of_mem_tail (List.mem_of_getElem? found))] at fresh
    cases tail with
    | nil => cases found
    | cons next others =>
        change (others ++ [head])[index]? = some process at found
        rw [List.length_cons] at present
        by_cases inOthers : index < others.length
        · rw [List.getElem?_append_left inOthers] at found
          exact (waiting.behind (index + 1) process found fresh).mono servable.unit (by omega)
        · -- thrown back
          rw [List.getElem?_append_right (Nat.le_of_not_lt inOthers),
            List.getElem?_singleton] at found
          split at found
          · rw [← Option.some.inj found] at fresh ⊢
            have inTime := (waiting.first head rfl fresh).2 due
            exact inTime.mono servable.unit (by omega)
          · cases found
  · intro process member started
    rw [old process member] at started
    exact waiting.begun process ((List.perm_append_singleton head tail).mem_iff.mp member) started

/-- Arrivals go to the end, and all the others keep their places. -/
theorem Waiting.arrival (servable : Servable env entries timeUnit .RR)
    (serving' : Serving env entries timeUnit .RR later
      (queue ++ groupOf s.loop.core later.loop.core))
    (chronicled' : Chronicled env entries timeUnit later
      (queue ++ groupOf s.loop.core later.loop.core) timeline)
    (waiting : Waiting entries timeUnit s queue timeline slices)
    (does : AlarmDoes env entries timeUnit s later queue
      (queue ++ groupOf s.loop.core later.loop.core))
    (ahead : ∀ deadline ∈ later.deadline, s.now < deadline) (isNow : later.now = s.now)
    (group : ∀ process ∈ groupOf s.loop.core later.loop.core,
      arrivalAt entries timeUnit process = s.now ∧
        later.kernel.children (pidOf later.loop.core process) =
          { startTime := none, left := workOf env entries process })
    (started : slices * sliceTime timeUnit ≤ s.now)
    (sliced : Sliced entries timeUnit later slices) :
    Waiting entries timeUnit later (queue ++ groupOf s.loop.core later.loop.core) timeline
      slices := by
  have notDue : ¬ later.deadline = some later.now := by
    rw [isNow]
    exact fun again => Int.lt_irrefl _ (ahead _ again)
  have present := chronicled'.length_le serving'
  have few : unended entries timeline ≤ entries.length := Nat.sub_le _ _
  have fewer := Nat.choose_le_choose 2 few
  have most := choose_two_succ entries.length
  -- whoever has just come, at whatever place
  have new : ∀ process ∈ groupOf s.loop.core later.loop.core, ∀ index,
      index + 2 ≤ (queue ++ groupOf s.loop.core later.loop.core).length →
      InTime entries timeUnit (slices + index + (unended entries timeline).choose 2) process := by
    intro process member index inside
    rw [Nat.add_assoc]
    exact inTime_of_arrival servable.unit (group process member).1 started (by omega)
  refine ⟨sliced, ?_, ?_, ?_, waiting.ended⟩
  · intro head isHead fresh
    refine ⟨?_, fun again => absurd again notDue⟩
    rw [isNow]
    cases queue with
    | nil =>
        have atNow := (group head (List.mem_of_mem_head? isHead)).1
        have nonnegative := longestWait_nonneg entries servable.unit
        rw [latestStart, atNow]
        omega
    | cons first tail =>
        rw [← Option.some.inj isHead] at fresh ⊢
        rw [does.unbegun_eq List.mem_cons_self] at fresh
        exact (waiting.first first rfl fresh).1
  · intro index process found fresh
    have inside : index + 2 ≤ (queue ++ groupOf s.loop.core later.loop.core).length := by
      have bounded := (List.getElem?_eq_some_iff.mp found).1
      rw [List.length_tail] at bounded
      omega
    cases queue with
    | nil =>
        exact new process (List.mem_of_mem_tail (List.mem_of_getElem? found)) index inside
    | cons first tail =>
        change (tail ++ groupOf s.loop.core later.loop.core)[index]? = some process at found
        by_cases inTail : index < tail.length
        · rw [List.getElem?_append_left inTail] at found
          have member := List.mem_cons_of_mem first (List.mem_of_getElem? found)
          rw [does.unbegun_eq member] at fresh
          exact waiting.behind index process found fresh
        · rw [List.getElem?_append_right (Nat.le_of_not_lt inTail)] at found
          exact new process (List.mem_of_getElem? found) index inside
  · intro process member begun
    rcases List.mem_append.mp member with old | joined
    · rw [does.unbegun_eq old] at begun
      exact waiting.begun process old begun
    · rw [System.unbegun, (group process joined).2] at begun
      cases begun

end Steps

theorem Waiting.moves (servable : Servable env entries timeUnit .RR)
    (serving : Serving env entries timeUnit .RR s queue)
    (serving' : Serving env entries timeUnit .RR later queue')
    (chronicled : Chronicled env entries timeUnit s queue timeline)
    (running : s.stopped = false) {event : SystemEvent}
    (stepped : systemStep env s event = .ok later)
    (moves : Moves env entries timeUnit s later queue queue' event)
    (waiting : Waiting entries timeUnit s queue timeline slices) :
    ∃ slices',
      Waiting entries timeUnit later queue' (timeline.after s.now queue event) slices' := by
  have chronicled' := chronicled.moves running serving serving' moves
  cases moves with
  | tick isQueue ticks =>
      subst isQueue
      exact ⟨slices, waiting.tick ticks⟩
  | begin isQueue begins =>
      subst isQueue
      cases queue' with
      | nil => exact absurd rfl begins.someone
      | cons head tail => exact ⟨slices, waiting.begin serving chronicled begins⟩
  | finish isQueue finishes =>
      subst isQueue
      exact ⟨slices, waiting.finish servable serving serving' chronicled finishes⟩
  | alarm due ahead isNow _ does =>
      have whole := does
      have apart (pending : s.loop.core.arrivalPtr < entries.length) :=
        (servable.offSlices rfl).arrivalOf_ne pending slices
      cases does with
      | slice _ turned keeps _ =>
          subst turned
          rcases waiting.sliced.alarm servable.toWorkable apart due stepped with
            ⟨_, sliced, atEnd⟩ | ⟨further, _⟩
          · cases queue with
            | nil => exact ⟨slices + 1, sliced, nofun, nofun, nofun, waiting.ended⟩
            | cons head tail =>
                exact ⟨slices + 1, waiting.slice servable serving chronicled whole due ahead isNow
                  atEnd sliced⟩
          · exact absurd keeps.arrivalPtr (Nat.ne_of_gt further)
      | arrival further group _ _ _ joined _ =>
          have isQueue := joined (Or.inl (by rw [serving.isStrategy]; decide))
          subst isQueue
          rcases waiting.sliced.alarm servable.toWorkable apart due stepped with
            ⟨samePtr, _⟩ | ⟨_, sliced, started⟩
          · exact absurd samePtr (Nat.ne_of_gt further)
          · exact ⟨slices, waiting.arrival servable serving' chronicled' whole ahead isNow group
              started sliced⟩

/-! ### Runs -/

/-- Process 0 takes exactly one slice. -/
def slicedEntries : List Entry := [⟨0, 500⟩, ⟨0, 10⟩, ⟨0, 700⟩]

theorem slicedEntries_servable : Servable plainEnvironment slicedEntries RR.millisecond .RR where
  order := ⟨by decide, by decide, by decide⟩
  unit := RR.millisecond_usable
  works := plainEnvironment_works
  notPSJF := by decide
  offSlices _ := by decide
  noIdleGap isSJF := by cases isSJF

end UserScheduler
