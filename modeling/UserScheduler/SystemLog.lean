/-
The log of a run.

A timeline keeps for every process when it began and when it ended, and the
order in which the processes ended.  The kernel's log is the timeline written
out, one line for each process.  Facts about the timeline are proved along a run
by one rule, which hands each of them the invariant of the system.
-/

import UserScheduler.SystemService
import Mathlib.Logic.Function.Basic

namespace UserScheduler

open Machines RunQueues
open RR (UsableUnit arrivalOf Reads ArrivalOrder OffSlices)

variable {env : Environment} {entries : List Entry} {timeUnit : Timespec}
  {strategy : ScheduleStrategy} {s later : System} {queue queue' : List ProcessPtr}

/-! ### Timelines -/

/-- The times matter only for processes that have begun or ended. -/
structure Timeline where
  starts : ProcessPtr → Int
  stops : ProcessPtr → Int
  ended : List ProcessPtr

def Timeline.empty : Timeline := { starts := fun _ => 0, stops := fun _ => 0, ended := [] }

def Timeline.begin (timeline : Timeline) (process : ProcessPtr) (now : Int) : Timeline :=
  { timeline with starts := Function.update timeline.starts process now }

def Timeline.finish (timeline : Timeline) (process : ProcessPtr) (now : Int) : Timeline :=
  { timeline with
    stops := Function.update timeline.stops process now
    ended := timeline.ended ++ [process] }

/-- What an event adds, when the first process of the list is the running one. -/
def Timeline.after (timeline : Timeline) (now : Int) (queue : List ProcessPtr) :
    SystemEvent → Timeline
  | .begin => queue.head?.elim timeline fun head => timeline.begin head now
  | .finish => queue.head?.elim timeline fun head => timeline.finish head now
  | .tick _ => timeline
  | .alarm => timeline

/-- The line that the kernel wrote when a process ended. -/
def Timeline.line (timeline : Timeline) (env : Environment) (c : Core) (process : ProcessPtr) :
    List Char :=
  ProcessLog.printProcessInfo (pidOf c process) (env.clock (timeline.starts process))
    (env.clock (timeline.stops process))

theorem Timeline.begin_other (timeline : Timeline) (now : Int) {process other : ProcessPtr}
    (different : other ≠ process) :
    (timeline.begin process now).starts other = timeline.starts other :=
  Function.update_of_ne different _ _

theorem Timeline.begin_same (timeline : Timeline) (now : Int) (process : ProcessPtr) :
    (timeline.begin process now).starts process = now := Function.update_self _ _ _

theorem Timeline.finish_other (timeline : Timeline) (now : Int) {process other : ProcessPtr}
    (different : other ≠ process) :
    (timeline.finish process now).stops other = timeline.stops other :=
  Function.update_of_ne different _ _

theorem Timeline.finish_same (timeline : Timeline) (now : Int) (process : ProcessPtr) :
    (timeline.finish process now).stops process = now := Function.update_self _ _ _

/-! ### The invariant -/

/-- The timeline is that of the run so far. -/
structure Chronicled (env : Environment) (entries : List Entry) (timeUnit : Timespec) (s : System)
    (queue : List ProcessPtr) (timeline : Timeline) : Prop where
  printed : s.kernel.printed = timeline.ended.map (timeline.line env s.loop.core)
  accounted : (timeline.ended ++ queue).Perm (List.range s.loop.core.arrivalPtr)
  begun : ∀ process ∈ queue,
    ∀ startTime ∈ (s.kernel.children (pidOf s.loop.core process)).startTime,
      startTime = env.clock (timeline.starts process) ∧
        arrivalAt entries timeUnit process ≤ timeline.starts process ∧
        timeline.starts process + (workOf env entries process - s.leftOf process) ≤ s.now
  spans : ∀ process ∈ timeline.ended,
    arrivalAt entries timeUnit process ≤ timeline.starts process ∧
      timeline.starts process + workOf env entries process ≤ timeline.stops process ∧
      timeline.stops process ≤ s.now
  ordered : timeline.ended.Pairwise fun first second =>
    timeline.stops first ≤ timeline.stops second
  last : s.stopped = true → ∃ process ∈ timeline.ended, timeline.stops process = s.now

variable {timeline : Timeline}

/-- Nobody ends twice, and who has ended has left the list. -/
theorem Chronicled.distinct (chronicled : Chronicled env entries timeUnit s queue timeline) :
    (timeline.ended ++ queue).Nodup :=
  chronicled.accounted.nodup_iff.mpr List.nodup_range

theorem Chronicled.ne_of_mem (chronicled : Chronicled env entries timeUnit s queue timeline)
    {ended other : ProcessPtr} (isEnded : ended ∈ timeline.ended) (member : other ∈ queue) :
    ended ≠ other := by
  intro same
  exact (List.nodup_append.mp chronicled.distinct).2.2 ended isEnded other member same

theorem Chronicled.ended_lt (chronicled : Chronicled env entries timeUnit s queue timeline)
    {process : ProcessPtr} (isEnded : process ∈ timeline.ended) :
    process < s.loop.core.arrivalPtr :=
  List.mem_range.mp (chronicled.accounted.mem_iff.mp (List.mem_append_left queue isEnded))

theorem chronicled_start (isEmpty : s.kernel = emptyKernel) (nobody : s.loop.core.arrivalPtr = 0)
    (waiting : s.stopped = false) :
    Chronicled env entries timeUnit s [] Timeline.empty where
  printed := by
    rw [isEmpty]
    rfl
  accounted := by
    rw [nobody]
    exact List.Perm.refl _
  begun := nofun
  spans := nofun
  ordered := List.Pairwise.nil
  last isStopped := by
    cases waiting.symm.trans isStopped

/-! ### Events -/

theorem Chronicled.tick {elapsed : Int}
    (chronicled : Chronicled env entries timeUnit s queue timeline)
    (waiting : s.stopped = false) (ticks : Ticks s later queue elapsed) :
    Chronicled env entries timeUnit later queue timeline where
  printed := by
    rw [ticks.printed, ticks.loop]
    exact chronicled.printed
  accounted := by
    rw [ticks.loop]
    exact chronicled.accounted
  begun := by
    have positive := ticks.positive
    rw [ticks.loop, ticks.now]
    intro process member startTime isStart
    cases queue with
    | nil => cases member
    | cons head tail =>
        rcases List.mem_cons.mp member with isHead | inTail
        · subst isHead
          have changed := ticks.head process rfl
          rw [changed] at isStart
          obtain ⟨isClock, late, done⟩ := chronicled.begun process member startTime isStart
          refine ⟨isClock, late, ?_⟩
          rw [System.leftOf, ticks.loop, changed]
          change _ + (_ - (s.leftOf process - elapsed)) ≤ _
          omega
        · have same := ticks.others process inTail
          rw [same] at isStart
          obtain ⟨isClock, late, done⟩ := chronicled.begun process member startTime isStart
          refine ⟨isClock, late, ?_⟩
          rw [System.leftOf, ticks.loop, same]
          change _ + (_ - s.leftOf process) ≤ _
          omega
  spans := by
    intro process isEnded
    obtain ⟨late, long, past⟩ := chronicled.spans process isEnded
    refine ⟨late, long, ?_⟩
    have positive := ticks.positive
    rw [ticks.now]
    omega
  ordered := chronicled.ordered
  last isStopped := by
    cases (ticks.stopped.trans waiting).symm.trans isStopped

theorem Chronicled.begins {head : ProcessPtr} {tail : List ProcessPtr}
    (serving : Serving env entries timeUnit strategy s (head :: tail))
    (chronicled : Chronicled env entries timeUnit s (head :: tail) timeline)
    (begins : Begins env s later (head :: tail)) (waiting : s.stopped = false) :
    Chronicled env entries timeUnit later (head :: tail) (timeline.begin head s.now) := by
  have others : ∀ process ∈ timeline.ended,
      (timeline.begin head s.now).starts process = timeline.starts process := by
    intro process isEnded
    exact timeline.begin_other s.now (chronicled.ne_of_mem isEnded List.mem_cons_self)
  exact
    { printed := by
        rw [begins.printed, begins.loop, chronicled.printed]
        apply List.map_congr_left
        intro process isEnded
        rw [Timeline.line, Timeline.line, others process isEnded]
        rfl
      accounted := by
        rw [begins.loop]
        exact chronicled.accounted
      begun := by
        rw [begins.loop, begins.now]
        intro process member startTime isStart
        rcases List.mem_cons.mp member with isHead | inTail
        · subst isHead
          have changed := begins.head process rfl
          have arrived := serving.dispatching.lists.arrived.1 process member
          have whole := (serving.children process member).fresh (begins.fresh process rfl)
          rw [changed] at isStart
          rw [timeline.begin_same, System.leftOf, begins.loop, changed]
          refine ⟨(Option.some.inj isStart).symm, serving.arrivals process arrived, ?_⟩
          change _ + (_ - (s.kernel.children _).left) ≤ _
          omega
        · have different : process ≠ head := by
            intro same
            have distinct := (List.nodup_append.mp chronicled.distinct).2.1
            exact (List.nodup_cons.mp distinct).1 (same ▸ inTail)
          have same := begins.others process inTail
          rw [same] at isStart
          rw [timeline.begin_other _ different, System.leftOf, begins.loop, same]
          exact chronicled.begun process member startTime isStart
      spans := by
        intro process isEnded
        rw [others process isEnded, begins.now]
        exact chronicled.spans process isEnded
      ordered := chronicled.ordered
      last := by
        intro isStopped
        cases (begins.stopped.trans waiting).symm.trans isStopped }

theorem Chronicled.finishes {head : ProcessPtr} {rest : List ProcessPtr} {startTime : Timespec}
    (chronicled : Chronicled env entries timeUnit s (head :: rest) timeline)
    (finishes : Finishes env s later head rest queue' startTime) :
    Chronicled env entries timeUnit later queue' (timeline.finish head s.now) := by
  obtain ⟨isClock, late, long⟩ :=
    chronicled.begun head List.mem_cons_self startTime finishes.started
  rw [finishes.done, Int.sub_zero] at long
  have others : ∀ process ∈ timeline.ended,
      (timeline.finish head s.now).stops process = timeline.stops process := by
    intro process isEnded
    exact timeline.finish_other s.now (chronicled.ne_of_mem isEnded List.mem_cons_self)
  have isLast := timeline.finish_same s.now head
  exact
    { printed := by
        rw [finishes.printed, chronicled.printed]
        change _ = (timeline.ended ++ [head]).map _
        rw [List.map_append]
        congr 1
        · apply List.map_congr_left
          intro process isEnded
          rw [Timeline.line, Timeline.line, others process isEnded, finishes.keeps.pid]
          rfl
        · rw [List.map_singleton, Timeline.line, isLast, finishes.keeps.pid, isClock]
          rfl
      accounted := by
        rw [finishes.keeps.arrivalPtr]
        refine List.Perm.trans ?_ chronicled.accounted
        change ((timeline.ended ++ [head]) ++ queue').Perm _
        rw [List.append_assoc]
        exact (finishes.reordered.cons head).append_left _
      begun := by
        intro process member
        have inRest := finishes.reordered.mem_iff.mp member
        rw [System.leftOf, finishes.children, finishes.keeps.pid, finishes.now]
        exact chronicled.begun process (List.mem_cons_of_mem head inRest)
      spans := by
        intro process isEnded
        rw [finishes.now]
        rcases List.mem_append.mp isEnded with before | isHead
        · rw [others process before]
          exact chronicled.spans process before
        · rw [List.mem_singleton.mp isHead, isLast]
          exact ⟨late, long, Int.le_refl _⟩
      ordered := by
        refine List.pairwise_append.mpr ⟨?_, List.pairwise_singleton _ _, ?_⟩
        · apply chronicled.ordered.imp_of_mem
          intro first second isFirst isSecond
          rw [others first isFirst, others second isSecond]
          exact id
        · intro process before last isHead
          rw [List.mem_singleton.mp isHead, isLast, others process before]
          exact (chronicled.spans process before).2.2
      last := by
        intro _
        refine ⟨head, List.mem_append_right _ (List.mem_singleton_self head), ?_⟩
        rw [isLast, finishes.now] }

/-- A timer event that keeps the lines and the children keeps the log. -/
theorem Chronicled.alarm (chronicled : Chronicled env entries timeUnit s queue timeline)
    (isNow : later.now = s.now) (printed : later.kernel.printed = s.kernel.printed)
    (waiting : later.stopped = false)
    (does : AlarmDoes env entries timeUnit s later queue queue') :
    Chronicled env entries timeUnit later queue' timeline := by
  have pids : ∀ process ∈ timeline.ended,
      pidOf later.loop.core process = pidOf s.loop.core process := by
    intro process isEnded
    cases does with
    | slice _ _ keeps _ => exact keeps.pid process
    | arrival _ _ earlier _ _ _ _ =>
        exact congrArg ProcessInfo.pid (earlier process (chronicled.ended_lt isEnded))
  have kept : ∀ process ∈ queue,
      ∀ startTime ∈ (later.kernel.children (pidOf later.loop.core process)).startTime,
        startTime = env.clock (timeline.starts process) ∧
          arrivalAt entries timeUnit process ≤ timeline.starts process ∧
          timeline.starts process + (workOf env entries process - later.leftOf process) ≤
            later.now := by
    intro process member
    rw [System.leftOf, does.old_child member, isNow]
    exact chronicled.begun process member
  exact
    { printed := by
        rw [printed, chronicled.printed]
        apply List.map_congr_left
        intro process isEnded
        rw [Timeline.line, Timeline.line, pids process isEnded]
      accounted := by
        cases does with
        | slice _ turned keeps _ =>
            rw [keeps.arrivalPtr, turned]
            exact ((RR.rotate_perm queue).append_left _).trans chronicled.accounted
        | arrival further _ _ _ reordered _ _ =>
            rw [range_groupOf (Nat.le_of_lt further)]
            refine (reordered.append_left _).trans ?_
            rw [← List.append_assoc]
            exact chronicled.accounted.append_right _
      begun := by
        intro process member
        cases does with
        | slice _ turned _ _ =>
            rw [turned] at member
            exact kept process ((RR.rotate_perm queue).mem_iff.mp member)
        | arrival _ group _ _ reordered _ _ =>
            rcases List.mem_append.mp (reordered.mem_iff.mp member) with old | new
            · exact kept process old
            · intro startTime isStart
              rw [(group process new).2] at isStart
              cases isStart
      spans := by
        rw [isNow]
        exact chronicled.spans
      ordered := chronicled.ordered
      last := by
        intro isStopped
        cases waiting.symm.trans isStopped }

theorem Chronicled.moves (waiting : s.stopped = false)
    (serving : Serving env entries timeUnit strategy s queue)
    (serving' : Serving env entries timeUnit strategy later queue')
    (chronicled : Chronicled env entries timeUnit s queue timeline) {event : SystemEvent}
    (moves : Moves env entries timeUnit s later queue queue' event) :
    Chronicled env entries timeUnit later queue' (timeline.after s.now queue event) := by
  have whole := moves
  cases moves with
  | tick isQueue ticks =>
      subst isQueue
      exact chronicled.tick waiting ticks
  | begin isQueue begins =>
      subst isQueue
      cases queue' with
      | nil => exact absurd rfl begins.someone
      | cons head tail => exact chronicled.begins serving begins waiting
  | finish isQueue finishes =>
      subst isQueue
      exact chronicled.finishes finishes
  | alarm _ _ isNow printed does =>
      exact chronicled.alarm isNow printed (whole.waiting waiting serving serving' nofun) does

/-! ### Runs -/

/-- To prove something about the timeline of every run, prove it of the start
and of every event. -/
theorem timeline_run (servable : Servable env entries timeUnit strategy)
    {garbage : Nat → Option ProcessPtr} {initial : System} {history : List SystemEvent}
    (started : systemStart strategy entries garbage timeUnit = .ok initial)
    (run : (systemMachine env).Run initial history s)
    (property : System → List ProcessPtr → Timeline → Prop)
    (initially : Serving env entries timeUnit strategy initial [] →
      initial.loop.core.arrivalPtr = 0 → property initial [] Timeline.empty)
    (preserved : ∀ s later queue queue' timeline event, s.stopped = false →
      Serving env entries timeUnit strategy s queue →
      Serving env entries timeUnit strategy later queue' →
      Chronicled env entries timeUnit s queue timeline → systemStep env s event = .ok later →
      Moves env entries timeUnit s later queue queue' event → property s queue timeline →
      property later queue' (timeline.after s.now queue event)) :
    ∃ queue timeline, Attending env entries timeUnit strategy s queue ∧
      Chronicled env entries timeUnit s queue timeline ∧ property s queue timeline := by
  obtain ⟨found, isStart, isCore, _, waiting, isEmpty, serving⟩ :=
    serving_start servable.toWorkable garbage
  cases Except.ok.inj (started.symm.trans isStart)
  have nobody : initial.loop.core.arrivalPtr = 0 := by
    rw [isCore]
    rfl
  apply run.holds_of_progress fun s => ∃ queue timeline,
    Attending env entries timeUnit strategy s queue ∧
      Chronicled env entries timeUnit s queue timeline ∧ property s queue timeline
  · refine ⟨[], Timeline.empty, ⟨serving, fun isStopped => ?_⟩,
      chronicled_start isEmpty nobody waiting, initially serving nobody⟩
    cases waiting.symm.trans isStopped
  · rintro now event ⟨queue, timeline, attending, chronicled, holds⟩ allowed
    obtain ⟨later, queue', stepped, moves, attending'⟩ := attending.moves servable allowed
    exact ⟨later, stepped, queue', _, attending',
      chronicled.moves allowed.1 attending.serving attending'.serving moves,
      preserved _ _ _ _ _ _ allowed.1 attending.serving attending'.serving chronicled stepped moves
        holds⟩

/-- Once everybody has ended, the log holds everybody. -/
theorem Chronicled.complete (serving : Serving env entries timeUnit strategy s queue)
    (chronicled : Chronicled env entries timeUnit s queue timeline) (isStopped : s.stopped = true) :
    timeline.ended.Perm (List.range entries.length) := by
  obtain ⟨drained, nobody⟩ := serving.stops.mp isStopped
  have accounted := chronicled.accounted
  rwa [nobody, List.append_nil, drained] at accounted

end UserScheduler
