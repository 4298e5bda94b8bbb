/-
The schedules of FIFO and SJF.

Neither of them takes the processor from a child that has begun, so a child runs
in one piece and begins as soon as it is first in the list.  Under FIFO this
fixes every line of the log.  Under SJF the children follow each other without a
gap, and one that begins is the shortest of those that are there.
-/

import UserScheduler.SystemLog

namespace UserScheduler

open Machines RunQueues
open RR (UsableUnit arrivalOf Reads ArrivalOrder OffSlices)

variable {env : Environment} {entries : List Entry} {timeUnit : Timespec}
  {strategy : ScheduleStrategy} {s later : System} {queue queue' : List ProcessPtr}
  {timeline : Timeline}

/-! ### Without preemption -/

/-- When the first process got the processor: just now, if it has not begun. -/
def System.dispatchedAt (s : System) (timeline : Timeline) (process : ProcessPtr) : Int :=
  if s.unbegun process then s.now else timeline.starts process

theorem System.dispatchedAt_unbegun {process : ProcessPtr} (fresh : s.unbegun process = true) :
    s.dispatchedAt timeline process = s.now := if_pos fresh

theorem System.dispatchedAt_begun {process : ProcessPtr} (begun : s.unbegun process = false) :
    s.dispatchedAt timeline process = timeline.starts process := by
  rw [System.dispatchedAt, begun]
  rfl

/-- Only the first process has begun, and it has run ever since. -/
structure Unbroken (env : Environment) (entries : List Entry) (s : System)
    (queue : List ProcessPtr) (timeline : Timeline) : Prop where
  waiting : ∀ process ∈ queue.tail, s.unbegun process = true
  running : ∀ head ∈ queue.head?, s.unbegun head = false →
    timeline.starts head + workOf env entries head = s.now + s.leftOf head
  exact : ∀ process ∈ timeline.ended,
    timeline.starts process + workOf env entries process = timeline.stops process

section Unbroken

variable {head : ProcessPtr} {tail rest : List ProcessPtr}

theorem Unbroken.finished {startTime : Timespec}
    (unbroken : Unbroken env entries s (head :: rest) timeline)
    (finishes : Finishes env s later head rest queue' startTime) :
    timeline.starts head + workOf env entries head = s.now := by
  rw [unbroken.running head rfl finishes.head_begun, finishes.done, Int.add_zero]

/-- Whoever is left when a child ends has not begun. -/
theorem Unbroken.unbegun {startTime : Timespec}
    (unbroken : Unbroken env entries s (head :: rest) timeline)
    (finishes : Finishes env s later head rest queue' startTime) :
    ∀ process ∈ queue', later.unbegun process = true := by
  intro process member
  rw [finishes.unbegun_eq]
  exact unbroken.waiting process (finishes.reordered.mem_iff.mp member)

theorem AlarmDoes.new_unbegun (does : AlarmDoes env entries timeUnit s later queue queue')
    (notRR : s.loop.core.currentStrategy ≠ .RR) :
    ∀ process ∈ groupOf s.loop.core later.loop.core, later.unbegun process = true := by
  intro process member
  cases does with
  | slice isRR _ _ _ => exact absurd isRR notRR
  | arrival _ group _ _ _ _ _ =>
      rw [System.unbegun, (group process member).2]
      rfl

theorem AlarmDoes.joins (does : AlarmDoes env entries timeUnit s later queue queue')
    (notRR : s.loop.core.currentStrategy ≠ .RR)
    (settled : s.loop.core.currentStrategy ≠ .SJF ∨ queue ≠ []) :
    queue' = queue ++ groupOf s.loop.core later.loop.core := by
  cases does with
  | slice isRR _ _ _ => exact absurd isRR notRR
  | arrival _ _ _ _ _ same _ => exact same settled

theorem Unbroken.tick {elapsed : Int} (unbroken : Unbroken env entries s queue timeline)
    (ticks : Ticks s later queue elapsed) : Unbroken env entries later queue timeline := by
  cases queue with
  | nil => exact ⟨nofun, nofun, unbroken.exact⟩
  | cons head tail =>
      refine ⟨?_, ?_, unbroken.exact⟩
      · intro process member
        rw [ticks.unbegun_eq (List.mem_cons_of_mem head member)]
        exact unbroken.waiting process member
      · intro first isFirst _
        cases Option.some.inj isFirst
        have before := unbroken.running head rfl ticks.head_begun
        rw [before, ticks.now, ticks.head_left]
        omega

theorem Unbroken.begin {head : ProcessPtr} {tail : List ProcessPtr}
    (serving : Serving env entries timeUnit strategy s (head :: tail))
    (chronicled : Chronicled env entries timeUnit s (head :: tail) timeline)
    (unbroken : Unbroken env entries s (head :: tail) timeline)
    (begins : Begins env s later (head :: tail)) :
    Unbroken env entries later (head :: tail) (timeline.begin head s.now) := by
  refine ⟨?_, ?_, ?_⟩
  · intro process member
    rw [begins.tail_unbegun member]
    exact unbroken.waiting process member
  · intro first isFirst _
    cases Option.some.inj isFirst
    have whole := (serving.children head List.mem_cons_self).fresh (begins.fresh head rfl)
    rw [begins.head_left, begins.now, timeline.begin_same]
    exact congrArg (s.now + ·) whole.symm
  · intro process isEnded
    change (timeline.begin head s.now).starts process + _ = timeline.stops process
    rw [timeline.begin_other _ (chronicled.ne_of_mem isEnded List.mem_cons_self)]
    exact unbroken.exact process isEnded

theorem Unbroken.finish {head : ProcessPtr} {rest : List ProcessPtr} {startTime : Timespec}
    (chronicled : Chronicled env entries timeUnit s (head :: rest) timeline)
    (unbroken : Unbroken env entries s (head :: rest) timeline)
    (finishes : Finishes env s later head rest queue' startTime) :
    Unbroken env entries later queue' (timeline.finish head s.now) := by
  have fresh := unbroken.unbegun finishes
  refine ⟨fun process member => fresh process (List.mem_of_mem_tail member), ?_, ?_⟩
  · intro first isFirst begun
    cases begun.symm.trans (fresh first (List.mem_of_mem_head? isFirst))
  · intro process isEnded
    change timeline.starts process + _ = (timeline.finish head s.now).stops process
    rcases List.mem_append.mp isEnded with before | isHead
    · rw [timeline.finish_other _ (chronicled.ne_of_mem before List.mem_cons_self)]
      exact unbroken.exact process before
    · rw [List.mem_singleton.mp isHead, timeline.finish_same]
      exact unbroken.finished finishes

theorem Unbroken.alarm (notRR : s.loop.core.currentStrategy ≠ .RR)
    (unbroken : Unbroken env entries s queue timeline) (isNow : later.now = s.now)
    (does : AlarmDoes env entries timeUnit s later queue queue') :
    Unbroken env entries later queue' timeline := by
  have fresh := does.new_unbegun notRR
  cases queue with
  | nil =>
      have everyone : ∀ process ∈ queue', later.unbegun process = true := by
        intro process member
        cases does with
        | slice isRR _ _ _ => exact absurd isRR notRR
        | arrival _ _ _ _ reordered _ _ => exact fresh process (reordered.mem_iff.mp member)
      refine ⟨fun process member => everyone process (List.mem_of_mem_tail member), ?_,
        unbroken.exact⟩
      intro first isFirst begun
      cases begun.symm.trans (everyone first (List.mem_of_mem_head? isFirst))
  | cons head tail =>
      rw [does.joins notRR (Or.inr (List.cons_ne_nil _ _))]
      refine ⟨?_, ?_, unbroken.exact⟩
      · intro process member
        rcases List.mem_append.mp member with old | new
        · rw [does.unbegun_eq (List.mem_cons_of_mem head old)]
          exact unbroken.waiting process old
        · exact fresh process new
      · intro first isFirst begun
        cases Option.some.inj isFirst
        rw [does.unbegun_eq List.mem_cons_self] at begun
        rw [isNow, does.leftOf_eq List.mem_cons_self]
        exact unbroken.running head rfl begun

theorem Unbroken.moves (notRR : strategy ≠ .RR)
    (serving : Serving env entries timeUnit strategy s queue)
    (chronicled : Chronicled env entries timeUnit s queue timeline)
    (unbroken : Unbroken env entries s queue timeline) {event : SystemEvent}
    (moves : Moves env entries timeUnit s later queue queue' event) :
    Unbroken env entries later queue' (timeline.after s.now queue event) := by
  cases moves with
  | tick isQueue ticks =>
      subst isQueue
      exact unbroken.tick ticks
  | begin isQueue begins =>
      subst isQueue
      cases queue' with
      | nil => exact absurd rfl begins.someone
      | cons head tail => exact unbroken.begin serving chronicled begins
  | finish isQueue finishes =>
      subst isQueue
      exact unbroken.finish chronicled finishes
  | alarm _ _ isNow _ does =>
      apply unbroken.alarm _ isNow does
      rw [serving.isStrategy]
      exact notRR

end Unbroken

/-- Until it ends, nothing changes when the first process got the processor. -/
theorem Moves.dispatchedAt_eq {head : ProcessPtr} {tail : List ProcessPtr} {event : SystemEvent}
    (moves : Moves env entries timeUnit s later (head :: tail) queue' event)
    (notFinish : event ≠ .finish) :
    later.dispatchedAt (timeline.after s.now (head :: tail) event) head =
      s.dispatchedAt timeline head := by
  cases moves with
  | tick _ ticks =>
      have begun := ticks.head_begun
      rw [System.dispatchedAt_begun begun, System.dispatchedAt_begun]
      · rfl
      · rw [ticks.unbegun_eq List.mem_cons_self]
        exact begun
  | begin _ begins =>
      rw [System.dispatchedAt_unbegun begins.head_unbegun,
        System.dispatchedAt_begun begins.head_begun]
      exact timeline.begin_same s.now head
  | finish => exact absurd rfl notFinish
  | alarm _ _ isNow _ does =>
      rw [System.dispatchedAt, System.dispatchedAt, does.unbegun_eq List.mem_cons_self, isNow]
      rfl

/-- What is written in the timeline stays. -/
theorem Chronicled.starts_eq (chronicled : Chronicled env entries timeUnit s queue timeline)
    (event : SystemEvent) {process : ProcessPtr} (isEnded : process ∈ timeline.ended) :
    (timeline.after s.now queue event).starts process = timeline.starts process := by
  cases event with
  | tick | alarm | finish => cases queue <;> rfl
  | begin =>
      cases queue with
      | nil => rfl
      | cons head tail =>
          exact timeline.begin_other _ (chronicled.ne_of_mem isEnded List.mem_cons_self)

theorem Timeline.after_ended (timeline : Timeline) (now : Int) (queue : List ProcessPtr)
    {event : SystemEvent} (notFinish : event ≠ .finish) :
    (timeline.after now queue event).ended = timeline.ended := by
  cases event with
  | tick | alarm => rfl
  | begin => cases queue <;> rfl
  | finish => exact absurd rfl notFinish

/-! ### FIFO -/

section InTurn

variable (env entries timeUnit)

/-- When a process begins if processes are served in input order. -/
def beginsAt (process : ProcessPtr) : Int :=
  SingleServer.begins (arrivalAt entries timeUnit) (workOf env entries) process

theorem busyUntil_succ (process : ProcessPtr) :
    busyUntil env entries timeUnit (process + 1) =
      beginsAt env entries timeUnit process + workOf env entries process :=
  SingleServer.completion_succ _ _ _

/-- Processes begin in input order, each when it is due. -/
structure InTurn (s : System) (queue : List ProcessPtr) (timeline : Timeline) : Prop where
  inOrder : timeline.ended ++ queue = List.range s.loop.core.arrivalPtr
  next : ∀ head ∈ queue.head?, s.dispatchedAt timeline head = beginsAt env entries timeUnit head
  past : ∀ process ∈ timeline.ended,
    timeline.starts process = beginsAt env entries timeUnit process

end InTurn

theorem eq_length_of_range {before after : List ProcessPtr} {process : ProcessPtr} {count : Nat}
    (isRange : before ++ process :: after = List.range count) : process = before.length := by
  have inside : before.length < (List.range count).length := by
    rw [← isRange, List.length_append, List.length_cons]
    omega
  have found : (List.range count)[before.length]? = some process := by
    rw [← isRange, List.getElem?_append_right (Nat.le_refl _), Nat.sub_self]
    rfl
  rw [List.getElem?_eq_getElem inside, List.getElem_range] at found
  exact (Option.some.inj found).symm

theorem InTurn.finish {head : ProcessPtr} {rest : List ProcessPtr} {startTime : Timespec}
    (isFIFO : strategy = .FIFO)
    (serving : Serving env entries timeUnit strategy s (head :: rest))
    (unbroken : Unbroken env entries s (head :: rest) timeline)
    (inTurn : InTurn env entries timeUnit s (head :: rest) timeline)
    (finishes : Finishes env s later head rest queue' startTime) :
    InTurn env entries timeUnit later queue' (timeline.finish head s.now) := by
  have same : queue' = rest := by
    apply finishes.inOrder
    rw [serving.isStrategy, isFIFO]
    decide
  subst same
  have began : timeline.starts head = beginsAt env entries timeUnit head := by
    rw [← inTurn.next head rfl, System.dispatchedAt_begun finishes.head_begun]
  have order : (timeline.ended ++ [head]) ++ queue' = List.range s.loop.core.arrivalPtr := by
    rw [List.append_assoc]
    exact inTurn.inOrder
  refine ⟨?_, ?_, ?_⟩
  · rw [finishes.keeps.arrivalPtr]
    exact order
  · intro first isFirst
    have member := List.mem_of_mem_head? isFirst
    rw [System.dispatchedAt_unbegun (unbroken.unbegun finishes first member), finishes.now]
    obtain ⟨behind, isQueue⟩ := List.head?_eq_some_iff.mp isFirst
    subst isQueue
    -- it is the next of the input, and it was there
    have number := eq_length_of_range order
    rw [List.length_append, List.length_singleton, ← eq_length_of_range inTurn.inOrder] at number
    have arrived := serving.dispatching.lists.arrived.1 first (List.mem_cons_of_mem head member)
    have late := serving.arrivals first arrived
    have finished := unbroken.finished finishes
    rw [began, ← busyUntil_succ, ← number] at finished
    rw [beginsAt, SingleServer.begins]
    change _ = max (busyUntil env entries timeUnit first) _
    omega
  · intro process isEnded
    rcases List.mem_append.mp isEnded with before | isHead
    · exact inTurn.past process before
    · rw [List.mem_singleton.mp isHead]
      exact began

theorem InTurn.moves (isFIFO : strategy = .FIFO)
    (serving : Serving env entries timeUnit strategy s queue)
    (chronicled : Chronicled env entries timeUnit s queue timeline)
    (unbroken : Unbroken env entries s queue timeline)
    (inTurn : InTurn env entries timeUnit s queue timeline) {event : SystemEvent}
    (moves : Moves env entries timeUnit s later queue queue' event) :
    InTurn env entries timeUnit later queue' (timeline.after s.now queue event) := by
  by_cases isFinish : event = .finish
  · subst isFinish
    cases moves with
    | finish isQueue finishes =>
        subst isQueue
        exact inTurn.finish isFIFO serving unbroken finishes
  · have ended := timeline.after_ended s.now queue isFinish
    have past : ∀ process ∈ (timeline.after s.now queue event).ended,
        (timeline.after s.now queue event).starts process =
          beginsAt env entries timeUnit process := by
      rw [ended]
      intro process isEnded
      rw [chronicled.starts_eq event isEnded]
      exact inTurn.past process isEnded
    have next : ∀ head ∈ queue.head?,
        later.dispatchedAt (timeline.after s.now queue event) head =
          beginsAt env entries timeUnit head := by
      intro head isHead
      obtain ⟨tail, rfl⟩ := List.head?_eq_some_iff.mp isHead
      rw [moves.dispatchedAt_eq isFinish]
      exact inTurn.next head rfl
    cases moves with
    | tick isQueue ticks =>
        subst isQueue
        refine ⟨?_, next, past⟩
        rw [ended, ticks.loop]
        exact inTurn.inOrder
    | begin isQueue begins =>
        subst isQueue
        refine ⟨?_, next, past⟩
        rw [ended, begins.loop]
        exact inTurn.inOrder
    | finish => exact absurd rfl isFinish
    | alarm _ _ isNow _ does =>
        have notSJF : s.loop.core.currentStrategy ≠ .SJF := by
          rw [serving.isStrategy, isFIFO]
          decide
        have notRR : s.loop.core.currentStrategy ≠ .RR := by
          rw [serving.isStrategy, isFIFO]
          decide
        have joined := does.joins notRR (Or.inl notSJF)
        have fresh := does.new_unbegun notRR
        cases does with
        | slice isRR _ _ _ => exact absurd isRR notRR
        | arrival further group _ _ _ _ _ =>
            refine ⟨?_, ?_, past⟩
            · rw [joined, range_groupOf (Nat.le_of_lt further), ← List.append_assoc, ended,
                inTurn.inOrder]
            · intro head isHead
              cases queue with
              | cons first tail =>
                  rw [joined] at isHead
                  exact next head isHead
              | nil =>
                  -- the processor was idle, and the arrival is served at once
                  rw [joined] at isHead
                  have member := List.mem_of_mem_head? isHead
                  rw [System.dispatchedAt_unbegun (fresh head member), isNow]
                  have first : s.loop.core.arrivalPtr = head :=
                    Option.some.inj ((head_groupOf further).symm.trans isHead)
                  have idle := serving.idle rfl
                  have atNow := (group head member).1
                  rw [beginsAt, SingleServer.begins, atNow, ← first]
                  exact (max_eq_right idle).symm

/-- Under FIFO the log is known beforehand but for the pids: process for process
in input order, each one beginning when it has arrived and its predecessors are
done, and ending when its own work is done. -/
theorem fifo_log_exact (servable : Servable env entries timeUnit .FIFO)
    {garbage : Nat → Option ProcessPtr} {initial : System} {history : List SystemEvent}
    (started : systemStart .FIFO entries garbage timeUnit = .ok initial)
    (run : (systemMachine env).Run initial history s) :
    ∃ count, count ≤ s.loop.core.arrivalPtr ∧
      s.kernel.printed = ((List.range count).map fun process =>
        ProcessLog.printProcessInfo (pidOf s.loop.core process)
          (env.clock (beginsAt env entries timeUnit process))
          (env.clock (busyUntil env entries timeUnit (process + 1)))) ∧
      (s.stopped = true → count = entries.length) := by
  obtain ⟨queue, timeline, attending, chronicled, unbroken, inTurn⟩ :=
    timeline_run servable started run
      (fun s queue timeline => Unbroken env entries s queue timeline ∧
        InTurn env entries timeUnit s queue timeline)
      (fun _ nobody => ⟨⟨nofun, nofun, nofun⟩, by rw [nobody]; rfl, nofun, nofun⟩)
      (fun _ _ _ _ _ _ _ serving _ chronicled _ moves holds =>
        ⟨holds.1.moves (by decide) serving chronicled moves,
          holds.2.moves rfl serving chronicled holds.1 moves⟩)
  have isRange : timeline.ended = List.range timeline.ended.length := by
    have inOrder := congrArg (List.take timeline.ended.length) inTurn.inOrder
    rw [List.take_left, List.take_range] at inOrder
    have short := chronicled.accounted.length_eq
    rw [List.length_append, List.length_range] at short
    rwa [Nat.min_eq_left (by omega)] at inOrder
  refine ⟨timeline.ended.length, ?_, ?_, ?_⟩
  · have short := chronicled.accounted.length_eq
    rw [List.length_append, List.length_range] at short
    exact Nat.le.intro short
  · rw [chronicled.printed, ← isRange]
    apply List.map_congr_left
    intro process isEnded
    have began := inTurn.past process isEnded
    rw [Timeline.line, ← unbroken.exact process isEnded, began, busyUntil_succ]
  · intro isStopped
    have complete := (chronicled.complete attending.serving isStopped).length_eq
    rwa [List.length_range] at complete

theorem fifo_log_exact_mixedEntries :
    ∃ initial s, systemStart .FIFO mixedEntries (fun _ => none) RR.millisecond = .ok initial ∧
      (systemMachine plainEnvironment).Run initial
        [.tick 1000000, .alarm, .begin, .tick 3000000, .finish, .begin, .alarm, .tick 2000000,
          .finish, .begin, .tick 700000000, .finish] s ∧
      s.kernel.printed = (List.range 3).map fun process =>
        ProcessLog.printProcessInfo (pidOf s.loop.core process)
          (plainEnvironment.clock (beginsAt plainEnvironment mixedEntries RR.millisecond process))
          (plainEnvironment.clock
            (busyUntil plainEnvironment mixedEntries RR.millisecond (process + 1))) := by
  have servable := mixedEntries_servable .FIFO (by decide)
  obtain ⟨initial, started, _⟩ := serving_start servable.toWorkable fun _ => none
  obtain ⟨s, run, isStopped⟩ : ∃ s, (systemMachine plainEnvironment).Run initial
      [.tick 1000000, .alarm, .begin, .tick 3000000, .finish, .begin, .alarm, .tick 2000000,
        .finish, .begin, .tick 700000000, .finish] s ∧ s.stopped = true := by
    cases Except.ok.inj started
    exact Machine.run_of_replay_map _ System.stopped (by decide +kernel)
  obtain ⟨count, _, printed, all⟩ := fifo_log_exact servable started run
  rw [all isStopped] at printed
  exact ⟨initial, s, started, run, printed⟩

/-! ### Shortest job first -/

/-- Each process begins when the one before it ends, and the one that begins is
shorter than all that wait, with the pid deciding between equals. -/
structure ShortestFirst (env : Environment) (entries : List Entry) (timeUnit : Timespec)
    (s : System) (queue : List ProcessPtr) (timeline : Timeline) : Prop where
  picked : timeline.ended.Pairwise fun first second =>
    processKey s.loop.core.allProcessInfo first ≤ processKey s.loop.core.allProcessInfo second ∨
      timeline.starts first ≤ arrivalAt entries timeUnit second
  ahead : ∀ first ∈ timeline.ended, ∀ second ∈ queue,
    processKey s.loop.core.allProcessInfo first ≤ processKey s.loop.core.allProcessInfo second ∨
      timeline.starts first ≤ arrivalAt entries timeUnit second
  current : ∀ head ∈ queue.head?, ∀ other ∈ queue.tail,
    processKey s.loop.core.allProcessInfo head ≤ processKey s.loop.core.allProcessInfo other ∨
      s.dispatchedAt timeline head ≤ arrivalAt entries timeUnit other
  past : ∀ before process after, timeline.ended = before ++ process :: after →
    timeline.starts process =
      arrivalAt entries timeUnit 0 + (before.map (workOf env entries)).sum
  next : ∀ head ∈ queue.head?, s.dispatchedAt timeline head =
    arrivalAt entries timeUnit 0 + (timeline.ended.map (workOf env entries)).sum
  early : queue = [] → timeline.ended = [] ∨ s.loop.core.arrivalPtr = entries.length

theorem ShortestFirst.finish {head : ProcessPtr} {rest : List ProcessPtr} {startTime : Timespec}
    (servable : Servable env entries timeUnit .SJF)
    (serving : Serving env entries timeUnit .SJF s (head :: rest))
    (unbroken : Unbroken env entries s (head :: rest) timeline)
    (shortest : ShortestFirst env entries timeUnit s (head :: rest) timeline)
    (finishes : Finishes env s later head rest queue' startTime) :
    ShortestFirst env entries timeUnit later queue' (timeline.finish head s.now) := by
  have table := finishes.keeps.table
  have began : s.dispatchedAt timeline head = timeline.starts head :=
    System.dispatchedAt_begun finishes.head_begun
  have sinceHead := shortest.next head rfl
  rw [began] at sinceHead
  refine ⟨?_, ?_, ?_, ?_, ?_, ?_⟩
  · rw [table]
    refine List.pairwise_append.mpr ⟨shortest.picked, List.pairwise_singleton _ _, ?_⟩
    intro first isEnded second isHead
    rw [List.mem_singleton.mp isHead]
    exact shortest.ahead first isEnded head List.mem_cons_self
  · rw [table]
    intro first isEnded second member
    have inRest := finishes.reordered.mem_iff.mp member
    rcases List.mem_append.mp isEnded with before | isHead
    · exact shortest.ahead first before second (List.mem_cons_of_mem head inRest)
    · rw [List.mem_singleton.mp isHead]
      have chosen := shortest.current head rfl second inRest
      rwa [began] at chosen
  · rw [table]
    intro first isFirst other member
    left
    exact finishes.shortest serving.isStrategy first isFirst other
      (finishes.reordered.mem_iff.mp (List.mem_of_mem_tail member))
  · intro before process after isEnded
    change timeline.starts process = _
    rcases List.eq_nil_or_concat after with isLast | ⟨more, last, isMore⟩
    · subst isLast
      obtain ⟨same, isHead⟩ := List.append_inj' isEnded rfl
      cases isHead
      rw [← same]
      exact sinceHead
    · rw [isMore, List.concat_eq_append, ← List.cons_append, ← List.append_assoc] at isEnded
      obtain ⟨same, _⟩ := List.append_inj' isEnded rfl
      exact shortest.past before process more same
  · intro first isFirst
    have fresh := unbroken.unbegun finishes first (List.mem_of_mem_head? isFirst)
    rw [System.dispatchedAt_unbegun fresh, finishes.now, ← unbroken.finished finishes, sinceHead]
    change _ = _ + ((timeline.ended ++ [head]).map (workOf env entries)).sum
    rw [List.map_append, List.sum_append, List.map_singleton, List.sum_singleton, Int.add_assoc]
  · intro nobody
    right
    have alone : rest = [] := (nobody ▸ finishes.reordered).nil_eq.symm
    subst alone
    have drained := serving.last_arrived servable.unit finishes.done (servable.noIdleGap rfl)
    rw [finishes.keeps.arrivalPtr, ← serving.reads.numProcess]
    exact beq_iff_eq.mp drained

/-- Nobody comes and nobody goes. -/
theorem ShortestFirst.stays {after : Timeline}
    (shortest : ShortestFirst env entries timeUnit s queue timeline)
    (loop : later.loop = s.loop) (ended : after.ended = timeline.ended)
    (starts : ∀ process ∈ timeline.ended, after.starts process = timeline.starts process)
    (dispatched : ∀ head ∈ queue.head?,
      later.dispatchedAt after head = s.dispatchedAt timeline head) :
    ShortestFirst env entries timeUnit later queue after where
  picked := by
    rw [ended, loop]
    apply shortest.picked.imp_of_mem
    intro first second isFirst _
    rw [starts first isFirst]
    exact id
  ahead := by
    rw [ended, loop]
    intro first isFirst
    rw [starts first isFirst]
    exact shortest.ahead first isFirst
  current := by
    rw [loop]
    intro head isHead
    rw [dispatched head isHead]
    exact shortest.current head isHead
  past := by
    rw [ended]
    intro before process behind isEnded
    rw [starts process (by rw [isEnded]; exact List.mem_append_right _ List.mem_cons_self)]
    exact shortest.past before process behind isEnded
  next := by
    rw [ended]
    intro head isHead
    rw [dispatched head isHead]
    exact shortest.next head isHead
  early := by
    rw [ended, loop]
    exact shortest.early

/-- Whoever has got the processor did so by now. -/
theorem Chronicled.dispatchedAt_le (serving : Serving env entries timeUnit strategy s queue)
    (chronicled : Chronicled env entries timeUnit s queue timeline) {process : ProcessPtr}
    (member : process ∈ queue) : s.dispatchedAt timeline process ≤ s.now := by
  cases begun : (s.kernel.children (pidOf s.loop.core process)).startTime with
  | none => exact Int.le_of_eq (System.dispatchedAt_unbegun (System.unbegun_iff.mpr begun))
  | some startTime =>
      obtain ⟨_, _, done⟩ := chronicled.begun process member startTime begun
      have bounded : s.leftOf process ≤ _ := (serving.children process member).bounded
      rw [System.dispatchedAt_begun (by rw [System.unbegun, begun]; rfl)]
      omega

theorem Chronicled.starts_le (chronicled : Chronicled env entries timeUnit s queue timeline)
    {process : ProcessPtr} (isEnded : process ∈ timeline.ended) :
    timeline.starts process ≤ s.now := by
  obtain ⟨_, long, past⟩ := chronicled.spans process isEnded
  have nonnegative := workOf_nonneg env entries process
  omega

theorem ShortestFirst.arrival (serving : Serving env entries timeUnit .SJF s queue)
    (serving' : Serving env entries timeUnit .SJF later queue')
    (chronicled : Chronicled env entries timeUnit s queue timeline)
    (shortest : ShortestFirst env entries timeUnit s queue timeline)
    (isNow : later.now = s.now) (does : AlarmDoes env entries timeUnit s later queue queue') :
    ShortestFirst env entries timeUnit later queue' timeline := by
  have notRR : s.loop.core.currentStrategy ≠ .RR := by
    rw [serving.isStrategy]
    decide
  have fresh := does.new_unbegun notRR
  have joined := does.joins notRR
  have kept := fun process (member : process ∈ queue) => does.unbegun_eq member
  cases does with
  | slice isRR _ _ _ => exact absurd isRR notRR
  | arrival further group earlier _ reordered _ chosen =>
      have key : ∀ process, process < s.loop.core.arrivalPtr →
          processKey later.loop.core.allProcessInfo process =
            processKey s.loop.core.allProcessInfo process := by
        intro process before
        rw [processKey, earlier process before]
        rfl
      have inQueue : ∀ process ∈ queue, process < s.loop.core.arrivalPtr :=
        serving.dispatching.lists.arrived.1
      refine ⟨?_, ?_, ?_, shortest.past, ?_, ?_⟩
      · apply shortest.picked.imp_of_mem
        intro first second isFirst isSecond
        rw [key first (chronicled.ended_lt isFirst), key second (chronicled.ended_lt isSecond)]
        exact id
      · intro first isFirst second member
        rcases List.mem_append.mp (reordered.mem_iff.mp member) with old | new
        · rw [key first (chronicled.ended_lt isFirst), key second (inQueue second old)]
          exact shortest.ahead first isFirst second old
        · right
          rw [(group second new).1]
          exact chronicled.starts_le isFirst
      · intro head isHead other member
        cases queue with
        | nil =>
            left
            exact chosen serving.isStrategy rfl head isHead other (List.mem_of_mem_tail member)
        | cons first tail =>
            rw [joined (Or.inr (List.cons_ne_nil _ _))] at isHead member
            have isFirst : first = head := Option.some.inj isHead
            subst isFirst
            have same : later.dispatchedAt timeline first = s.dispatchedAt timeline first := by
              rw [System.dispatchedAt, System.dispatchedAt, kept first List.mem_cons_self, isNow]
            rw [same]
            rcases List.mem_append.mp member with old | new
            · rw [key first (inQueue first List.mem_cons_self),
                key other (inQueue other (List.mem_cons_of_mem first old))]
              exact shortest.current first rfl other old
            · right
              rw [(group other new).1]
              exact chronicled.dispatchedAt_le serving List.mem_cons_self
      · intro head isHead
        cases queue with
        | nil =>
            -- the first arrival of all
            have within := serving'.dispatching.lists.within
            rw [serving'.reads.numProcess] at within
            have nobody : timeline.ended = [] := by
              rcases shortest.early rfl with nobody | drained
              · exact nobody
              · omega
            have accounted := chronicled.accounted.length_eq
            rw [nobody, List.length_append, List.length_range] at accounted
            change 0 = _ at accounted
            have new := reordered.mem_iff.mp (List.mem_of_mem_head? isHead)
            have first : (0 : ProcessPtr) ∈ groupOf s.loop.core later.loop.core :=
              (mem_groupOf (Nat.le_of_lt further)).mpr
                ⟨Nat.le_of_eq accounted.symm, Nat.zero_lt_of_lt further⟩
            rw [System.dispatchedAt_unbegun (fresh head new), isNow, nobody, (group 0 first).1]
            exact (Int.add_zero _).symm
        | cons first tail =>
            rw [joined (Or.inr (List.cons_ne_nil _ _))] at isHead
            have isFirst : first = head := Option.some.inj isHead
            subst isFirst
            rw [System.dispatchedAt, kept first List.mem_cons_self, isNow]
            exact shortest.next first rfl
      · intro nobody
        have length := reordered.length_eq
        rw [nobody, List.length_append, groupOf, List.length_range'] at length
        change 0 = _ at length
        omega

theorem ShortestFirst.moves (servable : Servable env entries timeUnit .SJF)
    (serving : Serving env entries timeUnit .SJF s queue)
    (serving' : Serving env entries timeUnit .SJF later queue')
    (chronicled : Chronicled env entries timeUnit s queue timeline)
    (unbroken : Unbroken env entries s queue timeline)
    (shortest : ShortestFirst env entries timeUnit s queue timeline) {event : SystemEvent}
    (moves : Moves env entries timeUnit s later queue queue' event) :
    ShortestFirst env entries timeUnit later queue' (timeline.after s.now queue event) := by
  have starts := fun process (isEnded : process ∈ timeline.ended) =>
    chronicled.starts_eq event isEnded
  have dispatched (notFinish : event ≠ .finish) : ∀ head ∈ queue.head?,
      later.dispatchedAt (timeline.after s.now queue event) head =
        s.dispatchedAt timeline head := by
    intro head isHead
    obtain ⟨tail, rfl⟩ := List.head?_eq_some_iff.mp isHead
    exact moves.dispatchedAt_eq notFinish
  cases moves with
  | tick isQueue ticks =>
      subst isQueue
      exact shortest.stays ticks.loop rfl starts (dispatched nofun)
  | begin isQueue begins =>
      subst isQueue
      exact shortest.stays begins.loop (timeline.after_ended s.now queue' nofun) starts
        (dispatched nofun)
  | finish isQueue finishes =>
      subst isQueue
      exact shortest.finish servable serving unbroken finishes
  | alarm _ _ isNow _ does => exact shortest.arrival serving serving' chronicled isNow does

/-- The clock neither stands nor jumps. -/
def Environment.TrueClock (env : Environment) : Prop :=
  ∀ first second, nanoseconds (env.clock second) - nanoseconds (env.clock first) = second - first

/-- Only RR takes the processor away. -/
theorem unbroken_run (servable : Servable env entries timeUnit strategy)
    {garbage : Nat → Option ProcessPtr} {initial : System} {history : List SystemEvent}
    (started : systemStart strategy entries garbage timeUnit = .ok initial)
    (run : (systemMachine env).Run initial history s) :
    ∃ queue timeline, Attending env entries timeUnit strategy s queue ∧
      Chronicled env entries timeUnit s queue timeline ∧
      (strategy ≠ .RR → Unbroken env entries s queue timeline) :=
  timeline_run servable started run
    (fun s queue timeline => strategy ≠ .RR → Unbroken env entries s queue timeline)
    (fun _ _ _ => ⟨nofun, nofun, nofun⟩)
    (fun _ _ _ _ _ _ _ serving _ chronicled _ moves holds notRR =>
      (holds notRR).moves notRR serving chronicled moves)

/-- What the script prints of a complete log. -/
theorem Chronicled.timeCalc (serving : Serving env entries timeUnit strategy s queue)
    (chronicled : Chronicled env entries timeUnit s queue timeline) (isStopped : s.stopped = true)
    (unbroken : strategy ≠ .RR → Unbroken env entries s queue timeline)
    (trueClock : env.TrueClock) (stamp : ProcessPtr → List Char)
    (unmarked : ∀ process, ProcessLog.marker ∉ ProcessLog.split (stamp process)) :
    ∃ (order : List ProcessPtr) (reported : ProcessPtr → Int),
      order.Perm (List.range entries.length) ∧
      ProcessLog.timeCalc (List.zipWith (fun process line => stamp process ++ ' ' :: line)
          order s.kernel.printed) =
        (order.map fun process =>
          (Tokens.decimal (pidOf s.loop.core process), { nsec := reported process }), none) ∧
      ∀ process, process < entries.length →
        workOf env entries process ≤ reported process ∧
          (strategy ≠ .RR → reported process = workOf env entries process) := by
  have complete := chronicled.complete serving isStopped
  let record (process : ProcessPtr) : ProcessLog.Record :=
    { before := stamp process
      pid := pidOf s.loop.core process
      startTime := env.clock (timeline.starts process)
      stopTime := env.clock (timeline.stops process)
      unmarked := unmarked process }
  refine ⟨timeline.ended, fun process => timeline.stops process - timeline.starts process,
    complete, ?_, ?_⟩
  · have lines : List.zipWith (fun process line => stamp process ++ ' ' :: line)
        timeline.ended s.kernel.printed =
          (timeline.ended.map record).map ProcessLog.Record.line := by
      rw [chronicled.printed, List.zipWith_map_right, List.zipWith_self, List.map_map]
      rfl
    rw [lines, ProcessLog.timeCalc_log, List.map_map]
    congr 1
    apply List.map_congr_left
    intro process _
    change (_, ProcessLog.TimeInfo.mk (nanoseconds _ - nanoseconds _)) = _
    rw [trueClock]
  · intro process inRange
    have member : process ∈ timeline.ended :=
      complete.mem_iff.mpr (List.mem_range.mpr inRange)
    obtain ⟨_, long, _⟩ := chronicled.spans process member
    refine ⟨Int.le_sub_left_of_add_le long, ?_⟩
    intro notRR
    have exact := (unbroken notRR).exact process member
    change timeline.stops process - timeline.starts process = _
    omega

theorem plainEnvironment_trueClock : plainEnvironment.TrueClock := by
  intro first second
  have exact (time : Int) : nanoseconds (plainEnvironment.clock time) = time :=
    Int.ediv_mul_add_emod time BILLION
  rw [exact, exact]

end UserScheduler
