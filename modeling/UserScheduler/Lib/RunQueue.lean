/-
Run queues of a fixed-priority scheduler on one processor.

Among the tasks of the highest level present, the one that has waited longest
runs.  The queue is kept as a single list: the tasks of one level stand in it in
their own order, so an entry at the end of the list is the last of its level and
one at the front is the first.  A task that is raised joins the end of its new
level, one that is lowered joins the front, and one whose level stays the same
keeps its place.

Nothing here names a particular program.
-/

import Mathlib.Data.List.Perm.Basic
import Mathlib.Order.MinMax

namespace RunQueues

variable {task level : Type}

structure Slot (task level : Type) where
  task : task
  level : level
deriving DecidableEq, Repr

abbrev RunQueue (task level : Type) := List (Slot task level)

def RunQueue.tasks (queue : RunQueue task level) : List task := queue.map Slot.task

theorem RunQueue.mem_tasks {queue : RunQueue task level} {slot : Slot task level}
    (member : slot ∈ queue) : slot.task ∈ queue.tasks :=
  List.mem_map_of_mem member

section Levels

variable [LinearOrder level]

/-- No slot of the queue is above this one. -/
def RunQueue.Top (queue : RunQueue task level) (slot : Slot task level) : Prop :=
  ∀ other ∈ queue, other.level ≤ slot.level

instance (queue : RunQueue task level) (slot : Slot task level) : Decidable (queue.Top slot) :=
  inferInstanceAs (Decidable (∀ other ∈ queue, _))

/-- The task that has the processor. -/
def RunQueue.running (queue : RunQueue task level) : Option task :=
  (queue.find? fun slot => queue.Top slot).map Slot.task

variable {queue later : RunQueue task level}

/-- Tasks of one level run in the order in which they stand. -/
theorem RunQueue.running_of_level {shared : level}
    (same : ∀ slot ∈ queue, slot.level = shared) : queue.running = queue.tasks.head? := by
  cases queue with
  | nil => rfl
  | cons first rest =>
      have isTop : RunQueue.Top (first :: rest) first := by
        intro other member
        rw [same other member, same first List.mem_cons_self]
      have found : (first :: rest).find? (fun slot => RunQueue.Top (first :: rest) slot) =
          some first := List.find?_cons_of_pos (decide_eq_true isTop)
      rw [RunQueue.running, found]
      rfl

/-- A task alone at the highest level runs, wherever it stands. -/
theorem RunQueue.running_of_top {slot : Slot task level} {others : RunQueue task level}
    (arranged : queue.Perm (slot :: others))
    (below : ∀ other ∈ others, other.level < slot.level) : queue.running = some slot.task := by
  have isTop : queue.Top slot := by
    intro other member
    rcases List.mem_cons.mp (arranged.mem_iff.mp member) with isSlot | isOther
    · rw [isSlot]
    · exact le_of_lt (below other isOther)
  have only : ∀ other ∈ queue, queue.Top other → other = slot := by
    intro other member top
    rcases List.mem_cons.mp (arranged.mem_iff.mp member) with isSlot | isOther
    · exact isSlot
    · have reaches := top slot (arranged.mem_iff.mpr List.mem_cons_self)
      exact absurd (below other isOther) (not_lt_of_ge reaches)
  cases found : queue.find? fun slot => queue.Top slot with
  | none =>
      have noTop := List.find?_eq_none.mp found slot (arranged.mem_iff.mpr List.mem_cons_self)
      exact absurd (decide_eq_true isTop) noTop
  | some other =>
      have top := List.find?_some found
      rw [decide_eq_true_eq] at top
      rw [RunQueue.running, found, only other (List.mem_of_find?_eq_some found) top]
      rfl

end Levels

/-! ### Entering, leaving and changing levels -/

section Moves

variable [DecidableEq task]

def RunQueue.enter (queue : RunQueue task level) (entering : task) (rank : level) :
    RunQueue task level :=
  queue ++ [⟨entering, rank⟩]

def RunQueue.leave (queue : RunQueue task level) (leaving : task) : RunQueue task level :=
  queue.filter fun slot => slot.task ≠ leaving

def RunQueue.levelOf (queue : RunQueue task level) (moved : task) : Option level :=
  (queue.find? fun slot => slot.task = moved).map Slot.level

/-- Nothing for a task that is not there. -/
def RunQueue.setLevel [LinearOrder level] (queue : RunQueue task level) (moved : task)
    (new : level) : Option (RunQueue task level) :=
  match queue.levelOf moved with
  | none => none
  | some old =>
      if old < new then some (queue.leave moved ++ [⟨moved, new⟩])
      else if new < old then some (⟨moved, new⟩ :: queue.leave moved)
      else some queue

variable {queue others : RunQueue task level} {moved : task} {old new : level}

theorem RunQueue.leave_absent (absent : moved ∉ queue.tasks) : queue.leave moved = queue := by
  rw [RunQueue.leave, List.filter_eq_self]
  intro slot member
  apply decide_eq_true
  rintro rfl
  exact absent (RunQueue.mem_tasks member)

theorem RunQueue.leave_perm (arranged : queue.Perm (⟨moved, old⟩ :: others))
    (absent : moved ∉ others.tasks) : (queue.leave moved).Perm others := by
  have filtered := arranged.filter fun slot => decide (slot.task ≠ moved)
  rw [List.filter_cons_of_neg (by simp)] at filtered
  exact filtered.trans (List.Perm.of_eq (RunQueue.leave_absent absent))

theorem RunQueue.levelOf_eq (arranged : queue.Perm (⟨moved, old⟩ :: others))
    (absent : moved ∉ others.tasks) : queue.levelOf moved = some old := by
  have only : ∀ slot ∈ queue, slot.task = moved → slot = ⟨moved, old⟩ := by
    intro slot member same
    rcases List.mem_cons.mp (arranged.mem_iff.mp member) with isMoved | isOther
    · exact isMoved
    · exact absurd (same ▸ RunQueue.mem_tasks isOther) absent
  cases found : queue.find? fun slot => slot.task = moved with
  | none =>
      have missing := List.find?_eq_none.mp found ⟨moved, old⟩
        (arranged.mem_iff.mpr List.mem_cons_self)
      exact absurd (decide_eq_true rfl) missing
  | some slot =>
      have same := List.find?_some found
      rw [decide_eq_true_eq] at same
      rw [RunQueue.levelOf, found, only slot (List.mem_of_find?_eq_some found) same]
      rfl

variable [LinearOrder level]

/-- A change of level moves the task and nothing else. -/
theorem RunQueue.setLevel_perm (arranged : queue.Perm (⟨moved, old⟩ :: others))
    (absent : moved ∉ others.tasks) (new : level) :
    ∃ later, queue.setLevel moved new = some later ∧ later.Perm (⟨moved, new⟩ :: others) := by
  have left := RunQueue.leave_perm arranged absent
  rw [RunQueue.setLevel, RunQueue.levelOf_eq arranged absent]
  rcases lt_trichotomy old new with raised | same | lowered
  · refine ⟨_, if_pos raised, ?_⟩
    exact List.perm_append_comm.trans (left.cons _)
  · subst same
    refine ⟨queue, ?_, arranged⟩
    simp only [lt_irrefl, if_false]
  · refine ⟨_, ?_, left.cons _⟩
    simp only [not_lt_of_gt lowered, lowered, if_false, if_true]

/-- An unchanged level leaves the queue as it is. -/
theorem RunQueue.setLevel_same (arranged : queue.Perm (⟨moved, old⟩ :: others))
    (absent : moved ∉ others.tasks) : queue.setLevel moved old = some queue := by
  simp only [RunQueue.setLevel, RunQueue.levelOf_eq arranged absent, lt_irrefl, if_false]

/-- A task that was the last and is lowered becomes the first. -/
theorem RunQueue.setLevel_lowered (absent : moved ∉ queue.tasks) (lowered : new < old) :
    (queue.enter moved old).setLevel moved new = some (⟨moved, new⟩ :: queue) := by
  have arranged : (queue.enter moved old).Perm (⟨moved, old⟩ :: queue) := List.perm_append_comm
  have left : (queue.enter moved old).leave moved = queue := by
    change (queue ++ [_]).filter _ = queue
    rw [List.filter_append, List.filter_cons_of_neg (by simp), List.filter_nil, List.append_nil]
    exact RunQueue.leave_absent absent
  simp only [RunQueue.setLevel, RunQueue.levelOf_eq arranged absent, left,
    not_lt_of_gt lowered, lowered, if_false, if_true]

/-- A task that was the first and is raised becomes the last. -/
theorem RunQueue.setLevel_raised (absent : moved ∉ queue.tasks) (raised : old < new) :
    RunQueue.setLevel (⟨moved, old⟩ :: queue) moved new = some (queue.enter moved new) := by
  have left : RunQueue.leave (⟨moved, old⟩ :: queue) moved = queue := by
    rw [RunQueue.leave, List.filter_cons_of_neg (by simp)]
    exact RunQueue.leave_absent absent
  simp only [RunQueue.setLevel, RunQueue.levelOf_eq (List.Perm.refl _) absent, left, raised,
    if_true]
  rfl

end Moves

end RunQueues
