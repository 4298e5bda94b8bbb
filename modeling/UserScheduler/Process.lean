/-
Data shared by the job schedulers and the event handler, after scheduler.h.

A `ProcessInfo *` is an index into `all_process_info`, and the null pointer is
`none`.  The table itself is a `Memory`, since PSJF writes through the pointers
it keeps in its heap.  Arrays from malloc are buffers of pointer cells with
unspecified contents.  Every access is checked, so that an assertion, a null
dereference and an index outside a buffer are visible outcomes.
-/

import UserScheduler.Lib.Machine

namespace UserScheduler

inductive ScheduleStrategy where
  | FIFO
  | RR
  | SJF
  | PSJF
deriving DecidableEq, Repr

inductive EventType where
  | timerExpired
  | childTerminated
  | timesliceOver
  | processArrival
deriving DecidableEq, Repr

abbrev ProcessPtr := Nat

/-- The fields the schedulers read.  `status` and `name` are never consulted
by the event loop. -/
structure ProcessInfo where
  arrivalTime : Int
  timeNeeded : Int
  remainingTime : Int
  pid : Int
deriving DecidableEq, Repr

abbrev Memory := ProcessPtr → ProcessInfo

def Memory.modify (mem : Memory) (process : ProcessPtr)
    (change : ProcessInfo → ProcessInfo) : Memory :=
  fun other => if other = process then change (mem other) else mem other

@[simp] theorem Memory.modify_same (mem : Memory) (process : ProcessPtr)
    (change : ProcessInfo → ProcessInfo) :
    mem.modify process change process = change (mem process) := if_pos rfl

theorem Memory.modify_other (mem : Memory) {process other : ProcessPtr}
    (change : ProcessInfo → ProcessInfo) (different : other ≠ process) :
    mem.modify process change other = mem other := if_neg different

/-! ### Faults and checked accesses -/

inductive Fault where
  | assertionFailed
  | nullDereference
  | outOfBounds
  | schedulerExit
  | outOfFuel
deriving DecidableEq, Repr

abbrev Result := Except Fault

/-- `p->field` for a pointer cell `p`. -/
def load (mem : Memory) : Option ProcessPtr → Result ProcessInfo
  | none => .error .nullDereference
  | some process => .ok (mem process)

@[simp] theorem load_some (mem : Memory) (process : ProcessPtr) :
    load mem (some process) = .ok (mem process) := rfl

def assertTrue (condition : Bool) : Result Unit :=
  if condition then .ok () else .error .assertionFailed

/-- An array of `ProcessInfo *`. -/
abbrev Buffer := List (Option ProcessPtr)

/-- `malloc(sizeof(ProcessInfo *) * count)`: nothing is known of the cells. -/
def malloc (garbage : Nat → Option ProcessPtr) (count : Nat) : Buffer :=
  (List.range count).map garbage

@[simp] theorem malloc_length (garbage : Nat → Option ProcessPtr) (count : Nat) :
    (malloc garbage count).length = count := by
  simp only [malloc, List.length_map, List.length_range]

def Buffer.read (buffer : Buffer) (index : Int) : Result (Option ProcessPtr) :=
  if 0 ≤ index then
    match buffer[index.toNat]? with
    | some cell => .ok cell
    | none => .error .outOfBounds
  else .error .outOfBounds

def Buffer.write (buffer : Buffer) (index : Int) (cell : Option ProcessPtr) :
    Result Buffer :=
  if 0 ≤ index ∧ index.toNat < buffer.length then .ok (buffer.set index.toNat cell)
  else .error .outOfBounds

theorem Buffer.read_eq (buffer : Buffer) (index : Nat) (cell : Option ProcessPtr)
    (found : buffer[index]? = some cell) : buffer.read (index : Int) = .ok cell := by
  simp only [Buffer.read, Int.natCast_nonneg, if_true, Int.toNat_natCast, found]

theorem Buffer.write_eq (buffer : Buffer) (index : Nat) (cell : Option ProcessPtr)
    (inRange : index < buffer.length) :
    buffer.write (index : Int) cell = .ok (buffer.set index cell) := by
  simp only [Buffer.write, Int.natCast_nonneg, Int.toNat_natCast, inRange, and_self,
    if_true]

/-- A write that went well changed one cell. -/
theorem Buffer.write_other {buffer written : Buffer} {index : Int} {contents : Option ProcessPtr}
    (wrote : buffer.write index contents = .ok written) {cell : Nat}
    (different : (cell : Int) ≠ index) : written[cell]? = buffer[cell]? := by
  unfold Buffer.write at wrote
  split at wrote
  · cases wrote
    rw [List.getElem?_set_ne (by omega)]
  · cases wrote

/-! ### Calls to the kernel scheduler -/

/-- `suspend_process` and `resume_process` reach a child only through its pid. -/
inductive PriorityCall where
  | suspend (pid : Int)
  | resume (pid : Int)
deriving DecidableEq, Repr

end UserScheduler
