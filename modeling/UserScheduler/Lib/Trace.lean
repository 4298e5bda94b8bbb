/-
Computations that record what they do.

A traced computation ends in a value and the events it went through, or in a
fault.  `erase` forgets the events: a program that is meant to be the recording
of another one is tied to it by an equation about `erase`.  `Yields` is partial
correctness over value and trace, with one rule for each way of building a
program, so that a fact about a trace never unfolds the recording.

Nothing here names a particular program.
-/

import Mathlib.Control.Monad.Writer

namespace Traces

abbrev Traced (event fault : Type) := WriterT (List event) (Except fault)

variable {event fault value other : Type}

/-- Perform an action and record the events it stands for. -/
def recorded (happened : List event) (action : Except fault value) :
    Traced event fault value :=
  WriterT.mk (action.map (fun result => (result, happened)))

/-! ### Erasure -/

def erase (program : Traced event fault value) : Except fault value :=
  program.run.map Prod.fst

@[simp] theorem erase_pure (result : value) :
    erase (pure result : Traced event fault value) = .ok result := rfl

@[simp] theorem erase_recorded (happened : List event) (action : Except fault value) :
    erase (recorded happened action) = action := by
  cases action <;> rfl

@[simp] theorem erase_bind (program : Traced event fault value)
    (next : value → Traced event fault other) :
    erase (program >>= next) = erase program >>= fun result => erase (next result) := by
  cases program with
  | error reason => rfl
  | ok outcome =>
      obtain ⟨result, trace⟩ := outcome
      change Except.map Prod.fst ((fun later => (later.1, trace ++ later.2)) <$> (next result).run) =
        erase (next result)
      unfold erase
      cases (next result).run <;> rfl

@[simp] theorem erase_ite (condition : Prop) [Decidable condition]
    (yes no : Traced event fault value) :
    erase (if condition then yes else no) = if condition then erase yes else erase no := by
  split <;> rfl

/-- Whatever the original returns, its recording returns with a trace. -/
theorem exists_trace {program : Traced event fault value} {result : value}
    (ended : erase program = .ok result) : ∃ trace, program.run = .ok (result, trace) := by
  unfold erase at ended
  cases outcome : program.run with
  | error reason =>
      rw [outcome] at ended
      cases ended
  | ok pair =>
      rw [outcome] at ended
      cases ended
      exact ⟨pair.2, rfl⟩

/-! ### Postconditions over value and trace -/

structure Yields (program : Traced event fault value) (post : value → List event → Prop) :
    Prop where
  ends : ∀ result trace, program.run = .ok (result, trace) → post result trace

theorem Yields.weaken {program : Traced event fault value}
    {post weaker : value → List event → Prop} (yields : Yields program post)
    (implies : ∀ result trace, post result trace → weaker result trace) :
    Yields program weaker :=
  ⟨fun result trace ended => implies result trace (yields.ends result trace ended)⟩

theorem Yields.pure {result : value} {post : value → List event → Prop}
    (holds : post result []) : Yields (Pure.pure result : Traced event fault value) post := by
  constructor
  intro found trace ended
  cases ended
  exact holds

theorem Yields.recorded {happened : List event} {action : Except fault value}
    {post : value → List event → Prop}
    (holds : ∀ result, action = .ok result → post result happened) :
    Yields (Traces.recorded happened action) post := by
  constructor
  intro found trace ended
  cases action with
  | error reason => cases ended
  | ok result =>
      cases ended
      exact holds found rfl

theorem Yields.faulted {happened : List event} {reason : fault}
    {post : value → List event → Prop} :
    Yields (Traces.recorded happened (Except.error reason)) post :=
  Yields.recorded (fun _ impossible => nomatch impossible)

/-- The rest of the program is checked for every trace the first part may leave. -/
theorem Yields.bind {program : Traced event fault value}
    {next : value → Traced event fault other} {middle : value → List event → Prop}
    {post : other → List event → Prop} (start : Yields program middle)
    (rest : ∀ result trace, middle result trace →
      Yields (next result) (fun final later => post final (trace ++ later))) :
    Yields (program >>= next) post := by
  constructor
  intro final whole ended
  cases program with
  | error reason => cases ended
  | ok outcome =>
      obtain ⟨result, trace⟩ := outcome
      change ((fun later => (later.1, trace ++ later.2)) <$> (next result).run) = _ at ended
      cases finished : (next result).run with
      | error reason =>
          rw [finished] at ended
          cases ended
      | ok last =>
          rw [finished] at ended
          cases ended
          exact (rest result trace (start.ends result trace rfl)).ends last.1 last.2 finished

theorem Yields.recorded_bind {happened : List event} {action : Except fault value}
    {next : value → Traced event fault other} {post : other → List event → Prop}
    (rest : ∀ result, action = .ok result →
      Yields (next result) (fun final later => post final (happened ++ later))) :
    Yields (Traces.recorded happened action >>= next) post := by
  have start : Yields (Traces.recorded happened action)
      (fun result trace => action = .ok result ∧ trace = happened) :=
    Yields.recorded (fun _ performed => ⟨performed, rfl⟩)
  apply start.bind
  rintro result trace ⟨performed, rfl⟩
  exact rest result performed

theorem Yields.ite {condition : Prop} [Decidable condition]
    {yes no : Traced event fault value} {post : value → List event → Prop}
    (holds : condition → Yields yes post) (fails : ¬ condition → Yields no post) :
    Yields (if condition then yes else no) post := by
  split
  · exact holds ‹_›
  · exact fails ‹_›

end Traces
