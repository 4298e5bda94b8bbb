/-
The `struct timespec` arithmetic of main.c.

Fields are integers and C division truncates.  `nanoseconds` is the value a
timespec stands for; the helpers are exact on normalized arguments.
-/

import Mathlib.Data.Int.Order.Basic
import Mathlib.Tactic.LinearCombination

namespace UserScheduler

structure Timespec where
  tvSec : Int
  tvNsec : Int
deriving DecidableEq, Repr

def BILLION : Int := 1000000000

def timespecMultiply (timespec : Timespec) (n : Int) : Timespec :=
  let tvSec := timespec.tvSec * n
  let temp := timespec.tvNsec * n
  { tvSec := tvSec + temp.tdiv BILLION
    tvNsec := temp.tmod BILLION }

def timespecDivide (timespec : Timespec) (n : Int) : Timespec :=
  let totalNsec := (timespec.tvSec * BILLION + timespec.tvNsec).tdiv n
  { tvSec := totalNsec.tdiv BILLION
    tvNsec := totalNsec.tmod BILLION }

def timespecSubtract (lhs rhs : Timespec) : Timespec :=
  let tvSec := lhs.tvSec - rhs.tvSec
  let tvNsec := lhs.tvNsec - rhs.tvNsec
  if tvNsec < 0 then { tvSec := tvSec - 1, tvNsec := tvNsec + BILLION }
  else { tvSec := tvSec, tvNsec := tvNsec }

/-- Which of its two arguments `min_timespecp` points to. -/
inductive Argument where
  | lhs
  | rhs
deriving DecidableEq, Repr

def minTimespecp (lhs rhs : Timespec) : Argument :=
  let diff := timespecSubtract lhs rhs
  if diff.tvSec < 0 ∨ diff.tvNsec < 0 then .lhs else .rhs

def timspecIsZero (remaining : Timespec) : Bool :=
  remaining.tvSec == 0 && remaining.tvNsec == 0

def zeroTimespec : Timespec := { tvSec := 0, tvNsec := 0 }

/-! ### Nanoseconds -/

def nanoseconds (timespec : Timespec) : Int := timespec.tvSec * BILLION + timespec.tvNsec

structure Normalized (timespec : Timespec) : Prop where
  nonnegative : 0 ≤ timespec.tvNsec
  bounded : timespec.tvNsec < BILLION

theorem zeroTimespec_normalized : Normalized zeroTimespec := ⟨by decide, by decide⟩

variable {x y : Timespec}

/-- Both fields of a normalized timespec have its sign. -/
theorem Normalized.tvSec_nonneg (normalized : Normalized x) (nonnegative : 0 ≤ nanoseconds x) :
    0 ≤ x.tvSec := by
  have bounded := normalized.bounded
  unfold nanoseconds BILLION at *
  omega

theorem Normalized.isZero_iff (normalized : Normalized x) :
    timspecIsZero x = true ↔ nanoseconds x = 0 := by
  have bounded := normalized.bounded
  have nonnegative := normalized.nonnegative
  rw [timspecIsZero, Bool.and_eq_true_iff, beq_iff_eq, beq_iff_eq]
  unfold nanoseconds BILLION at *
  omega

theorem timespecMultiply_spec (normalized : Normalized x) {n : Int} (nonnegative : 0 ≤ n) :
    Normalized (timespecMultiply x n) ∧
      nanoseconds (timespecMultiply x n) = n * nanoseconds x := by
  have product : 0 ≤ x.tvNsec * n := Int.mul_nonneg normalized.nonnegative nonnegative
  have division := Int.mul_tdiv_add_tmod (x.tvNsec * n) BILLION
  constructor
  · exact ⟨Int.tmod_nonneg BILLION product, Int.tmod_lt_of_pos _ (by decide)⟩
  · simp only [nanoseconds, timespecMultiply]
    linear_combination division

theorem timespecDivide_spec (normalized : Normalized x) (nonnegative : 0 ≤ x.tvSec) {n : Int}
    (positive : 0 < n) :
    Normalized (timespecDivide x n) ∧
      nanoseconds (timespecDivide x n) = (nanoseconds x).fdiv n := by
  have total : 0 ≤ nanoseconds x :=
    Int.add_nonneg (Int.mul_nonneg nonnegative (by decide)) normalized.nonnegative
  have share : 0 ≤ (nanoseconds x).tdiv n := Int.tdiv_nonneg total (by omega)
  have division := Int.mul_tdiv_add_tmod ((nanoseconds x).tdiv n) BILLION
  constructor
  · exact ⟨Int.tmod_nonneg BILLION share, Int.tmod_lt_of_pos _ (by decide)⟩
  · rw [Int.fdiv_eq_tdiv_of_nonneg total (by omega), ← division, Int.mul_comm]
    rfl

theorem timespecSubtract_spec (left : Normalized x) (right : Normalized y) :
    Normalized (timespecSubtract x y) ∧
      nanoseconds (timespecSubtract x y) = nanoseconds x - nanoseconds y := by
  obtain ⟨leftNonnegative, leftBounded⟩ := left
  obtain ⟨rightNonnegative, rightBounded⟩ := right
  unfold timespecSubtract
  simp only [nanoseconds]
  unfold BILLION at *
  split
  · exact ⟨⟨by simp only; omega, by simp only [BILLION]; omega⟩, by simp only; omega⟩
  · exact ⟨⟨by simp only; omega, by simp only [BILLION]; omega⟩, by simp only; omega⟩

/-- The first argument is returned only when it is strictly smaller. -/
theorem minTimespecp_eq (left : Normalized x) (right : Normalized y) :
    minTimespecp x y = if nanoseconds x < nanoseconds y then .lhs else .rhs := by
  obtain ⟨normalized, difference⟩ := timespecSubtract_spec left right
  have negative : ((timespecSubtract x y).tvSec < 0 ∨ (timespecSubtract x y).tvNsec < 0) ↔
      nanoseconds x < nanoseconds y := by
    have nonnegative := normalized.nonnegative
    have bounded := normalized.bounded
    unfold nanoseconds BILLION at *
    omega
  simp only [minTimespecp, negative]

end UserScheduler
