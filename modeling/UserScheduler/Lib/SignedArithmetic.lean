/-
Checked arithmetic on signed words.

An operation is performed on exact integers and its result is checked against
the range of a two's complement word of `width` bits.  A computation of checked
operations that ends well has therefore met no overflow on its way, and its
value is the exact one.  Division truncates towards zero.

Nothing here names a particular program.
-/

import Mathlib.Algebra.Order.Ring.Int
import UserScheduler.Lib.Machine

namespace SignedArithmetic

inductive ArithmeticFault where
  | overflow
  | divisionByZero
deriving DecidableEq, Repr

/-- The values of a signed word. -/
def InRange (width : Nat) (value : Int) : Prop :=
  -2 ^ (width - 1) ≤ value ∧ value < 2 ^ (width - 1)

instance (width : Nat) (value : Int) : Decidable (InRange width value) :=
  inferInstanceAs (Decidable (_ ∧ _))

/-- The result of an operation, if a word can hold it. -/
def checked (width : Nat) (value : Int) : Except ArithmeticFault Int :=
  if InRange width value then .ok value else .error .overflow

def quotient (width : Nat) (dividend divisor : Int) : Except ArithmeticFault Int :=
  if divisor = 0 then .error .divisionByZero else checked width (dividend.tdiv divisor)

/-- A remainder is defined only where the quotient is. -/
def remainder (width : Nat) (dividend divisor : Int) : Except ArithmeticFault Int := do
  let _ ← quotient width dividend divisor
  checked width (dividend.tmod divisor)

variable {width : Nat} {value top dividend divisor : Int}

theorem checked_eq (inRange : InRange width value) : checked width value = .ok value :=
  if_pos inRange

/-- Between zero and a value of the word everything is in range. -/
theorem InRange.of_nonneg_le (inRange : InRange width top) (nonnegative : 0 ≤ value)
    (below : value ≤ top) : InRange width value := by
  have room : (0 : Int) ≤ 2 ^ (width - 1) := pow_nonneg (by decide) _
  obtain ⟨_, high⟩ := inRange
  constructor
  · omega
  · omega

theorem quotient_eq (inRange : InRange width dividend) (nonnegative : 0 ≤ dividend)
    (positive : 0 < divisor) : quotient width dividend divisor = .ok (dividend.tdiv divisor) := by
  have above : 0 ≤ dividend.tdiv divisor := Int.tdiv_nonneg nonnegative (by omega)
  have below : dividend.tdiv divisor ≤ dividend := Int.tdiv_le_self divisor nonnegative
  rw [quotient, if_neg (by omega), checked_eq (inRange.of_nonneg_le above below)]

theorem remainder_eq (inRange : InRange width dividend) (nonnegative : 0 ≤ dividend)
    (positive : 0 < divisor) : remainder width dividend divisor = .ok (dividend.tmod divisor) := by
  have above : 0 ≤ dividend.tmod divisor := Int.tmod_nonneg divisor nonnegative
  have multiple : 0 ≤ divisor * dividend.tdiv divisor :=
    Int.mul_nonneg (by omega) (Int.tdiv_nonneg nonnegative (by omega))
  have division := Int.mul_tdiv_add_tmod dividend divisor
  have below : dividend.tmod divisor ≤ dividend := by omega
  rw [remainder, quotient_eq inRange nonnegative positive, Machines.ok_bind,
    checked_eq (inRange.of_nonneg_le above below)]

end SignedArithmetic
