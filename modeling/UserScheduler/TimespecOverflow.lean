/-
The timespec helpers in signed 64-bit arithmetic.

`tv_sec`, `tv_nsec` and `BILLION` are longs and an int factor is promoted, so
each helper is computed here once more with every C operation checked against
64 bits.  Where no operation overflows the result is that of the exact helper.
-/

import UserScheduler.Lib.SignedArithmetic
import UserScheduler.Timespec

namespace UserScheduler

open SignedArithmetic

/-! ### The helpers, operation by operation -/

def timespecMultiplyChecked (timespec : Timespec) (n : Int) :
    Except ArithmeticFault Timespec := do
  let tvSec ← checked 64 (timespec.tvSec * n)
  let temp ← checked 64 (timespec.tvNsec * n)
  let tvSec ← checked 64 (tvSec + (← quotient 64 temp BILLION))
  let tvNsec ← remainder 64 temp BILLION
  return { tvSec := tvSec, tvNsec := tvNsec }

def timespecDivideChecked (timespec : Timespec) (n : Int) :
    Except ArithmeticFault Timespec := do
  let totalNsec ← checked 64 ((← checked 64 (timespec.tvSec * BILLION)) + timespec.tvNsec)
  let totalNsec ← quotient 64 totalNsec n
  let tvSec ← quotient 64 totalNsec BILLION
  let tvNsec ← remainder 64 totalNsec BILLION
  return { tvSec := tvSec, tvNsec := tvNsec }

def timespecSubtractChecked (lhs rhs : Timespec) : Except ArithmeticFault Timespec := do
  let tvSec ← checked 64 (lhs.tvSec - rhs.tvSec)
  let tvNsec ← checked 64 (lhs.tvNsec - rhs.tvNsec)
  if tvNsec < 0 then
    let tvSec ← checked 64 (tvSec - 1)
    let tvNsec ← checked 64 (tvNsec + BILLION)
    return { tvSec := tvSec, tvNsec := tvNsec }
  return { tvSec := tvSec, tvNsec := tvNsec }

/-! ### No operation overflows -/

/-- Normalized, with seconds that a nonnegative int can hold. -/
structure Moderate (timespec : Timespec) : Prop extends Normalized timespec where
  tvSec_nonneg : 0 ≤ timespec.tvSec
  tvSec_lt : timespec.tvSec < 2 ^ 31

variable {x y : Timespec} {n : Int}

theorem int64_of_bounds {value : Int} (low : -9223372036854775808 ≤ value)
    (high : value ≤ 9223372036854775807) : InRange 64 value := by
  unfold InRange
  omega

theorem product_bounds {factor limit : Int} (nonnegative : 0 ≤ factor)
    (bounded : factor ≤ limit) (nNonnegative : 0 ≤ n) (nLt : n < 2 ^ 31) :
    0 ≤ factor * n ∧ factor * n ≤ limit * 2147483647 := by
  constructor
  · exact Int.mul_nonneg nonnegative nNonnegative
  · exact Int.mul_le_mul bounded (by omega) nNonnegative (by omega)

/-- The two products are below `2 ^ 62`, and the carry is at most one of them. -/
theorem timespecMultiplyChecked_eq (moderate : Moderate x) (nNonnegative : 0 ≤ n)
    (nLt : n < 2 ^ 31) : timespecMultiplyChecked x n = .ok (timespecMultiply x n) := by
  obtain ⟨⟨nsecNonneg, nsecLt⟩, secNonneg, secLt⟩ := moderate
  unfold BILLION at nsecLt
  have seconds := product_bounds secNonneg (by omega : x.tvSec ≤ 2147483647) nNonnegative nLt
  have temp := product_bounds nsecNonneg (by omega : x.tvNsec ≤ 999999999) nNonnegative nLt
  have tempIn : InRange 64 (x.tvNsec * n) := int64_of_bounds (by omega) (by omega)
  have carryNonneg : 0 ≤ (x.tvNsec * n).tdiv BILLION := Int.tdiv_nonneg temp.1 (by decide)
  have carryLe : (x.tvNsec * n).tdiv BILLION ≤ x.tvNsec * n := Int.tdiv_le_self BILLION temp.1
  have secondsIn : InRange 64 (x.tvSec * n) := int64_of_bounds (by omega) (by omega)
  have sumIn : InRange 64 (x.tvSec * n + (x.tvNsec * n).tdiv BILLION) :=
    int64_of_bounds (by omega) (by omega)
  have billion : 0 < BILLION := by decide
  simp only [timespecMultiplyChecked, timespecMultiply, checked_eq secondsIn, checked_eq tempIn,
    quotient_eq tempIn temp.1 billion, checked_eq sumIn, remainder_eq tempIn temp.1 billion,
    Machines.ok_bind, Machines.pure_eq_ok]

theorem timespecDivideChecked_eq (moderate : Moderate x) (positive : 0 < n) :
    timespecDivideChecked x n = .ok (timespecDivide x n) := by
  obtain ⟨⟨nsecNonneg, nsecLt⟩, secNonneg, secLt⟩ := moderate
  have billion : 0 < BILLION := by decide
  have secondsNonneg : 0 ≤ x.tvSec * BILLION := Int.mul_nonneg secNonneg (by decide)
  have secondsIn : InRange 64 (x.tvSec * BILLION) := by
    unfold BILLION at secondsNonneg ⊢
    exact int64_of_bounds (by omega) (by omega)
  have totalNonneg : 0 ≤ x.tvSec * BILLION + x.tvNsec := Int.add_nonneg secondsNonneg nsecNonneg
  have totalIn : InRange 64 (x.tvSec * BILLION + x.tvNsec) := by
    unfold BILLION at nsecLt totalNonneg ⊢
    exact int64_of_bounds (by omega) (by omega)
  have shareNonneg : 0 ≤ (x.tvSec * BILLION + x.tvNsec).tdiv n :=
    Int.tdiv_nonneg totalNonneg (by omega)
  have shareIn : InRange 64 ((x.tvSec * BILLION + x.tvNsec).tdiv n) :=
    totalIn.of_nonneg_le shareNonneg (Int.tdiv_le_self n totalNonneg)
  simp only [timespecDivideChecked, timespecDivide, checked_eq secondsIn, checked_eq totalIn,
    quotient_eq totalIn totalNonneg positive, quotient_eq shareIn shareNonneg billion,
    remainder_eq shareIn shareNonneg billion, Machines.ok_bind, Machines.pure_eq_ok]

theorem timespecSubtractChecked_eq (left : Moderate x) (right : Moderate y) :
    timespecSubtractChecked x y = .ok (timespecSubtract x y) := by
  obtain ⟨⟨leftNsecNonneg, leftNsecLt⟩, leftSecNonneg, leftSecLt⟩ := left
  obtain ⟨⟨rightNsecNonneg, rightNsecLt⟩, rightSecNonneg, rightSecLt⟩ := right
  unfold BILLION at leftNsecLt rightNsecLt
  have secondsIn : InRange 64 (x.tvSec - y.tvSec) := int64_of_bounds (by omega) (by omega)
  have nsecIn : InRange 64 (x.tvNsec - y.tvNsec) := int64_of_bounds (by omega) (by omega)
  have borrowIn : InRange 64 (x.tvSec - y.tvSec - 1) := int64_of_bounds (by omega) (by omega)
  have lentIn : InRange 64 (x.tvNsec - y.tvNsec + BILLION) := by
    unfold BILLION
    exact int64_of_bounds (by omega) (by omega)
  simp only [timespecSubtractChecked, timespecSubtract, checked_eq secondsIn, checked_eq nsecIn,
    checked_eq borrowIn, checked_eq lentIn, Machines.ok_bind, Machines.pure_eq_ok]
  split
  · rfl
  · rfl

/-! ### Exactness -/

/-- What the helpers promise for two times and a factor. -/
structure ExactHelpers (x y : Timespec) (n : Int) : Prop where
  multiply_inRange : timespecMultiplyChecked x n = .ok (timespecMultiply x n)
  multiply_normalized : Normalized (timespecMultiply x n)
  multiply_exact : nanoseconds (timespecMultiply x n) = n * nanoseconds x
  subtract_inRange : timespecSubtractChecked x y = .ok (timespecSubtract x y)
  subtract_normalized : Normalized (timespecSubtract x y)
  subtract_exact : nanoseconds (timespecSubtract x y) = nanoseconds x - nanoseconds y
  divide_inRange : 1 ≤ n → timespecDivideChecked x n = .ok (timespecDivide x n)
  divide_normalized : 1 ≤ n → Normalized (timespecDivide x n)
  divide_exact : 1 ≤ n → nanoseconds (timespecDivide x n) = (nanoseconds x).fdiv n
  min_first : minTimespecp x y = .lhs ↔ nanoseconds x < nanoseconds y
  min_second : ¬ nanoseconds x < nanoseconds y → minTimespecp x y = .rhs

/-- On moderate times and nonnegative int factors the helpers are integer
arithmetic on nanoseconds, and none of their operations overflows. -/
theorem timespec_helpers_exact (left : Moderate x) (right : Moderate y) (nNonnegative : 0 ≤ n)
    (nLt : n < 2 ^ 31) : ExactHelpers x y n := by
  have multiplied := timespecMultiply_spec left.toNormalized nNonnegative
  have subtracted := timespecSubtract_spec left.toNormalized right.toNormalized
  have divided : 1 ≤ n → Normalized (timespecDivide x n) ∧
      nanoseconds (timespecDivide x n) = (nanoseconds x).fdiv n :=
    fun positive => timespecDivide_spec left.toNormalized left.tvSec_nonneg positive
  have compared := minTimespecp_eq left.toNormalized right.toNormalized
  constructor
  · exact timespecMultiplyChecked_eq left nNonnegative nLt
  · exact multiplied.1
  · exact multiplied.2
  · exact timespecSubtractChecked_eq left right
  · exact subtracted.1
  · exact subtracted.2
  · intro positive
    exact timespecDivideChecked_eq left positive
  · intro positive
    exact (divided positive).1
  · intro positive
    exact (divided positive).2
  · rw [compared]
    by_cases smaller : nanoseconds x < nanoseconds y
    · simp only [smaller, if_true]
    · simp only [smaller, if_false, reduceCtorEq]
  · intro notSmaller
    rw [compared, if_neg notSmaller]

/-- The largest arguments, with a negative difference. -/
theorem timespec_helpers_exact_largest :
    ExactHelpers { tvSec := 2147483647, tvNsec := 0 }
      { tvSec := 2147483647, tvNsec := 999999999 } 2147483647 :=
  timespec_helpers_exact ⟨⟨by decide, by decide⟩, by decide, by decide⟩
    ⟨⟨by decide, by decide⟩, by decide, by decide⟩ (by decide) (by decide)

end UserScheduler
