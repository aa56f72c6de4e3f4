import EvMlDsa.LeafKeyValid

/-!
# Reduction modulo `Q`

`montgomery_reduce` and `reduce32` on machine integers. A Montgomery reduction is exact division:
the result times `2 ^ 32` is its argument less a multiple of `Q` (`montgomeryReduce_mul_two_pow`),
and it stays below `Q` on the whole documented range with the exception of its upper end
(`montgomeryReduce_range`).
-/

set_option autoImplicit false
set_option relaxedAutoImplicit false

namespace EvMlDsa

/-- `QINV`, the inverse of `Q` modulo `2 ^ 32`. -/
def qinv : Int64 := 58728449

/-- `montgomery_reduce`. -/
def montgomeryReduce (a : Int64) : Int32 :=
  let t : Int32 := (a.toInt32.toInt64 * qinv).toInt32
  ((a - t.toInt64 * dilithiumQ.toInt64) >>> 32).toInt32

/-- `reduce32`. -/
def reduce32 (a : Int32) : Int32 :=
  let t := (a + ((1 : Int32) <<< 22)) >>> 23
  a - t * dilithiumQ

/-! ### Machine integers -/

/-- A product that fits is the product. -/
theorem toInt_mul_of_fits {x y : Int32} (hlo : -2 ^ 31 ≤ x.toInt * y.toInt)
    (hhi : x.toInt * y.toInt < 2 ^ 31) : (x * y).toInt = x.toInt * y.toInt := by
  rw [Int32.toInt_mul]
  exact Int.bmod_eq_of_le (by omega) (by omega)

theorem toInt64_mul_of_fits {x y : Int64} (hlo : -2 ^ 63 ≤ x.toInt * y.toInt)
    (hhi : x.toInt * y.toInt < 2 ^ 63) : (x * y).toInt = x.toInt * y.toInt := by
  rw [Int64.toInt_mul]
  exact Int.bmod_eq_of_le (by omega) (by omega)

theorem toInt64_sub_of_fits {x y : Int64} (hlo : -2 ^ 63 ≤ x.toInt - y.toInt)
    (hhi : x.toInt - y.toInt < 2 ^ 63) : (x - y).toInt = x.toInt - y.toInt := by
  rw [Int64.toInt_sub]
  exact Int.bmod_eq_of_le (by omega) (by omega)

/-- Two `int32_t` never overflow an `int64_t` when they are multiplied. -/
theorem toInt_mul_toInt64 (x y : Int32) :
    (x.toInt64 * y.toInt64).toInt = x.toInt * y.toInt := by
  have hx := x.le_toInt
  have hx' := x.toInt_lt
  have hy := y.le_toInt
  have hy' := y.toInt_lt
  have hbound : |x.toInt * y.toInt| ≤ 2 ^ 31 * 2 ^ 31 := by
    rw [abs_mul]
    exact mul_le_mul (abs_le.mpr ⟨hx, by omega⟩) (abs_le.mpr ⟨hy, by omega⟩) (abs_nonneg _)
      (by norm_num)
  obtain ⟨hlo, hhi⟩ := abs_le.mp hbound
  have hproduct := toInt64_mul_of_fits (x := x.toInt64) (y := y.toInt64)
  rw [Int32.toInt_toInt64, Int32.toInt_toInt64] at hproduct
  exact hproduct (by omega) (by omega)

@[simp] theorem toInt_dilithiumQ : dilithiumQ.toInt = modulusQ := by decide

theorem cast_modulusQ : (modulusQ : ℤ) = 8380417 := rfl

/-! ### Montgomery reduction -/

section Montgomery

variable {a : Int64} (hlo : -(2 ^ 31 * modulusQ) ≤ a.toInt) (hhi : a.toInt ≤ 2 ^ 31 * modulusQ)
include hlo hhi

/-- The result times `2 ^ 32` is the argument less a multiple of `Q` by an `int32_t`. -/
theorem montgomeryReduce_mul_two_pow :
    ∃ t : Int32, (montgomeryReduce a).toInt * 2 ^ 32 = a.toInt - t.toInt * modulusQ := by
  rw [cast_modulusQ] at hlo hhi
  let t : Int32 := (a.toInt32.toInt64 * qinv).toInt32
  refine ⟨t, ?_⟩
  have hqinv : qinv.toInt = 58728449 := by decide
  have htlo := t.le_toInt
  have hthi := t.toInt_lt
  have hlow : a.toInt32.toInt = a.toInt - 2 ^ 32 * a.toInt.bdiv (2 ^ 32) := by
    rw [Int64.toInt_toInt32, Int.bmod_eq_self_sub_mul_bdiv]
    rfl
  have hllo := a.toInt32.le_toInt
  have hlhi := a.toInt32.toInt_lt
  -- `t` is the low half of the argument times the inverse of `Q`
  have hproduct : (a.toInt32.toInt64 * qinv).toInt = a.toInt32.toInt * 58728449 := by
    rw [toInt64_mul_of_fits, Int32.toInt_toInt64, hqinv] <;>
      rw [Int32.toInt_toInt64, hqinv] <;> omega
  have ht : t.toInt = a.toInt32.toInt * 58728449 -
      2 ^ 32 * (a.toInt32.toInt * 58728449).bdiv (2 ^ 32) := by
    show (a.toInt32.toInt64 * qinv).toInt32.toInt = _
    rw [Int64.toInt_toInt32, hproduct, Int.bmod_eq_self_sub_mul_bdiv]
    rfl
  have hdifference : (a - t.toInt64 * dilithiumQ.toInt64).toInt =
      a.toInt - t.toInt * 8380417 := by
    rw [toInt64_sub_of_fits] <;> rw [toInt_mul_toInt64, toInt_dilithiumQ, cast_modulusQ] <;> omega
  have hshift : ((a - t.toInt64 * dilithiumQ.toInt64) >>> 32).toInt =
      (a.toInt - t.toInt * 8380417) / 2 ^ 32 := by
    rw [← hdifference]
    show BitVec.toInt (BitVec.sshiftRight _ 32) = _
    rw [BitVec.toInt_sshiftRight, Int.shiftRight_eq_div_pow]
    rfl
  have hresult : (montgomeryReduce a).toInt = (a.toInt - t.toInt * 8380417) / 2 ^ 32 := by
    show ((a - t.toInt64 * dilithiumQ.toInt64) >>> 32).toInt32.toInt = _
    rw [Int64.toInt_toInt32, hshift]
    exact Int.bmod_eq_of_le (by omega) (by omega)
  rw [hresult, cast_modulusQ]
  omega

/-- Only the upper end of the documented range reaches `Q`. -/
theorem montgomeryReduce_range :
    -(modulusQ : ℤ) < (montgomeryReduce a).toInt ∧ (montgomeryReduce a).toInt ≤ modulusQ ∧
      ((montgomeryReduce a).toInt = modulusQ → a.toInt = 2 ^ 31 * modulusQ) := by
  obtain ⟨t, ht⟩ := montgomeryReduce_mul_two_pow hlo hhi
  rw [cast_modulusQ] at *
  have htlo := t.le_toInt
  have hthi := t.toInt_lt
  omega

/-- The result is the argument over `2 ^ 32`. -/
theorem cast_montgomeryReduce_mul :
    ((montgomeryReduce a).toInt : ZMod modulusQ) * 2 ^ 32 = (a.toInt : ZMod modulusQ) := by
  obtain ⟨t, ht⟩ := montgomeryReduce_mul_two_pow hlo hhi
  have hcast := congrArg (Int.cast : ℤ → ZMod modulusQ) ht
  have hzero : ((modulusQ : ℤ) : ZMod modulusQ) = 0 := by
    rw [Int.cast_natCast, ZMod.natCast_self]
  rw [Int.cast_mul, Int.cast_sub, Int.cast_mul, hzero, mul_zero, sub_zero] at hcast
  rw [← hcast]
  norm_num

end Montgomery

/-! ### Reduction of sums -/

/-- Up to `2 ^ 31 - 2 ^ 22 - 1` nothing overflows, and `reduce32` rounds to the nearest multiple of
`2 ^ 23`, up from the middle. -/
theorem toInt_reduce32 {a : Int32} (hhi : a.toInt ≤ 2 ^ 31 - 2 ^ 22 - 1) :
    (reduce32 a).toInt = a.toInt - (a.toInt + 2 ^ 22) / 2 ^ 23 * modulusQ := by
  rw [cast_modulusQ]
  have hlo := a.le_toInt
  have hconst : ((1 : Int32) <<< 22).toInt = 2 ^ 22 := by decide
  have hsum : (a + ((1 : Int32) <<< 22)).toInt = a.toInt + 2 ^ 22 := by
    rw [toInt_add_of_fits, hconst] <;> rw [hconst] <;> omega
  have hquotient : ((a + ((1 : Int32) <<< 22)) >>> 23).toInt = (a.toInt + 2 ^ 22) / 2 ^ 23 := by
    rw [← hsum]
    exact toInt_sshiftRight_eq_div (a + ((1 : Int32) <<< 22)).toBitVec 23
  have hmultiple : (((a + ((1 : Int32) <<< 22)) >>> 23) * dilithiumQ).toInt =
      (a.toInt + 2 ^ 22) / 2 ^ 23 * 8380417 := by
    rw [toInt_mul_of_fits, hquotient, toInt_dilithiumQ, cast_modulusQ] <;>
      rw [hquotient, toInt_dilithiumQ, cast_modulusQ] <;> omega
  show (a - ((a + ((1 : Int32) <<< 22)) >>> 23) * dilithiumQ).toInt = _
  rw [toInt_sub_of_fits, hmultiple] <;> rw [hmultiple] <;> omega

/-- One argument falls below the documented range. -/
theorem reduce32_range {a : Int32} (hhi : a.toInt ≤ 2 ^ 31 - 2 ^ 22 - 1) :
    -6283009 ≤ (reduce32 a).toInt ∧ (reduce32 a).toInt ≤ 6283008 ∧
      ((reduce32 a).toInt = -6283009 → a.toInt = -(255 * 2 ^ 23) - 2 ^ 22) := by
  have hlo := a.le_toInt
  rw [toInt_reduce32 hhi, cast_modulusQ]
  omega

theorem cast_reduce32 {a : Int32} (hhi : a.toInt ≤ 2 ^ 31 - 2 ^ 22 - 1) :
    ((reduce32 a).toInt : ZMod modulusQ) = (a.toInt : ZMod modulusQ) := by
  rw [ZMod.intCast_eq_intCast_iff_dvd_sub, toInt_reduce32 hhi]
  exact ⟨(a.toInt + 2 ^ 22) / 2 ^ 23, by ring⟩

end EvMlDsa
