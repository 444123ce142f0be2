import Mathlib.Tactic.Ring

/-!
# Signed and unsigned 32-bit words

The values of the expressions in which C mixes `int` and `unsigned`, as integers.

* `toNat_toUInt32` : a signed word read as an unsigned one.
* `toInt_add_of_bounds`, `toInt_sub_of_bounds` : sums and differences that do not overflow.
-/

namespace Ch32fun

theorem toNat_toUInt32 (x : Int32) : (x.toUInt32.toNat : ℤ) = x.toInt % 2 ^ 32 := by
  have h : x.toInt = x.toBitVec.toInt := rfl
  rw [h, BitVec.toInt_eq_toNat_cond, Int32.toNat_toBitVec]
  have := x.toUInt32.toNat_lt
  split_ifs <;> omega

variable {x y : Int32}

theorem toInt_add_of_bounds (h : -2 ^ 31 ≤ x.toInt + y.toInt) (h' : x.toInt + y.toInt < 2 ^ 31) :
    (x + y).toInt = x.toInt + y.toInt := by
  rw [Int32.toInt_add]
  exact Int.bmod_eq_of_le (by omega) (by omega)

theorem toInt_sub_of_bounds (h : -2 ^ 31 ≤ x.toInt - y.toInt) (h' : x.toInt - y.toInt < 2 ^ 31) :
    (x - y).toInt = x.toInt - y.toInt := by
  rw [Int32.toInt_sub]
  exact Int.bmod_eq_of_le (by omega) (by omega)

theorem toInt_neg_of_bounds (h : -2 ^ 31 < x.toInt) : (-x).toInt = -x.toInt := by
  have hx := x.toInt_lt
  rw [Int32.toInt_neg]
  exact Int.bmod_eq_of_le (by omega) (by omega)

end Ch32fun
