import Mathlib.Tactic.Ring

/-!
# Integer objects

A small integer is an object whose lowest bit is set; the other 31 bits are its value.  Larger
integers live on the heap.

* `mpObjNewSmallInt`, `mpObjSmallIntValue` : the value into the object, and back.
* `smallIntValue_new` : the low 31 bits of the value come back, the highest of them as the sign.
-/

namespace Ch32fun

/-- `MP_OBJ_NEW_SMALL_INT`. -/
def mpObjNewSmallInt (n : UInt32) : UInt32 := n <<< 1 ||| 1

/-- `MP_OBJ_SMALL_INT_VALUE`; the shift keeps the sign. -/
def mpObjSmallIntValue (o : UInt32) : Int32 := o.toInt32 >>> 1

theorem sshiftRight_tag (n : BitVec 32) :
    (n <<< 1 ||| 1#32).sshiftRight 1 = (n.setWidth 31).signExtend 32 := by
  ext i hi
  simp only [BitVec.getElem_sshiftRight, BitVec.getElem_signExtend, BitVec.getElem_or,
    BitVec.getElem_shiftLeft, BitVec.msb_or, BitVec.getElem_setWidth]
  rw [BitVec.msb_eq_getLsbD_last, BitVec.msb_eq_getLsbD_last, BitVec.msb_eq_getLsbD_last]
  split_ifs with h₁ h₂ h₂
  · simp [BitVec.getLsbD_eq_getElem hi]
  · omega
  · omega
  · simp

theorem toInt_signExtend_setWidth (n : BitVec 32) :
    ((n.setWidth 31).signExtend 32).toInt = n.toInt.bmod (2 ^ 31) := by
  rw [BitVec.toInt_signExtend_of_le (by omega), BitVec.toInt_setWidth,
    BitVec.toInt_eq_toNat_bmod, Int.bmod_bmod_of_dvd (by decide)]

/-- **What a small integer keeps** of a value: the low 31 bits. -/
theorem smallIntValue_new (n : UInt32) :
    (mpObjSmallIntValue (mpObjNewSmallInt n)).toInt = n.toInt32.toInt.bmod (2 ^ 31) := by
  have hbits : (mpObjSmallIntValue (mpObjNewSmallInt n)).toBitVec =
      (n.toBitVec.setWidth 31).signExtend 32 := by
    rw [mpObjSmallIntValue, Int32.toBitVec_shiftRight]
    exact sshiftRight_tag n.toBitVec
  rw [← Int32.toInt_toBitVec, hbits, toInt_signExtend_setWidth]
  rfl

theorem smallIntValue_ofNat {n : ℕ} (h : n < 2 ^ 30) :
    (mpObjSmallIntValue (mpObjNewSmallInt (UInt32.ofNat n))).toInt = n := by
  have hint : (UInt32.ofNat n).toInt32.toInt = (n : ℤ).bmod (2 ^ 32) := by
    rw [← Int32.toInt_toBitVec, UInt32.toBitVec_toInt32, BitVec.toInt_eq_toNat_bmod]
    change (((UInt32.ofNat n).toNat : ℤ)).bmod _ = _
    rw [UInt32.toNat_ofNat', Nat.mod_eq_of_lt (by omega)]
  rw [smallIntValue_new, hint, Int.bmod_bmod_of_dvd (by decide), Int.bmod_def]
  split_ifs <;> omega

end Ch32fun
