import Mathlib.Data.Nat.Bitwise
import OsWork.Verified.ByteWords

/-!
# Bits in arrays of bytes

Bit `i` of an array of bytes is bit `i % 8` of byte `i / 8`.  It is tested, set and cleared with
a mask.

## Main results

* `bitAt_setAt`, `bitAt_clearAt` — the bits after a store.
-/

namespace OsWork.Verified.ByteBits

open OsWork.Verified.ByteWords

/-- `1 << i` -/
def mask (i : Nat) : UInt8 := UInt8.ofNat (1 <<< i)

def bitAt (b : Bytes) (i : Nat) : Bool := b (i / 8) &&& mask (i % 8) != 0

def setAt (b : Bytes) (i : Nat) : Bytes :=
  Function.update b (i / 8) (b (i / 8) ||| mask (i % 8))

def clearAt (b : Bytes) (i : Nat) : Bytes :=
  Function.update b (i / 8) (b (i / 8) &&& ~~~mask (i % 8))

variable {b : Bytes} {i j : Nat} {x : UInt8}

theorem getLsbD_mask (hj : j < 8) :
    (mask i).toBitVec.getLsbD j = decide (i = j) := by
  have hvec : (mask i).toBitVec = BitVec.ofNat 8 (1 <<< i) := rfl
  rw [hvec, BitVec.getLsbD_ofNat, Nat.one_shiftLeft, Nat.testBit_two_pow]
  simp [hj]

/-- A byte and a mask have a bit in common. -/
theorem and_mask (hi : i < 8) : (x &&& mask i != 0) = x.toBitVec.getLsbD i := by
  have hand : ∀ j, j < 8 → (x &&& mask i).toBitVec.getLsbD j =
      (x.toBitVec.getLsbD j && decide (i = j)) := by
    intro j hj
    rw [UInt8.toBitVec_and, BitVec.getLsbD_and, getLsbD_mask hj]
  by_cases hbit : x.toBitVec.getLsbD i = true
  · rw [hbit, bne_iff_ne]
    intro hzero
    have hself := hand i hi
    rw [hzero, hbit, decide_eq_true rfl] at hself
    cases i <;> simp at hself
  · have hzero : x &&& mask i = 0 := by
      apply UInt8.toBitVec_inj.mp
      apply BitVec.eq_of_getLsbD_eq
      intro j hj
      rw [hand j hj]
      by_cases hij : i = j
      · rw [← hij, Bool.eq_false_iff.mpr hbit]
        simp
      · rw [decide_eq_false hij, Bool.and_false]
        simp
    rw [hzero, Bool.eq_false_iff.mpr hbit]
    rfl

theorem bitAt_eq : bitAt b i = (b (i / 8)).toBitVec.getLsbD (i % 8) :=
  and_mask (Nat.mod_lt _ (by decide))

theorem bitAt_setAt : bitAt (setAt b i) j = (decide (i = j) || bitAt b j) := by
  rw [bitAt_eq, bitAt_eq]
  unfold setAt
  by_cases hbyte : j / 8 = i / 8
  · rw [hbyte, Function.update_self, UInt8.toBitVec_or, BitVec.getLsbD_or,
      getLsbD_mask (Nat.mod_lt _ (by decide)), Bool.or_comm]
    congr 1
    apply decide_eq_decide.mpr
    omega
  · rw [Function.update_of_ne hbyte, decide_eq_false (by rintro rfl; exact hbyte rfl),
      Bool.false_or]

theorem bitAt_clearAt : bitAt (clearAt b i) j = (!decide (i = j) && bitAt b j) := by
  rw [bitAt_eq, bitAt_eq]
  unfold clearAt
  have hj : j % 8 < 8 := Nat.mod_lt _ (by decide)
  by_cases hbyte : j / 8 = i / 8
  · rw [hbyte, Function.update_self, UInt8.toBitVec_and, BitVec.getLsbD_and, UInt8.toBitVec_not,
      BitVec.getLsbD_not, getLsbD_mask hj, decide_eq_true hj,
      Bool.true_and, Bool.and_comm]
    congr 2
    apply decide_eq_decide.mpr
    omega
  · rw [Function.update_of_ne hbyte, decide_eq_false (by rintro rfl; exact hbyte rfl),
      Bool.not_false, Bool.true_and]

end OsWork.Verified.ByteBits
