import Mathlib.Data.Nat.Bitwise
import Mathlib.Tactic

/-!
# Bit arrays

`libs/common/bit_array.go`: bits packed into 64-bit words. A `*BitArray` of size zero is `nil`, so the values kept
by other records are `Option BitArray`.
-/

namespace Demars

open List

structure BitArray where
  bits : Nat
  elems : List UInt64
deriving DecidableEq

namespace BitArray

def newBitArray (bits : Nat) : Option BitArray :=
  if bits = 0 then none else some { bits, elems := List.replicate ((bits + 63) / 64) 0 }

def mask (i : Nat) : UInt64 := 1 <<< UInt64.ofNat (i % 64)

def getIndex (bA : BitArray) (i : Nat) : Bool :=
  if i ≥ bA.bits then false else decide (0 < bA.elems.getD (i / 64) 0 &&& mask i)

def setIndex (bA : BitArray) (i : Nat) (v : Bool) : BitArray :=
  if i ≥ bA.bits then bA
  else if v then { bA with elems := bA.elems.set (i / 64) (bA.elems.getD (i / 64) 0 ||| mask i) }
  else { bA with elems := bA.elems.set (i / 64) (bA.elems.getD (i / 64) 0 &&& ~~~ mask i) }

/-- The words cover the bits. -/
def Wf (bA : BitArray) : Prop := bA.elems.length = (bA.bits + 63) / 64

variable {bA : BitArray}

theorem wf_setIndex (h : bA.Wf) (i : Nat) (v : Bool) : (bA.setIndex i v).Wf := by
  unfold setIndex
  split_ifs <;> simpa [Wf] using h

@[simp] theorem bits_setIndex (bA : BitArray) (i : Nat) (v : Bool) : (bA.setIndex i v).bits = bA.bits := by
  unfold setIndex
  split_ifs <;> rfl

/-! ## Bits of a word -/

theorem toNat_mask (i : Nat) : (mask i).toNat = 2 ^ (i % 64) := by
  have hlt : i % 64 < 64 := Nat.mod_lt _ (by omega)
  have hpow : 2 ^ (i % 64) < 2 ^ 64 := Nat.pow_lt_pow_right (by omega) hlt
  simpa [mask, UInt64.toNat_shiftLeft, Nat.shiftLeft_eq] using hpow

theorem testBit_mask (i k : Nat) : (mask i).toNat.testBit k = decide (i % 64 = k) := by
  rw [toNat_mask, Nat.testBit_two_pow]

theorem pos_and_mask (x : UInt64) (i : Nat) : decide (0 < x &&& mask i) = x.toNat.testBit (i % 64) := by
  have h : (0 < x &&& mask i) ↔ 0 < x.toNat &&& 2 ^ (i % 64) := by
    rw [UInt64.lt_iff_toNat_lt, UInt64.toNat_and, toNat_mask, UInt64.toNat_zero]
  rw [Nat.and_two_pow] at h
  simp only [h]
  cases x.toNat.testBit (i % 64) <;> simp

theorem getIndex_of_lt {i : Nat} (h : i < bA.bits) :
    bA.getIndex i = (bA.elems.getD (i / 64) 0).toNat.testBit (i % 64) := by
  rw [getIndex, if_neg (by omega), pos_and_mask]

/-! ## Reading and writing -/

theorem testBit_not_mask (x : UInt64) (i k : Nat) :
    (x &&& ~~~ mask i).toNat.testBit k = (x.toNat.testBit k && !decide (i % 64 = k)) := by
  have hb : ∀ y : UInt64, y.toNat.testBit k = y.toBitVec.getLsbD k := fun _ => rfl
  rw [← testBit_mask i k, hb, hb, hb, UInt64.toBitVec_and, UInt64.toBitVec_not, BitVec.getLsbD_and, BitVec.getLsbD_not]
  by_cases hk : k < 64
  · simp only [hk, decide_true, Bool.true_and]
  · simp only [BitVec.getLsbD_of_ge x.toBitVec k (by omega), Bool.false_and]

theorem getIndex_setIndex (h : bA.Wf) {i : Nat} (hi : i < bA.bits) (v : Bool) (j : Nat) :
    (bA.setIndex i v).getIndex j = if j = i then v else bA.getIndex j := by
  by_cases hj : j < bA.bits
  · have hi' : i / 64 < bA.elems.length := by rw [h]; omega
    rw [getIndex_of_lt (by simpa using hj), getIndex_of_lt hj, setIndex, if_neg (by omega)]
    by_cases hword : j / 64 = i / 64
    · -- the same word: the bit of `j` in it is the one of `mask i` exactly when `j = i`
      have hji : (i % 64 = j % 64) ↔ j = i := by omega
      cases v <;> simp only [if_true, Bool.false_eq_true, if_false, hword] <;>
        rw [getD_eq_getElem?_getD, getElem?_set_self hi', Option.getD_some]
      · rw [testBit_not_mask]
        by_cases hjeq : j = i <;> simp [hji, hjeq]
      · rw [UInt64.toNat_or, Nat.testBit_or, testBit_mask]
        by_cases hjeq : j = i <;> simp [hji, hjeq]
    · have hne : j ≠ i := fun e => hword (by rw [e])
      rw [if_neg hne]
      cases v <;> simp [getD_eq_getElem?_getD, getElem?_set_ne (Ne.symm hword)]
  · have hne : j ≠ i := by omega
    simp [getIndex, hne, show bA.bits ≤ j by omega]

/-- `GetIndex` of an array that may be `nil`. -/
def get (bA : Option BitArray) (i : Nat) : Bool := bA.any (·.getIndex i)

/-- `SetIndex` of an array that may be `nil`. -/
def set (bA : Option BitArray) (i : Nat) (v : Bool) : Option BitArray := bA.map (·.setIndex i v)

theorem wf_newBitArray {n : Nat} (h : newBitArray n = some bA) : bA.Wf ∧ bA.bits = n := by
  unfold newBitArray at h
  split_ifs at h
  cases h
  simp [Wf]

@[simp] theorem newBitArray_zero : newBitArray 0 = none := rfl

theorem newBitArray_ne_none {n : Nat} (h : n ≠ 0) : newBitArray n ≠ none := by simp [newBitArray, h]

theorem getIndex_newBitArray {n : Nat} (h : newBitArray n = some bA) (i : Nat) : bA.getIndex i = false := by
  unfold newBitArray at h
  split_ifs at h
  cases h
  unfold getIndex
  split_ifs with hi
  · rfl
  · have hlt : i / 64 < (n + 63) / 64 := by simp at hi; omega
    simp [getD_eq_getElem?_getD, hlt]

end BitArray

end Demars
