import Mathlib
import RiscvRom.Instruction.Decoded

/-! Reading a field of a word back out of it.

A word is a sum of fields, and so every statement about a layout comes down to four facts: a stretch
of bits of one field is a stretch of the value in it, or zero where the stretch lies below the field
or beyond the value; two fields of one word that touch are one field; and the field of all 32 bits
is the word. -/

namespace RiscvRom.Word

@[simp] theorem extractLsb'_field {n : Nat} (x : BitVec n) (k j len : Nat) (hk : k ≤ j)
    (hj : j + len ≤ 32) : (field x k).extractLsb' j len = x.extractLsb' (j - k) len := by
  ext i hi
  rw [BitVec.getElem_extractLsb', BitVec.getElem_extractLsb', getLsbD_field x k _ (by omega)]
  simp [show k ≤ j + i by omega, show j + i - k = j - k + i by omega]

@[simp] theorem extractLsb'_field_below {n : Nat} (x : BitVec n) (k j len : Nat) (hj : j + len ≤ k)
    (hk : k ≤ 32) : (field x k).extractLsb' j len = 0 := by
  ext i hi
  rw [BitVec.getElem_extractLsb', getLsbD_field x k _ (by omega)]
  simp [show ¬ k ≤ j + i by omega]

@[simp] theorem extractLsb'_beyond {n : Nat} (x : BitVec n) (j len : Nat) (h : n ≤ j) :
    x.extractLsb' j len = 0 := by
  ext i hi
  rw [BitVec.getElem_extractLsb', BitVec.getLsbD_of_ge x (j + i) (by omega)]
  simp

/-- Sign extension leaves the bits of the value where they are. -/
@[simp] theorem extractLsb'_signExtend {n : Nat} (x : BitVec n) (j len : Nat) (h : j + len ≤ n)
    (hn : n ≤ 32) : (x.signExtend 32).extractLsb' j len = x.extractLsb' j len := by
  ext i hi
  rw [BitVec.getElem_extractLsb', BitVec.getElem_extractLsb', BitVec.getLsbD_signExtend]
  simp [show j + i < 32 by omega, show j + i < n by omega]

/-- Two neighbouring fields of the same word. -/
theorem field_join (w : Word) (j m n : Nat) :
    field (w.extractLsb' (j + m) n) (j + m) ||| field (w.extractLsb' j m) j =
      field (w.extractLsb' j (m + n)) j := by
  apply BitVec.eq_of_getLsbD_eq
  intro i hi
  simp only [BitVec.getLsbD_or, getLsbD_field _ _ _ hi, BitVec.getLsbD_extractLsb']
  -- bit `i` lies in the upper field, in the lower one, or below both
  by_cases hm : j + m ≤ i
  · have hin : (i - (j + m) < n) = (i - j < m + n) := by rw [eq_iff_iff]; omega
    simp [hm, hin, show j ≤ i by omega, show j + m + (i - (j + m)) = i by omega,
      show j + (i - j) = i by omega, show ¬ i - j < m by omega]
  · by_cases hj : j ≤ i
    · simp [hm, hj, show i - j < m by omega, show i - j < m + n by omega]
    · simp [hm, hj]

theorem field_all (w : Word) : field (w.extractLsb' 0 32) 0 = w := by simp [field]

/-- A selecting byte that was read from a word, back in its field. -/
theorem setWidth_setWidth_extractLsb' (w : Word) (j len : Nat) (h : len ≤ 8) :
    ((w.extractLsb' j len).setWidth 8).setWidth len = w.extractLsb' j len := by
  rw [BitVec.setWidth_setWidth_of_le _ h, BitVec.setWidth_eq]

end RiscvRom.Word
