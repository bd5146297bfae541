import RiscvRom.Proofs.RoundTrip

/-! What decoding gives back of the values that were packed.

A word holds the registers that its layout has and the low bits of the immediate, as many as the
layout has room for. Decoding a packed word gives back the row it was packed under and just these
values, with the sign of the immediate field or without one. Bit 0 of an offset has no place in a
word, and bit 10 of an arithmetic shift amount is taken by the bit that selects the row. -/

namespace RiscvRom

namespace Layout

def hasRd : Layout → Bool
  | .r | .i | .u | .j => true
  | .s | .b | .fixed _ => false

def hasRs1 : Layout → Bool
  | .r | .i | .s | .b => true
  | .u | .j | .fixed _ => false

def hasRs2 : Layout → Bool
  | .r | .s | .b => true
  | .i | .u | .j | .fixed _ => false

end Layout

namespace Word

/-- The low `n` bits of a value, with the highest of them as the sign. -/
def signedLow (v : Word) (n : Nat) : Word := (v.setWidth n).signExtend 32

/-- The value with bit `k` set to zero. -/
def clearBit (v : Word) (k : Nat) : Word := v &&& ~~~BitVec.twoPow 32 k

end Word

namespace Encoding

/-- As much of an immediate as the words of a row hold. -/
def heldImmediate (e : Encoding) (v : Word) : Word :=
  match e.layout with
  | .r => 0
  | .i =>
    match e.mnemonic with
    | .slli | .srli => lowBits v 12
    | .srai => Word.clearBit (lowBits v 12) 10
    | _ => Word.signedLow v 12
  | .s => Word.signedLow v 12
  | .b => Word.signedLow (Word.clearBit v 0) 13
  | .u => lowBits v 20
  | .j => Word.signedLow (Word.clearBit v 0) 21
  | .fixed _ => 0

/-- As much of the operand values as the words of a row hold; registers that the layout does not
have are `x0`. -/
def held (e : Encoding) (f : Fields) : Fields where
  rd := if e.layout.hasRd then f.rd else .zero
  rs1 := if e.layout.hasRs1 then f.rs1 else .zero
  rs2 := if e.layout.hasRs2 then f.rs2 else .zero
  imm := e.heldImmediate f.imm

end Encoding

namespace Word

/-! ## Immediates read from the word they were packed in -/

theorem lowBits_eq (v : Word) {n : Nat} (hn : n ≤ 32) :
    lowBits v n = (v.extractLsb' 0 n).setWidth 32 := by
  rw [lowBits, Nat.min_eq_left hn, BitVec.setWidth_eq_extractLsb' hn]

theorem signedLow_eq (v : Word) {n : Nat} (hn : n ≤ 32) :
    signedLow v n = (v.extractLsb' 0 n).signExtend 32 := by
  rw [signedLow, BitVec.setWidth_eq_extractLsb' hn]

/-- A field from bit 1 on is the value without its lowest bit. -/
theorem setWidth_field_one (v : Word) {n : Nat} (hn : n < 32) :
    (field (v.extractLsb' 1 n) 1).setWidth (n + 1) = (clearBit v 0).setWidth (n + 1) := by
  apply BitVec.eq_of_getLsbD_eq
  intro i hi
  rw [BitVec.getLsbD_setWidth, BitVec.getLsbD_setWidth, getLsbD_field _ _ _ (by omega)]
  -- bit 0 is zero on both sides, and the others are the bits of the value
  cases i with
  | zero => simp [clearBit]
  | succ i => simp [clearBit, show i < n by omega, show i + 1 < 32 by omega, Nat.add_comm 1 i]

theorem immI_packI (opcode funct3 : BitVec 8) (r r1 : Register) (imm : Word) :
    immI (packI opcode funct3 r r1 imm) = signedLow imm 12 := by
  rw [signedLow_eq imm (by decide)]
  simp [immI, packI, BitVec.extractLsb'_or]

theorem shiftAmount_packI (opcode funct3 : BitVec 8) (r r1 : Register) (imm selector : Word) :
    shiftAmount (packI opcode funct3 r r1 imm) selector = lowBits imm 12 &&& ~~~selector := by
  rw [lowBits_eq imm (by decide)]
  simp [shiftAmount, packI, BitVec.extractLsb'_or]

theorem immS_packS (opcode funct3 : BitVec 8) (r1 r2 : Register) (imm : Word) :
    immS (packS opcode funct3 r1 r2 imm) = signedLow imm 12 := by
  have hhigh : (packS opcode funct3 r1 r2 imm).extractLsb' 25 7 = imm.extractLsb' 5 7 := by
    simp [packS, BitVec.extractLsb'_or]
  have hlow : (packS opcode funct3 r1 r2 imm).extractLsb' 7 5 = imm.extractLsb' 0 5 := by
    simp [packS, BitVec.extractLsb'_or]
  rw [immS, hhigh, hlow, field_join imm 0 5 7, signedLow_eq imm (by decide)]
  simp [field]

theorem immB_packB (opcode funct3 : BitVec 8) (r1 r2 : Register) (offset : Word) :
    immB (packB opcode funct3 r1 r2 offset) =
      ((field (offset.extractLsb' 1 12) 1).setWidth 13).signExtend 32 := by
  have hsign : (packB opcode funct3 r1 r2 offset).extractLsb' 31 1 = offset.extractLsb' 12 1 := by
    simp [packB, BitVec.extractLsb'_or]
  have hnext : (packB opcode funct3 r1 r2 offset).extractLsb' 7 1 = offset.extractLsb' 11 1 := by
    simp [packB, BitVec.extractLsb'_or]
  have hhigh : (packB opcode funct3 r1 r2 offset).extractLsb' 25 6 = offset.extractLsb' 5 6 := by
    simp [packB, BitVec.extractLsb'_or]
  have hlow : (packB opcode funct3 r1 r2 offset).extractLsb' 8 4 = offset.extractLsb' 1 4 := by
    simp [packB, BitVec.extractLsb'_or]
  rw [immB, hsign, hnext, hhigh, hlow]
  rw [field_join offset 11 1 1, field_join offset 5 6 2, field_join offset 1 4 8]

theorem immU_packU (opcode : BitVec 8) (r : Register) (imm : Word) :
    immU (packU opcode r imm) = lowBits imm 20 := by
  rw [lowBits_eq imm (by decide)]
  simp [immU, packU, BitVec.extractLsb'_or]

theorem immJ_packJ (opcode : BitVec 8) (r : Register) (offset : Word) :
    immJ (packJ opcode r offset) =
      ((field (offset.extractLsb' 1 20) 1).setWidth 21).signExtend 32 := by
  have hsign : (packJ opcode r offset).extractLsb' 31 1 = offset.extractLsb' 20 1 := by
    simp [packJ, BitVec.extractLsb'_or]
  have hhigh : (packJ opcode r offset).extractLsb' 12 8 = offset.extractLsb' 12 8 := by
    simp [packJ, BitVec.extractLsb'_or]
  have hnext : (packJ opcode r offset).extractLsb' 20 1 = offset.extractLsb' 11 1 := by
    simp [packJ, BitVec.extractLsb'_or]
  have hlow : (packJ opcode r offset).extractLsb' 21 10 = offset.extractLsb' 1 10 := by
    simp [packJ, BitVec.extractLsb'_or]
  rw [immJ, hsign, hhigh, hnext, hlow]
  rw [field_join offset 12 8 1, field_join offset 11 1 9, field_join offset 1 10 10]

end Word

namespace Encoding

open Word

/-! ## Registers read from the word they were packed in -/

theorem rd_encode {e : Encoding} (h : e.layout.hasRd = true) (f : Fields) :
    Word.rd (e.encode f) = f.rd := by
  unfold encode
  cases hl : e.layout with
  | s | b | fixed => rw [hl] at h; cases h
  | r => simp [rd, packR, BitVec.extractLsb'_or]
  | i => simp [rd, packI, BitVec.extractLsb'_or]
  | u => simp [rd, packU, BitVec.extractLsb'_or]
  | j => simp [rd, packJ, BitVec.extractLsb'_or]

theorem rs1_encode {e : Encoding} (h : e.layout.hasRs1 = true) (f : Fields) :
    Word.rs1 (e.encode f) = f.rs1 := by
  unfold encode
  cases hl : e.layout with
  | u | j | fixed => rw [hl] at h; cases h
  | r => simp [rs1, packR, BitVec.extractLsb'_or]
  | i => simp [rs1, packI, BitVec.extractLsb'_or]
  | s => simp [rs1, packS, BitVec.extractLsb'_or]
  | b => simp [rs1, packB, BitVec.extractLsb'_or]

theorem rs2_encode {e : Encoding} (h : e.layout.hasRs2 = true) (f : Fields) :
    Word.rs2 (e.encode f) = f.rs2 := by
  unfold encode
  cases hl : e.layout with
  | i | u | j | fixed => rw [hl] at h; cases h
  | r => simp [rs2, packR, BitVec.extractLsb'_or]
  | s => simp [rs2, packS, BitVec.extractLsb'_or]
  | b => simp [rs2, packB, BitVec.extractLsb'_or]

/-! ## Rows read the fields they packed -/

theorem selector_srai : Mnemonic.srai.encoding.selector = BitVec.twoPow 32 10 := by decide

/-- A bit that is set when packing and left out when reading is a bit that is cleared. -/
theorem lowBits_or_and_not (v : Word) :
    lowBits (v ||| BitVec.twoPow 32 10) 12 &&& ~~~BitVec.twoPow 32 10 =
      clearBit (lowBits v 12) 10 := by
  ext i hi
  by_cases h : 10 = i
  · subst h
    simp [lowBits, clearBit]
  · simp [lowBits, clearBit, BitVec.getElem_twoPow, h]

theorem imm_fieldsOf_encode_i {m : Mnemonic} (hl : m.encoding.layout = .i) (f : Fields) :
    (m.encoding.fieldsOf (m.encoding.encode f)).imm = m.encoding.heldImmediate f.imm := by
  have hword : m.encoding.encode f = packI m.encoding.opcode (m.encoding.funct3.getD 0) f.rd f.rs1
      (f.imm ||| m.encoding.selector) := by
    simp only [encode, hl]
  rw [imm_fieldsOf_i hl, Mnemonic.encoding_mnemonic, hword, shiftAmount_packI, immI_packI]
  -- only the arithmetic shift has a selecting bit in its immediate field
  by_cases hm : m = .srai
  · subst hm
    rw [selector_srai, lowBits_or_and_not]
    rfl
  · have hor : f.imm ||| 0 = f.imm := BitVec.or_zero
    have hand : lowBits f.imm 12 &&& ~~~0 = lowBits f.imm 12 := BitVec.and_allOnes
    rw [selector_eq_zero hl hm, hor, hand]
    cases m <;> first | rfl | exact absurd rfl hm | cases hl

theorem imm_fieldsOf_encode {m : Mnemonic} (hm : m ≠ .fence) (f : Fields) :
    (m.encoding.fieldsOf (m.encoding.encode f)).imm = m.encoding.heldImmediate f.imm := by
  cases hl : m.encoding.layout with
  | fixed word => exact absurd hl (layout_ne_fixed hm word)
  | i => exact imm_fieldsOf_encode_i hl f
  | r => simp only [fieldsOf, heldImmediate, hl]
  | s => simp only [fieldsOf, heldImmediate, encode, hl, immS_packS]
  | b =>
    simp only [fieldsOf, heldImmediate, encode, hl, immB_packB, signedLow]
    rw [setWidth_field_one f.imm (by decide)]
  | u => simp only [fieldsOf, heldImmediate, encode, hl, immU_packU]
  | j =>
    simp only [fieldsOf, heldImmediate, encode, hl, immJ_packJ, signedLow]
    rw [setWidth_field_one f.imm (by decide)]

/-- A row reads the registers that its layout has, and no others. -/
theorem fieldsOf_eq (e : Encoding) (w : Word) :
    e.fieldsOf w =
      { rd := if e.layout.hasRd then Word.rd w else .zero
        rs1 := if e.layout.hasRs1 then Word.rs1 w else .zero
        rs2 := if e.layout.hasRs2 then Word.rs2 w else .zero
        imm := (e.fieldsOf w).imm } := by
  unfold fieldsOf
  cases e.layout <;> rfl

theorem fieldsOf_encode {m : Mnemonic} (hm : m ≠ .fence) (f : Fields) :
    m.encoding.fieldsOf (m.encoding.encode f) = m.encoding.held f := by
  rw [fieldsOf_eq, imm_fieldsOf_encode hm, held]
  congr 1
  · split
    · exact rd_encode ‹_› f
    · rfl
  · split
    · exact rs1_encode ‹_› f
    · rfl
  · split
    · exact rs2_encode ‹_› f
    · rfl

end Encoding

namespace Decoded

/-- **Decoding undoes packing** up to what a word can hold: a packed word is decoded under the row
that packed it, and to the values that were packed, each cut to its field. For `srli` the amount
has to leave the bit alone that makes the shift an arithmetic one. -/
theorem packed_fields_recovered {e : Encoding} (hmem : e ∈ Encoding.table)
    (hlayout : ∀ word, e.layout ≠ .fixed word) (f : Fields)
    (hsrli : e.mnemonic = .srli → f.imm.getLsbD 10 = false) :
    ofWord? (e.encode f) = some ⟨e, e.held f⟩ := by
  have hrow := Encoding.mem_table_iff.1 hmem
  have hm : e.mnemonic ≠ .fence := by
    intro hfence
    rw [hrow, hfence] at hlayout
    exact hlayout nopWord rfl
  refine ofWord?_eq_some_iff.2 ⟨hmem, ?_, ?_⟩
  · have hacc := Encoding.accepts_encode hm f hsrli
    rwa [← hrow] at hacc
  · have hfields := Encoding.fieldsOf_encode hm f
    rw [← hrow] at hfields
    exact hfields.symm

/-- Values that do not fit: a shift amount with all bits but the selecting one, and an odd offset
just below the reach of a jump. -/
theorem packed_fields_recovered_oversized :
    ofWord? (Mnemonic.srli.encoding.encode ⟨⟨1⟩, ⟨2⟩, ⟨3⟩, -1025⟩) =
      some ⟨Mnemonic.srli.encoding, ⟨⟨1⟩, ⟨2⟩, .zero, 0xBFF⟩⟩ ∧
    ofWord? (Mnemonic.jal.encoding.encode ⟨⟨1⟩, ⟨2⟩, ⟨3⟩, -0x100001⟩) =
      some ⟨Mnemonic.jal.encoding, ⟨⟨1⟩, .zero, .zero, 0xFFFFE⟩⟩ := by
  constructor
  · exact packed_fields_recovered (by decide) (by simp [Mnemonic.encoding]) _ (by decide)
  · exact packed_fields_recovered (by decide) (by simp [Mnemonic.encoding]) _ (by decide)

end Decoded
end RiscvRom
