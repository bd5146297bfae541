import RiscvRom.Proofs.Selection

/-! Decoding a word and packing it again.

A layout that is packed with the fields of a word gives the word, as its fields touch each other
and together are all 32 bits. A row that accepts a word has the word's selecting bits, so what is
decoded always packs to the word it came from. In the other direction every packed word is decoded,
if not always by the row that packed it. -/

namespace RiscvRom

namespace Word

/-! ## Layouts packed with the fields of a word -/

section
variable (w : Word) {opcode funct3 funct7 : BitVec 8}
  (hopcode : opcode.setWidth 7 = w.extractLsb' 0 7)
  (hfunct3 : funct3.setWidth 3 = w.extractLsb' 12 3)
include hopcode

include hfunct3 in
theorem packR_self (hfunct7 : funct7.setWidth 7 = w.extractLsb' 25 7) :
    packR opcode funct3 funct7 (rd w) (rs1 w) (rs2 w) = w := by
  rw [packR, hopcode, hfunct3, hfunct7, rd, rs1, rs2]
  rw [field_join w 20 5 7, field_join w 15 5 12, field_join w 12 3 17, field_join w 7 5 20,
    field_join w 0 7 25, field_all]

include hfunct3 in
theorem packI_self {imm : Word} (himm : imm.extractLsb' 0 12 = w.extractLsb' 20 12) :
    packI opcode funct3 (rd w) (rs1 w) imm = w := by
  rw [packI, hopcode, hfunct3, himm, rd, rs1]
  rw [field_join w 15 5 12, field_join w 12 3 17, field_join w 7 5 20, field_join w 0 7 25,
    field_all]

include hfunct3 in
theorem packS_self : packS opcode funct3 (rs1 w) (rs2 w) (immS w) = w := by
  have hhigh : (immS w).extractLsb' 5 7 = w.extractLsb' 25 7 := by
    simp [immS, BitVec.extractLsb'_setWidth_of_le, BitVec.extractLsb'_or]
  have hlow : (immS w).extractLsb' 0 5 = w.extractLsb' 7 5 := by
    simp [immS, BitVec.extractLsb'_setWidth_of_le, BitVec.extractLsb'_or]
  rw [packS, hopcode, hfunct3, hhigh, hlow, rs1, rs2]
  rw [field_join w 20 5 7, field_join w 15 5 12, field_join w 12 3 17, field_join w 7 5 20,
    field_join w 0 7 25, field_all]

include hfunct3 in
theorem packB_self : packB opcode funct3 (rs1 w) (rs2 w) (immB w) = w := by
  have hsign : (immB w).extractLsb' 12 1 = w.extractLsb' 31 1 := by
    simp [immB, BitVec.extractLsb'_setWidth_of_le, BitVec.extractLsb'_or]
  have hhigh : (immB w).extractLsb' 5 6 = w.extractLsb' 25 6 := by
    simp [immB, BitVec.extractLsb'_setWidth_of_le, BitVec.extractLsb'_or]
  have hlow : (immB w).extractLsb' 1 4 = w.extractLsb' 8 4 := by
    simp [immB, BitVec.extractLsb'_setWidth_of_le, BitVec.extractLsb'_or]
  have hnext : (immB w).extractLsb' 11 1 = w.extractLsb' 7 1 := by
    simp [immB, BitVec.extractLsb'_setWidth_of_le, BitVec.extractLsb'_or]
  rw [packB, hopcode, hfunct3, hsign, hhigh, hlow, hnext, rs1, rs2]
  rw [field_join w 25 6 1, field_join w 20 5 7, field_join w 15 5 12, field_join w 12 3 17,
    field_join w 8 4 20, field_join w 7 1 24, field_join w 0 7 25, field_all]

theorem packU_self : packU opcode (rd w) (immU w) = w := by
  have himm : (immU w).extractLsb' 0 20 = w.extractLsb' 12 20 := by
    simp [immU, BitVec.extractLsb'_setWidth_of_le]
  rw [packU, hopcode, himm, rd]
  rw [field_join w 7 5 20, field_join w 0 7 25, field_all]

theorem packJ_self : packJ opcode (rd w) (immJ w) = w := by
  have hsign : (immJ w).extractLsb' 20 1 = w.extractLsb' 31 1 := by
    simp [immJ, BitVec.extractLsb'_setWidth_of_le, BitVec.extractLsb'_or]
  have hlow : (immJ w).extractLsb' 1 10 = w.extractLsb' 21 10 := by
    simp [immJ, BitVec.extractLsb'_setWidth_of_le, BitVec.extractLsb'_or]
  have hnext : (immJ w).extractLsb' 11 1 = w.extractLsb' 20 1 := by
    simp [immJ, BitVec.extractLsb'_setWidth_of_le, BitVec.extractLsb'_or]
  have hhigh : (immJ w).extractLsb' 12 8 = w.extractLsb' 12 8 := by
    simp [immJ, BitVec.extractLsb'_setWidth_of_le, BitVec.extractLsb'_or]
  rw [packJ, hopcode, hsign, hlow, hnext, hhigh, rd]
  rw [field_join w 21 10 1, field_join w 20 1 11, field_join w 12 8 12, field_join w 7 5 20,
    field_join w 0 7 25, field_all]

end

end Word

namespace Encoding

open Word

/-! ## Rows packed with the fields they read -/

theorem selector_eq_zero {m : Mnemonic} (hl : m.encoding.layout = .i) (h : m ≠ .srai) :
    m.encoding.selector = 0 := by
  cases m <;> first | rfl | exact absurd rfl h | cases hl

/-- The bit that makes a right shift arithmetic, in the word and in the selector. -/
theorem bit30_of_accepts_srai {w : Word} (h : Mnemonic.srai.encoding.accepts w = true) :
    w[30] = true := by
  have halt := alternate_of_accepts h (by decide)
  rw [and_alternate (funct7Of w)] at halt
  cases hw : w[30] with
  | true => rfl
  | false =>
    simp [funct7Of, hw] at halt
    exact absurd halt (by decide)

/-- Setting the bits of the selector restores what reading the amount left out. -/
theorem shiftAmount_or (w selector : Word) :
    (shiftAmount w selector ||| selector).extractLsb' 0 12 =
      w.extractLsb' 20 12 ||| selector.extractLsb' 0 12 := by
  ext i hi
  have h32 : i < 32 := by omega
  cases hs : selector[i] <;> simp [shiftAmount, hi, h32, hs]

theorem imm_fieldsOf_i {e : Encoding} (hl : e.layout = .i) (w : Word) :
    (e.fieldsOf w).imm = if e.mnemonic.isShift then shiftAmount w e.selector else immI w := by
  simp [fieldsOf, hl]

theorem immediate_field {m : Mnemonic} {w : Word} (hl : m.encoding.layout = .i)
    (h : m.encoding.accepts w = true) :
    ((m.encoding.fieldsOf w).imm ||| m.encoding.selector).extractLsb' 0 12 =
      w.extractLsb' 20 12 := by
  rw [imm_fieldsOf_i hl, Mnemonic.encoding_mnemonic]
  by_cases hm : m = .srai
  · subst hm
    have hbit := bit30_of_accepts_srai h
    rw [show Mnemonic.srai.isShift = true from rfl, if_pos rfl, shiftAmount_or]
    ext i hi
    have hsel : (Mnemonic.srai.encoding.selector.extractLsb' 0 12) = BitVec.twoPow 12 10 := by
      decide
    -- the only selecting bit is bit 10, which is bit 30 of the word
    by_cases h10 : i = 10
    · subst h10
      simp [hsel, hbit]
    · simp [hsel, BitVec.getElem_twoPow, h10]
  · rw [selector_eq_zero hl hm]
    cases hshift : m.isShift with
    | true =>
      rw [if_pos rfl, shiftAmount_or]
      simp
    | false => simp [immI]

theorem encode_fieldsOf {m : Mnemonic} {w : Word} (h : m.encoding.accepts w = true) :
    m.encoding.encode (m.encoding.fieldsOf w) = w := by
  have hopcode : m.encoding.opcode.setWidth 7 = w.extractLsb' 0 7 := by
    rw [opcode_of_accepts h]
    exact setWidth_setWidth_extractLsb' w 0 7 (by decide)
  have hfunct3 : m.encoding.readsFunct3 = true →
      (m.encoding.funct3.getD 0).setWidth 3 = w.extractLsb' 12 3 := by
    intro hr
    rw [funct3_of_accepts h hr]
    exact setWidth_setWidth_extractLsb' w 12 3 (by decide)
  have himm := fun hl => immediate_field hl h
  unfold readsFunct3 at hfunct3
  unfold encode fieldsOf at *
  cases hl : m.encoding.layout with
  | r =>
    have hfunct7 : (m.encoding.funct7.getD 0).setWidth 7 = w.extractLsb' 25 7 := by
      simp only [accepts, hl, Bool.and_eq_true, beq_iff_eq] at h
      rw [h.2.2]
      exact setWidth_setWidth_extractLsb' w 25 7 (by decide)
    exact packR_self w hopcode (hfunct3 (by rw [hl])) hfunct7
  | i => exact packI_self w hopcode (hfunct3 (by rw [hl])) (by simpa only [hl] using himm hl)
  | s => exact packS_self w hopcode (hfunct3 (by rw [hl]))
  | b => exact packB_self w hopcode (hfunct3 (by rw [hl]))
  | u => exact packU_self w hopcode
  | j => exact packJ_self w hopcode
  | fixed word => simp [accepts, hl] at h

/-- A logical right shift by an amount with the alternate bit is the arithmetic one. -/
theorem encode_srli_eq_srai {f : Fields} (h : f.imm.getLsbD 10 = true) :
    Mnemonic.srli.encoding.encode f = Mnemonic.srai.encoding.encode f := by
  have himm : (f.imm ||| Mnemonic.srai.encoding.selector).extractLsb' 0 12 =
      f.imm.extractLsb' 0 12 := by
    have hsel : Mnemonic.srai.encoding.selector = BitVec.twoPow 32 10 := by decide
    ext i hi
    by_cases h10 : i = 10
    · subst h10
      simp [hsel, h]
    · have h32 : i < 32 := by omega
      simp [hsel, BitVec.getElem_twoPow, h10, h32]
  show packI _ _ f.rd f.rs1 (f.imm ||| Mnemonic.srli.encoding.selector) =
    packI _ _ f.rd f.rs1 (f.imm ||| Mnemonic.srai.encoding.selector)
  rw [selector_eq_zero rfl (by decide), packI, packI, himm]
  simp [Mnemonic.encoding]

/-- The row under which the word of an instruction is read back. -/
def readBack (m : Mnemonic) (f : Fields) : Mnemonic :=
  if m = .srli ∧ f.imm.getLsbD 10 = true then .srai else m

theorem accepts_readBack {m : Mnemonic} (hm : m ≠ .fence) (f : Fields) :
    (readBack m f).encoding.accepts (m.encoding.encode f) = true := by
  unfold readBack
  split
  · rename_i h
    obtain ⟨rfl, hbit⟩ := h
    rw [encode_srli_eq_srai hbit]
    exact accepts_encode (by decide) f (by simp)
  · rename_i h
    refine accepts_encode hm f fun hs => ?_
    simpa [hs] using h

end Encoding

namespace Decoded

/-! ## Decoding -/

theorem ofWord?_eq_some_iff {w : Word} {d : Decoded} :
    ofWord? w = some d ↔
      d.encoding ∈ Encoding.table ∧ d.encoding.accepts w = true ∧
        d.fields = d.encoding.fieldsOf w := by
  simp only [ofWord?, Option.map_eq_some_iff, Encoding.ofWord?_eq_some_iff]
  constructor
  · rintro ⟨e, ⟨hmem, hacc⟩, rfl⟩
    exact ⟨hmem, hacc, rfl⟩
  · rintro ⟨hmem, hacc, hf⟩
    exact ⟨d.encoding, ⟨hmem, hacc⟩, by rw [← hf]⟩

theorem word_of_ofWord? {w : Word} {d : Decoded} (h : ofWord? w = some d) : d.word = w := by
  obtain ⟨hmem, hacc, hf⟩ := ofWord?_eq_some_iff.1 h
  have hrow := Encoding.mem_table_iff.1 hmem
  rw [hrow] at hacc
  rw [word, hf, hrow]
  exact Encoding.encode_fieldsOf hacc

theorem ofWord?_encode {m : Mnemonic} (hm : m ≠ .fence) (f : Fields) :
    ofWord? (m.encoding.encode f) =
      some ⟨(Encoding.readBack m f).encoding,
        (Encoding.readBack m f).encoding.fieldsOf (m.encoding.encode f)⟩ :=
  ofWord?_eq_some_iff.2 ⟨Encoding.mem_table _, Encoding.accepts_readBack hm f, rfl⟩

theorem ofWord?_encode_self {m : Mnemonic} (hm : m ≠ .fence) (hs : m ≠ .srli) (f : Fields) :
    ofWord? (m.encoding.encode f) =
      some ⟨m.encoding, m.encoding.fieldsOf (m.encoding.encode f)⟩ := by
  have h := ofWord?_encode hm f
  rwa [Encoding.readBack, if_neg fun hb => hs hb.1] at h

/-- **Packing undoes decoding**, bit for bit, and the words that decode are exactly those that some
row with a layout can pack. -/
theorem decodes_exactly_encoded (w : Word) :
    (∀ d, ofWord? w = some d → d.encoding.encode d.fields = w) ∧
    ((ofWord? w).isSome = true ↔
      ∃ e ∈ Encoding.table, (∀ word, e.layout ≠ .fixed word) ∧ ∃ f : Fields, w = e.encode f) := by
  refine ⟨fun d h => word_of_ofWord? h, ?_⟩
  constructor
  · intro h
    obtain ⟨d, hd⟩ := Option.isSome_iff_exists.1 h
    obtain ⟨hmem, hacc, -⟩ := ofWord?_eq_some_iff.1 hd
    refine ⟨d.encoding, hmem, ?_, d.fields, (word_of_ofWord? hd).symm⟩
    intro word hl
    simp [Encoding.accepts, hl] at hacc
  · rintro ⟨e, hmem, hl, f, rfl⟩
    have hm : e.mnemonic ≠ .fence := by
      intro hf
      rw [Encoding.mem_table_iff.1 hmem, hf] at hl
      exact hl nopWord rfl
    rw [Encoding.mem_table_iff.1 hmem, ofWord?_encode hm f]
    rfl

/-- `srai x1, x2, 35`, whose amount overlaps the selecting bits. -/
theorem decodes_exactly_encoded_srai :
    ∃ d, ofWord? 0x42315093 = some d ∧ d.encoding.mnemonic = .srai ∧ d.fields.imm = 35 ∧
      d.encoding.encode d.fields = 0x42315093 := by
  have h : ofWord? 0x42315093 =
      some ⟨Mnemonic.srai.encoding, ⟨⟨1⟩, ⟨2⟩, .zero, 35⟩⟩ := by decide
  exact ⟨_, h, rfl, rfl, (decodes_exactly_encoded 0x42315093).1 _ h⟩

end Decoded
end RiscvRom
