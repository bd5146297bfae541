import RiscvRom.Proofs.Field

/-! Which row of the instruction table a word belongs to.

A row looks at the opcode, at `funct3` where its layout has one, and at the alternate bit where that
bit tells two rows apart. Any two rows differ in something that both of them look at, so at most one
accepts a word, and the first one found is the only one. A word that a row has packed has the
selecting bits of that row, but for one case: the amount of `srli` may set the alternate bit. -/

namespace RiscvRom.Encoding

open Word

/-! ## What accepting a word says about it -/

def readsFunct3 (e : Encoding) : Bool :=
  match e.layout with
  | .r | .i | .s | .b => true
  | .u | .j | .fixed _ => false

/-- The rows for which the alternate bit matters. -/
def readsAlternate (e : Encoding) : Bool :=
  e.layout == .r || (e.layout == .i && e.mnemonic.isShift && e.mnemonic != .slli)

theorem opcode_of_accepts {e : Encoding} {w : Word} (h : e.accepts w = true) :
    e.opcode = opcodeOf w := by
  simp only [accepts, Bool.and_eq_true, beq_iff_eq] at h
  exact h.1

theorem funct3_of_accepts {e : Encoding} {w : Word} (h : e.accepts w = true)
    (hr : e.readsFunct3 = true) : e.funct3 = some (funct3Of w) := by
  unfold accepts at h
  unfold readsFunct3 at hr
  cases hl : e.layout <;> simp_all

theorem alternate_of_accepts {e : Encoding} {w : Word} (h : e.accepts w = true)
    (hr : e.readsAlternate = true) :
    e.funct7.getD 0 &&& alternate = funct7Of w &&& alternate := by
  unfold accepts at h
  unfold readsAlternate at hr
  cases hl : e.layout <;> simp_all [acceptsShift]

/-! ## At most one row accepts a word -/

/-- The rows differ in something that both of them look at. -/
def apart (e e' : Encoding) : Bool :=
  e.opcode != e'.opcode ||
  (e.readsFunct3 && e'.readsFunct3 && e.funct3 != e'.funct3) ||
  (e.readsAlternate && e'.readsAlternate &&
    (e.funct7.getD 0 &&& alternate) != (e'.funct7.getD 0 &&& alternate))

theorem not_accepts_of_apart {e e' : Encoding} {w : Word} (ha : apart e e' = true)
    (h : e.accepts w = true) : e'.accepts w = false := by
  rw [Bool.eq_false_iff]
  intro h'
  have hopcode : e.opcode = e'.opcode := (opcode_of_accepts h).trans (opcode_of_accepts h').symm
  simp only [apart, hopcode, bne_self_eq_false, Bool.false_or, Bool.or_eq_true,
    Bool.and_eq_true, bne_iff_ne, ne_eq] at ha
  rcases ha with ⟨⟨h3, h3'⟩, hne⟩ | ⟨⟨h7, h7'⟩, hne⟩
  · exact hne ((funct3_of_accepts h h3).trans (funct3_of_accepts h' h3').symm)
  · exact hne ((alternate_of_accepts h h7).trans (alternate_of_accepts h' h7').symm)

theorem apart_of_ne {m m' : Mnemonic} (h : m ≠ m') :
    apart m.encoding m'.encoding = true := by
  have key : ∀ m ∈ Mnemonic.all, ∀ m' ∈ Mnemonic.all, m ≠ m' →
      apart m.encoding m'.encoding = true := by decide +kernel
  exact key m m.mem_all m' m'.mem_all h

theorem mem_table (m : Mnemonic) : m.encoding ∈ table := by
  rw [mem_table_iff, Mnemonic.encoding_mnemonic]

/-- The row of a word is the one that accepts it, wherever it stands in the table. -/
theorem ofWord?_eq_some_iff {w : Word} {e : Encoding} :
    ofWord? w = some e ↔ e ∈ table ∧ e.accepts w = true := by
  constructor
  · intro h
    exact ⟨mem_table_of_ofWord? h, accepts_of_ofWord? h⟩
  · rintro ⟨hmem, hacc⟩
    obtain ⟨e', h'⟩ : ∃ e', ofWord? w = some e' :=
      Option.isSome_iff_exists.1 (List.find?_isSome.2 ⟨e, hmem, hacc⟩)
    have hmem' := mem_table_of_ofWord? h'
    have hacc' := accepts_of_ofWord? h'
    by_cases hm : e'.mnemonic = e.mnemonic
    · rw [h', mem_table_iff.1 hmem', hm, ← mem_table_iff.1 hmem]
    · have hne := not_accepts_of_apart (apart_of_ne hm) (mem_table_iff.1 hmem' ▸ hacc')
      rw [← mem_table_iff.1 hmem, hacc] at hne
      exact absurd hne (by decide)

/-! ## The selecting bits of a packed word -/

theorem opcodeOf_encode {e : Encoding} (h : ∀ word, e.layout ≠ .fixed word) (f : Fields) :
    opcodeOf (e.encode f) = (e.opcode.setWidth 7).setWidth 8 := by
  unfold opcodeOf encode
  cases hl : e.layout with
  | fixed word => exact absurd hl (h word)
  | r => simp [packR, BitVec.extractLsb'_or]
  | i => simp [packI, BitVec.extractLsb'_or]
  | s => simp [packS, BitVec.extractLsb'_or]
  | b => simp [packB, BitVec.extractLsb'_or]
  | u => simp [packU, BitVec.extractLsb'_or]
  | j => simp [packJ, BitVec.extractLsb'_or]

theorem funct3Of_encode {e : Encoding} (h : e.readsFunct3 = true) (f : Fields) :
    funct3Of (e.encode f) = ((e.funct3.getD 0).setWidth 3).setWidth 8 := by
  unfold readsFunct3 at h
  unfold funct3Of encode
  cases hl : e.layout with
  | u | j | fixed => simp [hl] at h
  | r => simp [packR, BitVec.extractLsb'_or]
  | i => simp [packI, BitVec.extractLsb'_or]
  | s => simp [packS, BitVec.extractLsb'_or]
  | b => simp [packB, BitVec.extractLsb'_or]

theorem funct7Of_encode_r {e : Encoding} (h : e.layout = .r) (f : Fields) :
    funct7Of (e.encode f) = ((e.funct7.getD 0).setWidth 7).setWidth 8 := by
  simp [funct7Of, encode, h, packR, BitVec.extractLsb'_or]

/-- In an I word the place of `funct7` is taken by the upper immediate bits. -/
theorem funct7Of_encode_i {e : Encoding} (h : e.layout = .i) (f : Fields) :
    funct7Of (e.encode f) = ((f.imm ||| e.selector).extractLsb' 5 7).setWidth 8 := by
  simp [funct7Of, encode, h, packI, BitVec.extractLsb'_or,
    BitVec.extractLsb'_extractLsb'_of_le]

theorem and_alternate (x : BitVec 8) :
    x &&& alternate = if x.getLsbD 5 then alternate else 0 := by
  revert x
  decide

theorem alternateOf_encode_i {e : Encoding} (h : e.layout = .i) (f : Fields) :
    funct7Of (e.encode f) &&& alternate =
      if (f.imm ||| e.selector).getLsbD 10 then alternate else 0 := by
  rw [and_alternate, funct7Of_encode_i h]
  simp

/-! ## Rows accept what they pack -/

theorem opcode_fits (m : Mnemonic) :
    (m.encoding.opcode.setWidth 7).setWidth 8 = m.encoding.opcode := by
  cases m <;> rfl

theorem funct3_fits (m : Mnemonic) (h : m.encoding.readsFunct3 = true) :
    m.encoding.funct3 = some (((m.encoding.funct3.getD 0).setWidth 3).setWidth 8) := by
  cases m <;> first | rfl | cases h

theorem funct7_fits (m : Mnemonic) (h : m.encoding.layout = .r) :
    m.encoding.funct7 = some (((m.encoding.funct7.getD 0).setWidth 7).setWidth 8) := by
  cases m <;> first | rfl | cases h

theorem layout_ne_fixed {m : Mnemonic} (h : m ≠ .fence) (word : Word) :
    m.encoding.layout ≠ .fixed word := by
  cases m <;> first | exact absurd rfl h | exact Layout.noConfusion

/-- The bit that the amount of a logical right shift must leave alone. -/
theorem acceptsShift_encode {m : Mnemonic} (hl : m.encoding.layout = .i)
    (hm : m.isShift = true) (f : Fields) (h : m = .srli → f.imm.getLsbD 10 = false) :
    m.encoding.acceptsShift (m.encoding.encode f) = true := by
  rw [acceptsShift, alternateOf_encode_i hl]
  cases m with
  | slli => rfl
  | srli =>
    rw [BitVec.getLsbD_or, h rfl]
    rfl
  | srai => simp [selector, Mnemonic.encoding, alternate]
  | _ => cases hm

theorem accepts_encode {m : Mnemonic} (hm : m ≠ .fence) (f : Fields)
    (hs : m = .srli → f.imm.getLsbD 10 = false) :
    m.encoding.accepts (m.encoding.encode f) = true := by
  have hopcode := opcodeOf_encode (layout_ne_fixed hm) f
  have hfunct3 : m.encoding.readsFunct3 = true →
      (m.encoding.funct3 == some (funct3Of (m.encoding.encode f))) = true := by
    intro h
    rw [funct3Of_encode h, ← funct3_fits m h]
    exact beq_self_eq_true _
  rw [accepts, hopcode, opcode_fits, beq_self_eq_true, Bool.true_and]
  unfold readsFunct3 at hfunct3
  cases hl : m.encoding.layout with
  | fixed word => exact absurd hl (layout_ne_fixed hm word)
  | u | j => rfl
  | s | b => exact hfunct3 (by rw [hl])
  | r =>
    have hfunct7 : m.encoding.funct7 = some (funct7Of (m.encoding.encode f)) := by
      rw [funct7Of_encode_r hl]
      exact funct7_fits m hl
    simp only [Bool.and_eq_true]
    exact ⟨hfunct3 (by rw [hl]), by rw [← hfunct7]; exact beq_self_eq_true _⟩
  | i =>
    simp only [Bool.and_eq_true, Bool.or_eq_true, Bool.not_eq_true', Mnemonic.encoding_mnemonic]
    refine ⟨hfunct3 (by rw [hl]), ?_⟩
    cases hshift : m.isShift with
    | false => exact Or.inl rfl
    | true => exact Or.inr (acceptsShift_encode hl hshift f hs)

end RiscvRom.Encoding
