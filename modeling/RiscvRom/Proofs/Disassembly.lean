import RiscvRom.Command.Session
import RiscvRom.Proofs.Identity
import RiscvRom.Proofs.Spelling

/-! Listings that are sources again.

A listing picks the form of the operands by layout and opcode, an instruction is read by the shape
of its mnemonic, and both come to the same operands in the same order. Reading the text of a decoded
word gives back its mnemonic and its fields, which pack to the word. A listing defines no labels, so
that every target in it is read as the distance that it was written as. -/

namespace RiscvRom

namespace Shape

/-- The operands with the values of the fields, as they are written. -/
def texts (naming : Register.Naming) (f : Fields) : Shape → List Text
  | .register => [f.rd.name naming, f.rs1.name naming, f.rs2.name naming]
  | .immediate | .jalr => [f.rd.name naming, f.rs1.name naming, Text.signedDecimal f.imm.toInt]
  | .load => [f.rd.name naming, Decoded.addressed f.imm.toInt (f.rs1.name naming)]
  | .store => [f.rs2.name naming, Decoded.addressed f.imm.toInt (f.rs1.name naming)]
  | .branch => [f.rs1.name naming, f.rs2.name naming, Text.signedDecimal f.imm.toInt]
  | .upper => [f.rd.name naming, "0x".toList ++ Text.hexadecimal f.imm.toNat]
  | .jal => [f.rd.name naming, Text.signedDecimal f.imm.toInt]
  | .fence => []

/-- The operands with the values of the fields, as they are read. -/
def operands (f : Fields) : Shape → Operands
  | .register => .register f.rd f.rs1 f.rs2
  | .immediate => .immediate f.rd f.rs1 f.imm.toInt
  | .jalr => .jalr f.rd f.rs1 f.imm.toInt
  | .load => .load f.rd ⟨f.imm.toInt, f.rs1⟩
  | .store => .store f.rs2 ⟨f.imm.toInt, f.rs1⟩
  | .branch => .branch f.rs1 f.rs2 (Text.signedDecimal f.imm.toInt)
  | .upper => .upper f.rd f.imm.toNat
  | .jal => .jal f.rd (Text.signedDecimal f.imm.toInt)
  | .fence => .fence

/-- The fields that the operands hold; the others are zero. -/
def kept (f : Fields) : Shape → Fields
  | .register => { f with imm := 0 }
  | .immediate | .jalr | .load => { f with rs2 := .zero }
  | .store | .branch => { f with rd := .zero }
  | .upper | .jal => { f with rs1 := .zero, rs2 := .zero }
  | .fence => {}

theorem isSpelled_of_mem_texts {naming : Register.Naming} {f : Fields} {s : Shape} {t : Text}
    (h : t ∈ s.texts naming f) : t.IsSpelled := by
  have hname := Register.isSpelled_name naming
  have himm := Text.isSpelled_signedDecimal f.imm.toInt
  have haddress := Operand.isSpelled_addressed f.imm.toInt naming f.rs1
  have hupper := Text.isSpelled_hexadecimal f.imm.toNat
  cases s <;> simp only [texts, List.mem_cons, List.not_mem_nil, or_false] at h <;> grind

end Shape

namespace Operand

theorem isSigned64_toInt (w : Word) : isSigned64 w.toInt = true := by
  have h := BitVec.toInt_lt (x := w)
  have h' := BitVec.le_toInt w
  simp only [isSigned64, Bool.and_eq_true, decide_eq_true_eq]
  omega

theorem isSigned64_toNat (w : Word) : isSigned64 w.toNat = true := by
  have h := w.isLt
  simp only [isSigned64, Bool.and_eq_true, decide_eq_true_eq]
  omega

theorem immediate_toInt (w : Word) : immediate (Text.signedDecimal w.toInt) = .ok w.toInt := by
  rw [immediate, immediate?_signedDecimal (isSigned64_toInt w)]

theorem immediate_toNat (w : Word) :
    immediate ("0x".toList ++ Text.hexadecimal w.toNat) = .ok (w.toNat : Int) := by
  rw [immediate, immediate?_hexadecimal (isSigned64_toNat w)]

theorem address_toInt (w : Word) (naming : Register.Naming) (r : Register) :
    address (Decoded.addressed w.toInt (r.name naming)) = .ok ⟨w.toInt, r⟩ :=
  address_addressed (isSigned64_toInt w) naming r

end Operand

namespace Instruction

theorem readOperands_texts (m : Mnemonic) (naming : Register.Naming) (f : Fields) :
    readOperands m (m.shape.texts naming f) = .ok (m.shape.operands f) := by
  cases hs : m.shape <;>
    simp only [readOperands, hs, Shape.texts, Shape.operands, Operand.register_name,
      Operand.immediate_toInt, Operand.immediate_toNat, Operand.address_toInt] <;> rfl

/-- Where no target is a label, the fields are found again, whatever the address. -/
theorem fields_operands {symbols : SymbolTable} (hno : ∀ t, symbols.find? t = none) (pc : Nat)
    (s : Shape) (f : Fields) : fields symbols pc (s.operands f) = .ok (s.kept f) := by
  have hdistance : symbols.distance pc (Text.signedDecimal f.imm.toInt) = .ok f.imm.toInt := by
    rw [SymbolTable.distance, hno]
    exact Operand.immediate_toInt f.imm
  have himm : wordOf f.imm.toInt = f.imm := BitVec.ofInt_toInt
  have hupper : wordOf f.imm.toNat = f.imm := by simp [wordOf]
  cases s <;> simp [Shape.operands, fields, Shape.kept, himm, hupper, hdistance, Except.map]

end Instruction

/-! ## The text of a decoded word -/

namespace Decoded

/-- A word that decodes was packed under a mnemonic other than `fence`. -/
theorem exists_of_ofWord? {w : Word} {d : Decoded} (h : ofWord? w = some d) :
    ∃ m : Mnemonic, m ≠ .fence ∧ d = ⟨m.encoding, m.encoding.fieldsOf w⟩ := by
  obtain ⟨e, f⟩ := d
  obtain ⟨hmem, hacc, hf⟩ := ofWord?_eq_some_iff.1 h
  obtain ⟨m, -, rfl⟩ := List.mem_map.1 hmem
  refine ⟨m, ?_, ?_⟩
  · rintro rfl
    simp [Encoding.accepts, Mnemonic.encoding] at hacc
  · simpa using hf

/-- What layout and opcode make of the fields is what the mnemonic's shape makes of them. -/
theorem text_eq {m : Mnemonic} (hm : m ≠ .fence) (naming : Register.Naming) (f : Fields) :
    text naming ⟨m.encoding, f⟩ = m.name ++ [' '] ++ listed (m.shape.texts naming f) := by
  cases m <;> first | rfl | exact absurd rfl hm

theorem parse_text {m : Mnemonic} (hm : m ≠ .fence) (naming : Register.Naming) (f : Fields) :
    Instruction.parse (text naming ⟨m.encoding, f⟩) = .ok ⟨m, m.shape.operands f⟩ := by
  have htokens : Instruction.tokens (text naming ⟨m.encoding, f⟩) =
      m.name :: m.shape.texts naming f := by
    rw [text_eq hm, List.append_assoc]
    show Instruction.tokens (m.name ++ ' ' :: listed (m.shape.texts naming f)) = _
    rw [Instruction.tokens_append m.isSpelled_name.isToken (by decide),
      tokens_listed fun t ht => Shape.isSpelled_of_mem_texts ht]
  rw [Instruction.parse, htokens, Instruction.ofTokens, Mnemonic.ofName?_name]
  dsimp only
  rw [Instruction.readOperands_texts]
  rfl

theorem kept_fieldsOf (m : Mnemonic) (w : Word) :
    m.shape.kept (m.encoding.fieldsOf w) = m.encoding.fieldsOf w := by
  cases m <;> rfl

section
variable {w : Word} {d : Decoded} (h : ofWord? w = some d) (naming : Register.Naming)
include h

theorem text_ne_unknown : d.text naming ≠ "<unknown>".toList := by
  obtain ⟨m, hm, rfl⟩ := exists_of_ofWord? h
  intro heq
  have hblank : ' ' ∈ text naming ⟨m.encoding, m.encoding.fieldsOf w⟩ := by simp [text_eq hm]
  rw [heq] at hblank
  exact absurd hblank (by decide)

theorem isPlain_text : Source.IsPlain (d.text naming) := by
  obtain ⟨m, hm, rfl⟩ := exists_of_ofWord? h
  have hne : m.shape.texts naming (m.encoding.fieldsOf w) ≠ [] := by
    cases m <;> first | exact absurd rfl hm | exact List.cons_ne_nil _ _
  rw [text_eq hm]
  exact m.isSpelled_name.isPlain.join
    (isPlain_listed hne fun t ht => Shape.isSpelled_of_mem_texts ht) (by decide)

/-- Reading the text and packing what was read gives the word. -/
theorem word_text {symbols : SymbolTable} (hno : ∀ t, symbols.find? t = none)
    {p : PlacedInstruction} (hp : p.instruction = d.text naming) : p.word symbols = .ok w := by
  have hw := word_of_ofWord? h
  obtain ⟨m, hm, rfl⟩ := exists_of_ofWord? h
  have hparse := parse_text hm naming (m.encoding.fieldsOf w)
  rw [← hp] at hparse
  refine PlacedInstruction.word_eq_ok.2 ⟨_, _, hparse, Instruction.fields_operands hno _ _ _, ?_⟩
  rw [kept_fieldsOf]
  exact hw

end

end Decoded

/-! ## Whole listings -/

namespace Program

open Command.Listing (disassembly)

theorem disassembly_eq {w : Word} {d : Decoded} (h : Decoded.ofWord? w = some d)
    (naming : Register.Naming) : disassembly naming w = d.text naming := by
  rw [disassembly, h]

/-- The lines of a listing give the words it was made from. -/
theorem words_of_listing {listing : List (Register.Naming × Word)}
    (h : ∀ p ∈ listing, (Decoded.ofWord? p.2).isSome = true) :
    ∃ records,
      assemble (['\n'].intercalate (listing.map fun p => disassembly p.1 p.2)) = .ok records ∧
        records.map (·.word) = listing.map (·.2) := by
  have hplain : ∀ t ∈ listing.map fun p => disassembly p.1 p.2, Source.IsPlain t := by
    intro t ht
    obtain ⟨p, hp, rfl⟩ := List.mem_map.1 ht
    obtain ⟨d, hd⟩ := Option.isSome_iff_exists.1 (h p hp)
    rw [disassembly_eq hd]
    exact Decoded.isPlain_text hd p.1
  have hno := Source.find?_symbols_of_isPlain hplain
  refine assembleLines_of_words ?_
  rw [Placement.instructions_ofLines, Source.instructionLines_of_isPlain hplain]
  refine List.ext_getElem? fun k => ?_
  simp only [List.getElem?_map, List.getElem?_mapIdx, Option.map_map]
  cases hk : listing[k]? with
  | none => rfl
  | some p =>
    obtain ⟨d, hd⟩ := Option.isSome_iff_exists.1 (h p (List.mem_of_getElem? hk))
    exact congrArg some (Decoded.word_text hd p.1 hno (disassembly_eq hd p.1))

/-- **A listing is a source.** Every word of an assembled program is listed as an instruction, never
as unknown. Any words that decode, each listed with either naming of the registers, are the words
of the program that the lines of the listing are. -/
theorem listing_is_source :
    (∀ (source : Text) (records : List Record), assemble source = .ok records →
      ∀ r ∈ records, ∃ d, Decoded.ofWord? r.word = some d ∧
        ∀ naming, disassembly naming r.word = d.text naming ∧
          disassembly naming r.word ≠ "<unknown>".toList) ∧
    ∀ listing : List (Register.Naming × Word),
      (∀ p ∈ listing, (Decoded.ofWord? p.2).isSome = true) →
      ∃ records,
        assemble (['\n'].intercalate (listing.map fun p => disassembly p.1 p.2)) = .ok records ∧
          records.map (·.word) = listing.map (·.2) := by
  refine ⟨fun source records h r hr => ?_, fun listing h => words_of_listing h⟩
  obtain ⟨d, hd⟩ := isSome_ofWord?_of_mem h hr
  refine ⟨d, hd, fun naming => ⟨disassembly_eq hd naming, ?_⟩⟩
  rw [disassembly_eq hd naming]
  exact Decoded.text_ne_unknown hd naming

/-- A loop with a label and a `fence`, and the listing of its words in both namings. -/
theorem listing_is_source_loop :
    ∃ records,
      assemble "l: lw a0, -4(sp)\nsrai a0, a0, 35\nbne a0, zero, l\nlui t0, 255\nfence".toList =
        .ok records ∧
      (∀ r ∈ records, ∃ d, Decoded.ofWord? r.word = some d ∧
        ∀ naming, disassembly naming r.word = d.text naming ∧
          disassembly naming r.word ≠ "<unknown>".toList) ∧
      ∃ again,
        assemble ("lw x10, -4(x2)\nsrai a0, a0, 35\nbne x10, x0, -8\n".toList ++
          "lui t0, 0xff\naddi x0, x0, 0".toList) = .ok again ∧
        again.map (·.word) = records.map (·.word) := by
  have h : assemble
      "l: lw a0, -4(sp)\nsrai a0, a0, 35\nbne a0, zero, l\nlui t0, 255\nfence".toList =
      .ok [⟨0, 0xffc12503, "l: lw a0, -4(sp)".toList, 1⟩,
        ⟨1, 0x42355513, "srai a0, a0, 35".toList, 2⟩, ⟨2, 0xfe051ce3, "bne a0, zero, l".toList, 3⟩,
        ⟨3, 0x000ff2b7, "lui t0, 255".toList, 4⟩, ⟨4, nopWord, "fence".toList, 5⟩] := rfl
  refine ⟨_, h, listing_is_source.1 _ _ h, ?_⟩
  exact listing_is_source.2
    [(.numeric, 0xffc12503), (.abi, 0x42355513), (.numeric, 0xfe051ce3), (.abi, 0x000ff2b7),
      (.numeric, nopWord)] (by decide)

end Program
end RiscvRom
