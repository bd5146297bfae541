import RiscvRom.Proofs.Assembly
import RiscvRom.Proofs.RoundTrip

/-! The instruction that was written and the one that its word is.

Immediates are cut to their field and never refused, and in a constant shift the field also holds
the bits that select the operation. An arithmetic right shift sets its selecting bit whatever the
amount is; a logical one does not clear it. So a word is read back under the mnemonic that was
written, but for `srli` with an amount that has the selecting bit, which is read back as `srai`. -/

namespace RiscvRom

namespace Instruction

/-- A logical right shift whose amount makes it an arithmetic one. -/
def turnsArithmetic (i : Instruction) : Bool :=
  match i.mnemonic, i.operands with
  | .srli, .immediate _ _ amount => amount / 1024 % 2 = 1
  | _, _ => false

theorem wordOf_bit10 (v : Int) : (wordOf v).getLsbD 10 = decide (v / 1024 % 2 = 1) := by
  have hnat : (wordOf v).toNat = (v % 4294967296).toNat := BitVec.toNat_ofInt v
  rw [BitVec.getLsbD, hnat, Nat.testBit_eq_decide_div_mod_eq,
    decide_eq_decide]
  omega

/-- The mnemonic under which an instruction is read back, told from its operands. -/
theorem readBack_of_fields {symbols : SymbolTable} {pc : Nat} {i : Instruction} {f : Fields}
    (hshape : i.operands.shape = i.mnemonic.shape)
    (hf : fields symbols pc i.operands = .ok f) :
    Encoding.readBack i.mnemonic f = if i.turnsArithmetic then .srai else i.mnemonic := by
  obtain ⟨m, ops⟩ := i
  by_cases hm : m = .srli
  · subst hm
    cases ops with
    | immediate rd rs1 amount =>
      cases hf
      simp only [Encoding.readBack, turnsArithmetic, wordOf_bit10, true_and, decide_eq_true_eq]
    | _ => cases hshape
  · have hno : turnsArithmetic ⟨m, ops⟩ = false := by
      unfold turnsArithmetic
      split
      · exact absurd ‹_› hm
      · rfl
    simp [Encoding.readBack, hm, hno]

end Instruction

namespace Program

theorem ofWord?_of_record {lines : List Line} {records : List Record}
    (h : assembleLines lines = .ok records) {k : Nat} {r : Record} (hr : records[k]? = some r) :
    ∃ l t i, (instructionLines lines)[k]? = some (l, t) ∧ r.line = l.number ∧
      Instruction.parse t = .ok i ∧
      (i.mnemonic ≠ .fence → ∃ d, Decoded.ofWord? r.word = some d ∧
        d.encoding.mnemonic = if i.turnsArithmetic then .srai else i.mnemonic) := by
  obtain ⟨l, t, i, f, hlt, hi, hf, rfl⟩ := record_at h hr
  refine ⟨l, t, i, hlt, rfl, hi, fun hfence => ?_⟩
  have hrow := Instruction.readBack_of_fields (Instruction.shape_of_parse hi) hf
  exact ⟨_, Decoded.ofWord?_encode hfence f, by rw [Mnemonic.encoding_mnemonic, hrow]⟩

/-- Every assembled word is an instruction; that of `fence` is `addi x0, x0, 0`. -/
theorem isSome_ofWord?_of_mem {lines : List Line} {records : List Record}
    (h : assembleLines lines = .ok records) {r : Record} (hr : r ∈ records) :
    ∃ d, Decoded.ofWord? r.word = some d := by
  obtain ⟨k, hk⟩ := List.mem_iff_getElem?.1 hr
  obtain ⟨l, t, i, f, -, -, -, rfl⟩ := record_at h hk
  by_cases hfence : i.mnemonic = .fence
  · refine ⟨⟨Mnemonic.addi.encoding, {}⟩, ?_⟩
    simp only [hfence]
    exact (by decide : Decoded.ofWord? nopWord = some ⟨Mnemonic.addi.encoding, {}⟩)
  · exact ⟨_, Decoded.ofWord?_encode hfence f⟩

theorem mnemonic_of_turnsArithmetic {i : Instruction} (h : i.turnsArithmetic = true) :
    i.mnemonic = .srli := by
  unfold Instruction.turnsArithmetic at h
  split at h
  · assumption
  · cases h

/-- **The mnemonic of a word is the one that was written**, whatever the operands, exactly unless
the amount of a logical right shift has the bit that makes it an arithmetic one. -/
theorem mnemonic_kept_iff {source : Text} {records : List Record}
    (h : assemble source = .ok records) {k : Nat} {r : Record} (hr : records[k]? = some r) :
    ∃ l t i, (instructionLines (Source.lines source))[k]? = some (l, t) ∧ r.line = l.number ∧
      Instruction.parse t = .ok i ∧
      (i.mnemonic ≠ .fence → ∃ d, Decoded.ofWord? r.word = some d ∧
        (d.encoding.mnemonic = i.mnemonic ↔ i.turnsArithmetic = false) ∧
        (i.turnsArithmetic = true → i.mnemonic = .srli ∧ d.encoding.mnemonic = .srai)) := by
  obtain ⟨l, t, i, hlt, hline, hi, hword⟩ := ofWord?_of_record h hr
  refine ⟨l, t, i, hlt, hline, hi, fun hfence => ?_⟩
  obtain ⟨d, hd, hm⟩ := hword hfence
  refine ⟨d, hd, ?_⟩
  cases hturn : i.turnsArithmetic with
  | false => simp [hm, hturn]
  | true => simp [hm, hturn, mnemonic_of_turnsArithmetic hturn]

/-- A source with both kinds of amount: `64` stays logical, `1024` does not. -/
theorem mnemonic_kept_iff_two_shifts :
    ∃ records, assemble "srli x1, x2, 64\nsrli x1, x2, 1024".toList = .ok records ∧
      ∀ k < 2, ∃ r, records[k]? = some r ∧ ∃ l t i,
        (instructionLines (Source.lines "srli x1, x2, 64\nsrli x1, x2, 1024".toList))[k]? =
          some (l, t) ∧ r.line = l.number ∧ Instruction.parse t = .ok i ∧
        (i.mnemonic ≠ .fence → ∃ d, Decoded.ofWord? r.word = some d ∧
          (d.encoding.mnemonic = i.mnemonic ↔ i.turnsArithmetic = false) ∧
          (i.turnsArithmetic = true → i.mnemonic = .srli ∧ d.encoding.mnemonic = .srai)) := by
  refine ⟨[⟨0, 0x04015093, "srli x1, x2, 64".toList, 1⟩,
    ⟨1, 0x40015093, "srli x1, x2, 1024".toList, 2⟩], rfl, ?_⟩
  intro k hk
  have hcases : k = 0 ∨ k = 1 := by omega
  rcases hcases with rfl | rfl
  · exact ⟨_, rfl, mnemonic_kept_iff rfl rfl⟩
  · exact ⟨_, rfl, mnemonic_kept_iff rfl rfl⟩

/-- `srli x1, x2, 1024` is assembled, and its word is an `srai`. -/
theorem mnemonic_not_kept_srli :
    ¬ ∀ (source : Text) (records : List Record), assemble source = .ok records →
      ∀ (k : Nat) (r : Record) (l : Line) (t : Text) (i : Instruction), records[k]? = some r →
        (instructionLines (Source.lines source))[k]? = some (l, t) →
        Instruction.parse t = .ok i → i.mnemonic ≠ .fence →
        ∃ d, Decoded.ofWord? r.word = some d ∧ d.encoding.mnemonic = i.mnemonic := by
  intro hall
  obtain ⟨d, hd, hm⟩ := hall "srli x1, x2, 1024".toList
    [⟨0, 0x40015093, "srli x1, x2, 1024".toList, 1⟩] rfl 0 _
    ⟨"srli x1, x2, 1024".toList, 1⟩ "srli x1, x2, 1024".toList
    ⟨.srli, .immediate ⟨1⟩ ⟨2⟩ 1024⟩ rfl rfl rfl (by decide)
  have hsrai : Decoded.ofWord? 0x40015093 =
      some ⟨Mnemonic.srai.encoding, ⟨⟨1⟩, ⟨2⟩, .zero, 0⟩⟩ := by decide
  rw [hsrai] at hd
  cases hd
  exact absurd hm (by decide)

end Program
end RiscvRom
