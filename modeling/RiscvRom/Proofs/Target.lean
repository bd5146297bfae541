import RiscvRom.Proofs.Identity
import RiscvRom.Proofs.Recovery

/-! Where branches and jumps go.

The distance to a target is cut to the offset field of the word, without its lowest bit, and read
back with the sign of the field. Addresses are positions, so the distance to a label is four times
the number of instructions between: forwards or backwards, and exact as far as the field reaches.
-/

namespace RiscvRom

namespace Word

/-! ## The offset that a word holds -/

theorem toNat_field_one (x : Word) {k : Nat} (hk : k < 32) :
    (field (x.extractLsb' 1 k) 1).toNat = 2 * (x.toNat / 2 % 2 ^ k) := by
  have hlt : x.toNat / 2 % 2 ^ k < 2 ^ k := Nat.mod_lt _ (Nat.two_pow_pos k)
  have hpow : 2 ^ k ≤ 2 ^ 31 := Nat.pow_le_pow_right (by decide) (by omega)
  simp only [field, BitVec.toNat_shiftLeft, BitVec.toNat_setWidth, BitVec.extractLsb'_toNat,
    Nat.shiftRight_eq_div_pow, Nat.shiftLeft_eq, Nat.pow_one]
  omega

/-- A signed field whose lowest bit is left out, as a number. -/
theorem toInt_field_one (x : Word) {k : Nat} (hk : k < 32) :
    (((field (x.extractLsb' 1 k) 1).setWidth (k + 1)).signExtend 32).toInt =
      ((2 * (x.toNat / 2 % 2 ^ k) : Nat) : Int).bmod (2 ^ (k + 1)) := by
  rw [BitVec.toInt_signExtend_of_le (by omega), BitVec.toInt_setWidth, toNat_field_one x hk]

theorem toInt_immB_packB (opcode funct3 : BitVec 8) (r1 r2 : Register) (v : Int) :
    (immB (packB opcode funct3 r1 r2 (Instruction.wordOf v))).toInt =
      (v - v % 2).bmod (2 ^ 13) := by
  have hnat : (Instruction.wordOf v).toNat = (v % 4294967296).toNat := BitVec.toNat_ofInt v
  rw [immB_packB, toInt_field_one _ (by decide), hnat, ← Int.emod_bmod, ← Int.emod_bmod (v - v % 2)]
  congr 1
  omega

theorem toInt_immJ_packJ (opcode : BitVec 8) (r : Register) (v : Int) :
    (immJ (packJ opcode r (Instruction.wordOf v))).toInt = (v - v % 2).bmod (2 ^ 21) := by
  have hnat : (Instruction.wordOf v).toNat = (v % 4294967296).toNat := BitVec.toNat_ofInt v
  rw [immJ_packJ, toInt_field_one _ (by decide), hnat, ← Int.emod_bmod, ← Int.emod_bmod (v - v % 2)]
  congr 1
  omega

end Word

/-! ## Distances -/

/-- The target of a branch or a jump, as it is written. -/
def Operands.target? : Operands → Option Text
  | .branch _ _ target => some target
  | .jal _ target => some target
  | _ => none

/-- Distances from `-reach` up to but not including `reach` fit the offset field. -/
def Shape.reach : Shape → Nat
  | .jal => 2 ^ 20
  | _ => 2 ^ 12

/-- `x` is in reach, and is `v` but for a multiple of the whole range. -/
def InReach (reach : Nat) (v x : Int) : Prop :=
  -(reach : Int) ≤ x ∧ x < reach ∧ (2 * reach : Int) ∣ x - v

theorem eq_bmod_iff_inReach (shape : Shape) (v x : Int) :
    x = v.bmod (2 * shape.reach) ↔ InReach shape.reach v x := by
  have hpos : 0 < 2 * shape.reach := by cases shape <;> decide
  rw [eq_comm, Int.bmod_eq_iff hpos, InReach]
  have hhalf : ((2 * shape.reach : Nat) : Int) / 2 = shape.reach := by omega
  have hhalf' : (((2 * shape.reach : Nat) : Int) + 1) / 2 = shape.reach := by omega
  rw [hhalf, hhalf']
  rw [Int.natCast_mul]
  rfl

theorem layout_of_shape_branch {m : Mnemonic} (h : m.shape = .branch) :
    m.encoding.layout = .b := by
  cases m <;> first | rfl | cases h

theorem layout_of_shape_jal {m : Mnemonic} (h : m.shape = .jal) : m.encoding.layout = .j := by
  cases m <;> first | rfl | cases h

namespace Instruction

/-- What the word of a branch or a jump says of its target. -/
theorem offset_of_fields {symbols : SymbolTable} {pc : Nat} {i : Instruction} {f : Fields}
    {target : Text} (hshape : i.operands.shape = i.mnemonic.shape)
    (hf : fields symbols pc i.operands = .ok f) (ht : i.operands.target? = some target) :
    ∃ v d, symbols.distance pc target = .ok v ∧
      Decoded.ofWord? (i.mnemonic.encoding.encode f) = some d ∧
      d.encoding.mnemonic = i.mnemonic ∧
      d.fields.imm.toInt = (v - v % 2).bmod (2 * i.operands.shape.reach) := by
  obtain ⟨m, ops⟩ := i
  cases ops with
  | branch rs1 rs2 target' =>
    obtain rfl : target' = target := Option.some.inj ht
    obtain ⟨v, hv, rfl⟩ := map_eq_ok.1 hf
    have hl := layout_of_shape_branch hshape.symm
    have hm : m ≠ .fence ∧ m ≠ .srli := by constructor <;> rintro rfl <;> cases hl
    refine ⟨v, _, hv, Decoded.ofWord?_encode_self hm.1 hm.2 _, m.encoding_mnemonic, ?_⟩
    simp only [Encoding.fieldsOf, Encoding.encode, hl, Operands.shape]
    rw [show 2 * Shape.branch.reach = 2 ^ 13 by decide]
    exact Word.toInt_immB_packB _ _ _ _ v
  | jal rd target' =>
    obtain rfl : target' = target := Option.some.inj ht
    obtain ⟨v, hv, rfl⟩ := map_eq_ok.1 hf
    have hl := layout_of_shape_jal hshape.symm
    have hm : m ≠ .fence ∧ m ≠ .srli := by constructor <;> rintro rfl <;> cases hl
    refine ⟨v, _, hv, Decoded.ofWord?_encode_self hm.1 hm.2 _, m.encoding_mnemonic, ?_⟩
    simp only [Encoding.fieldsOf, Encoding.encode, hl, Operands.shape]
    rw [show 2 * Shape.jal.reach = 2 ^ 21 by decide]
    exact Word.toInt_immJ_packJ _ _ v
  | _ => cases ht

end Instruction

namespace Program

/-- A distance in reach is read back as it is. -/
theorem bmod_eq_of_inReach {shape : Shape} {v : Int} (hlow : -(shape.reach : Int) ≤ v)
    (hhigh : v < shape.reach) : v.bmod (2 * shape.reach) = v :=
  ((eq_bmod_iff_inReach shape v v).2 ⟨hlow, hhigh, by simp⟩).symm

/-- The distance to a label is that of the two places. -/
theorem distance_of_lastDefinition {lines before : List Line} {label : Text}
    (hsize : (instructionLines lines).length < 2 ^ 30)
    (h : LastDefinition lines label before) {pc : Nat} {v : Int}
    (hv : (Placement.ofLines lines).symbols.distance pc label = .ok v) :
    (instructionLines before).length ≤ (instructionLines lines).length ∧
      v = 4 * (instructionLines before).length - pc := by
  obtain ⟨l, after, rfl, hl, hlast⟩ := h
  have hle : (instructionLines before).length ≤
      (instructionLines (before ++ l :: after)).length := by
    rw [instructionLines_append, List.length_append]
    omega
  refine ⟨hle, ?_⟩
  rw [SymbolTable.distance, Placement.find?_symbols_last hl hlast] at hv
  simp only [Except.ok.injEq, addressAfter_eq (Nat.lt_of_le_of_lt hle hsize)] at hv
  omega

/-- **Targets are resolved by position.** In the word of a branch or a jump at place `k` stands the
distance to its target: from the instruction to the place of the last line that defines the label,
or the number that the target is where no line defines it. A distance out of reach is reduced into
it; no branch of a program of at most 1023 instructions has such a distance to a label. -/
theorem targets_resolved {lines : List Line} {records : List Record}
    (hsize : (instructionLines lines).length < 2 ^ 30)
    (h : assembleLines lines = .ok records) {k : Nat} {r : Record} (hr : records[k]? = some r)
    {l : Line} {t : Text} (hl : (instructionLines lines)[k]? = some (l, t))
    {i : Instruction} (hi : Instruction.parse t = .ok i)
    {target : Text} (ht : i.operands.target? = some target) :
    ∃ d, Decoded.ofWord? r.word = some d ∧ d.encoding.mnemonic = i.mnemonic ∧
      ((∃ l' ∈ lines, l'.label? = some target) → ∃ before, LastDefinition lines target before) ∧
      (∀ before, LastDefinition lines target before →
        ∀ a : Int, a = 4 * (instructionLines before).length →
          (∀ x, x = d.fields.imm.toInt ↔ InReach i.operands.shape.reach (a - 4 * k) x) ∧
          (-(i.operands.shape.reach : Int) ≤ a - 4 * k → a - 4 * k < i.operands.shape.reach →
            4 * k + d.fields.imm.toInt = a) ∧
          (i.operands.shape = .branch → (instructionLines lines).length ≤ 1023 →
            4 * k + d.fields.imm.toInt = a)) ∧
      ((∀ l' ∈ lines, l'.label? ≠ some target) →
        ∃ v, Operand.immediate target = .ok v ∧
          ∀ x, x = d.fields.imm.toInt ↔ InReach i.operands.shape.reach (v - v % 2) x) := by
  obtain ⟨l', t', i', f, hl', hi', hf, rfl⟩ := record_at h hr
  obtain ⟨rfl, rfl⟩ : l' = l ∧ t' = t := by simpa [hl] using hl'.symm
  obtain rfl : i' = i := by simpa [hi] using hi'.symm
  obtain ⟨v, d, hv, hd, hm, himm⟩ :=
    Instruction.offset_of_fields (Instruction.shape_of_parse hi) hf ht
  have hk : k < (instructionLines lines).length := (List.getElem?_eq_some_iff.1 hl).1
  rw [addressAfter_eq (by omega)] at hv
  refine ⟨d, hd, hm, exists_lastDefinition, ?_, ?_⟩
  · rintro before hbefore a rfl
    obtain ⟨hle, hdist⟩ := distance_of_lastDefinition hsize hbefore hv
    -- both addresses are multiples of four, so the bit that is left out is zero
    have heven : v - v % 2 = 4 * (instructionLines before).length - 4 * k := by omega
    rw [heven] at himm
    have hexact : -(i'.operands.shape.reach : Int) ≤ 4 * (instructionLines before).length - 4 * k →
        (4 * (instructionLines before).length - 4 * k : Int) < i'.operands.shape.reach →
        4 * k + d.fields.imm.toInt = 4 * (instructionLines before).length := by
      intro hlow hhigh
      rw [himm, bmod_eq_of_inReach hlow hhigh]
      omega
    refine ⟨fun x => ?_, hexact, fun hbranch hsmall => ?_⟩
    · rw [himm]
      exact eq_bmod_iff_inReach _ _ x
    · have hreach : i'.operands.shape.reach = 2 ^ 12 := by rw [hbranch]; rfl
      rw [hreach] at hexact
      exact hexact (by omega) (by omega)
  · intro hnone
    rw [SymbolTable.distance, Placement.find?_symbols_none hnone] at hv
    refine ⟨v, hv, fun x => ?_⟩
    rw [himm]
    exact eq_bmod_iff_inReach _ _ x

/-- A label that reads as a number, defined twice, the second time after the last instruction. -/
theorem targets_resolved_redefined :
    ∃ records r d,
      assembleLines (Source.lines "beq x1, x2, 100\n100: jal x1, 100\n100:".toList) = .ok records ∧
      records[0]? = some r ∧ Decoded.ofWord? r.word = some d ∧ d.fields.imm.toInt = 8 := by
  have h : assembleLines (Source.lines "beq x1, x2, 100\n100: jal x1, 100\n100:".toList) =
      .ok [⟨0, 0x00208463, "beq x1, x2, 100".toList, 1⟩,
        ⟨1, 0x004000EF, "100: jal x1, 100".toList, 2⟩] := rfl
  have hl : (instructionLines (Source.lines
      "beq x1, x2, 100\n100: jal x1, 100\n100:".toList))[0]? =
      some (⟨"beq x1, x2, 100".toList, 1⟩, "beq x1, x2, 100".toList) := rfl
  have hi : Instruction.parse "beq x1, x2, 100".toList =
      .ok ⟨.beq, .branch ⟨1⟩ ⟨2⟩ "100".toList⟩ := rfl
  obtain ⟨d, hd, -, -, hlabel, -⟩ := targets_resolved (by decide) h rfl hl hi rfl
  have hlast : LastDefinition (Source.lines "beq x1, x2, 100\n100: jal x1, 100\n100:".toList)
      "100".toList [⟨"beq x1, x2, 100".toList, 1⟩, ⟨"100: jal x1, 100".toList, 2⟩] :=
    ⟨⟨"100:".toList, 3⟩, [], rfl, rfl, by simp⟩
  have hexact := (hlabel _ hlast 8 rfl).2.2 rfl (by decide)
  exact ⟨_, _, d, h, rfl, hd, by omega⟩

end Program
end RiscvRom
