import RiscvRom.Instruction.Encoding
import RiscvRom.Register

/-! Packing operand values into machine words.

Each layout is the sum of its fields, given here from bit 31 down to bit 0. A value wider than its
field is cut to the low bits of the field, never refused:

* R: `funct7 | rs2 | rs1 | funct3 | rd | opcode`
* I: `imm[11:0] | rs1 | funct3 | rd | opcode`
* S: `imm[11:5] | rs2 | rs1 | funct3 | imm[4:0] | opcode`
* B: `imm[12] | imm[10:5] | rs2 | rs1 | funct3 | imm[4:1] | imm[11] | opcode`
* U: `imm[19:0] | rd | opcode`
* J: `imm[20] | imm[10:1] | imm[11] | imm[19:12] | rd | opcode`

The U immediate is the upper field itself, not shifted. Bit 0 of a branch or jump offset is
dropped. -/

namespace RiscvRom

/-- The low `width` bits of a value; all of it from 32 bits on. -/
def lowBits (value : Word) (width : Nat) : Word := (value.setWidth (min width 32)).setWidth 32

/-- Operand values of one instruction. A layout ignores the fields that it does not have. -/
structure Fields where
  rd : Register := .zero
  rs1 : Register := .zero
  rs2 : Register := .zero
  imm : Word := 0
  deriving DecidableEq

namespace Word

/-- A field of a word: the value with its lowest bit at bit `k`, and zeros around it. -/
def field {n : Nat} (x : BitVec n) (k : Nat) : Word := x.setWidth 32 <<< k

def packR (opcode funct3 funct7 : BitVec 8) (rd rs1 rs2 : Register) : Word :=
  field (funct7.setWidth 7) 25 ||| field rs2.index 20 ||| field rs1.index 15 |||
    field (funct3.setWidth 3) 12 ||| field rd.index 7 ||| field (opcode.setWidth 7) 0

def packI (opcode funct3 : BitVec 8) (rd rs1 : Register) (imm : Word) : Word :=
  field (imm.extractLsb' 0 12) 20 ||| field rs1.index 15 ||| field (funct3.setWidth 3) 12 |||
    field rd.index 7 ||| field (opcode.setWidth 7) 0

def packS (opcode funct3 : BitVec 8) (rs1 rs2 : Register) (imm : Word) : Word :=
  field (imm.extractLsb' 5 7) 25 ||| field rs2.index 20 ||| field rs1.index 15 |||
    field (funct3.setWidth 3) 12 ||| field (imm.extractLsb' 0 5) 7 ||| field (opcode.setWidth 7) 0

def packB (opcode funct3 : BitVec 8) (rs1 rs2 : Register) (offset : Word) : Word :=
  field (offset.extractLsb' 12 1) 31 ||| field (offset.extractLsb' 5 6) 25 |||
    field rs2.index 20 ||| field rs1.index 15 ||| field (funct3.setWidth 3) 12 |||
    field (offset.extractLsb' 1 4) 8 ||| field (offset.extractLsb' 11 1) 7 |||
    field (opcode.setWidth 7) 0

def packU (opcode : BitVec 8) (rd : Register) (imm : Word) : Word :=
  field (imm.extractLsb' 0 20) 12 ||| field rd.index 7 ||| field (opcode.setWidth 7) 0

def packJ (opcode : BitVec 8) (rd : Register) (offset : Word) : Word :=
  field (offset.extractLsb' 20 1) 31 ||| field (offset.extractLsb' 1 10) 21 |||
    field (offset.extractLsb' 11 1) 20 ||| field (offset.extractLsb' 12 8) 12 |||
    field rd.index 7 ||| field (opcode.setWidth 7) 0

theorem getLsbD_field {n : Nat} (x : BitVec n) (k i : Nat) (hi : i < 32) :
    (field x k).getLsbD i = (decide (k ≤ i) && x.getLsbD (i - k)) := by
  unfold field
  rw [BitVec.getLsbD_shiftLeft, BitVec.getLsbD_setWidth]
  by_cases h : k ≤ i
  · simp [h, hi, show ¬ i < k by omega, show i - k < 32 by omega]
  · simp [h, show i < k by omega]

end Word

namespace Encoding

/-- The `funct7` of a row as upper bits of a twelve-bit immediate. -/
def selector (e : Encoding) : Word := (e.funct7.getD 0).setWidth 32 <<< 5

/-- The word of an instruction. An I row with a `funct7` has it set in the upper immediate bits. -/
def encode (e : Encoding) (f : Fields) : Word :=
  let funct3 := e.funct3.getD 0
  match e.layout with
  | .r => Word.packR e.opcode funct3 (e.funct7.getD 0) f.rd f.rs1 f.rs2
  | .i => Word.packI e.opcode funct3 f.rd f.rs1 (f.imm ||| e.selector)
  | .s => Word.packS e.opcode funct3 f.rs1 f.rs2 f.imm
  | .b => Word.packB e.opcode funct3 f.rs1 f.rs2 f.imm
  | .u => Word.packU e.opcode f.rd f.imm
  | .j => Word.packJ e.opcode f.rd f.imm
  | .fixed word => word

end Encoding
end RiscvRom
