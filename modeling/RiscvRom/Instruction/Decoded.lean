import RiscvRom.Instruction.Word

/-! Reading operand values back out of a machine word, and writing the instruction as text.

Immediates are sign extended, but for the upper field of a U word and the amount of a constant
shift, which are unsigned; the bit that makes a right shift arithmetic is no part of its amount.
Registers that the layout does not have are `x0`. -/

namespace RiscvRom

namespace Word

def immI (w : Word) : Word := (w.extractLsb' 20 12).signExtend 32

def immS (w : Word) : Word :=
  ((field (w.extractLsb' 25 7) 5 ||| field (w.extractLsb' 7 5) 0).setWidth 12).signExtend 32

def immB (w : Word) : Word :=
  ((field (w.extractLsb' 31 1) 12 ||| field (w.extractLsb' 7 1) 11 |||
    field (w.extractLsb' 25 6) 5 ||| field (w.extractLsb' 8 4) 1).setWidth 13).signExtend 32

def immU (w : Word) : Word := (w.extractLsb' 12 20).setWidth 32

def immJ (w : Word) : Word :=
  ((field (w.extractLsb' 31 1) 20 ||| field (w.extractLsb' 12 8) 12 |||
    field (w.extractLsb' 20 1) 11 ||| field (w.extractLsb' 21 10) 1).setWidth 21).signExtend 32

/-- The twelve immediate bits without those that select the operation. -/
def shiftAmount (w selector : Word) : Word := (w.extractLsb' 20 12).setWidth 32 &&& ~~~selector

def rd (w : Word) : Register := ⟨w.extractLsb' 7 5⟩
def rs1 (w : Word) : Register := ⟨w.extractLsb' 15 5⟩
def rs2 (w : Word) : Register := ⟨w.extractLsb' 20 5⟩

end Word

/-- A word read as an instruction. -/
structure Decoded where
  encoding : Encoding
  fields : Fields
  deriving DecidableEq

namespace Encoding

/-- The operand values that a word holds under the layout of a row. -/
def fieldsOf (e : Encoding) (w : Word) : Fields :=
  match e.layout with
  | .r => ⟨Word.rd w, Word.rs1 w, Word.rs2 w, 0⟩
  | .i =>
    let imm := if e.mnemonic.isShift then Word.shiftAmount w e.selector else Word.immI w
    ⟨Word.rd w, Word.rs1 w, .zero, imm⟩
  | .s => ⟨.zero, Word.rs1 w, Word.rs2 w, Word.immS w⟩
  | .b => ⟨.zero, Word.rs1 w, Word.rs2 w, Word.immB w⟩
  | .u => ⟨Word.rd w, .zero, .zero, Word.immU w⟩
  | .j => ⟨Word.rd w, .zero, .zero, Word.immJ w⟩
  | .fixed _ => {}

end Encoding

namespace Decoded

def ofWord? (w : Word) : Option Decoded :=
  (Encoding.ofWord? w).map fun e => ⟨e, e.fieldsOf w⟩

/-- The word that encodes the instruction again. -/
def word (d : Decoded) : Word := d.encoding.encode d.fields

def name (d : Decoded) : Text := d.encoding.mnemonic.name

/-- Operands with a comma and a blank between them. -/
def listed (operands : List Text) : Text := ", ".toList.intercalate operands

/-- An address operand: the offset, then the base register in parentheses. -/
def addressed (offset : Int) (base : Text) : Text :=
  Text.signedDecimal offset ++ '(' :: base ++ [')']

/-- Assembly text of the instruction, which assembles to the same word. -/
def text (naming : Register.Naming) (d : Decoded) : Text :=
  let rd := d.fields.rd.name naming
  let rs1 := d.fields.rs1.name naming
  let rs2 := d.fields.rs2.name naming
  let imm := d.fields.imm.toInt
  match d.encoding.layout with
  | .r => d.name ++ ' ' :: listed [rd, rs1, rs2]
  | .i =>
    if d.encoding.opcode = Opcode.load then d.name ++ ' ' :: listed [rd, addressed imm rs1]
    else d.name ++ ' ' :: listed [rd, rs1, Text.signedDecimal imm]
  | .s => d.name ++ ' ' :: listed [rs2, addressed imm rs1]
  | .b => d.name ++ ' ' :: listed [rs1, rs2, Text.signedDecimal imm]
  | .u => d.name ++ ' ' :: listed [rd, "0x".toList ++ Text.hexadecimal d.fields.imm.toNat]
  | .j => d.name ++ ' ' :: listed [rd, Text.signedDecimal imm]
  | .fixed _ => d.name

end Decoded
end RiscvRom
