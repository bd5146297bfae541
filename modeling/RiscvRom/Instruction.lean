import RiscvRom.Instruction.Encoding
import RiscvRom.Operand
import RiscvRom.Text.Blank
import RiscvRom.Text.Split

/-! Instructions as they are written: a mnemonic and its operands.

The tokens of an instruction are the stretches between commas and blanks. The first one is the
mnemonic, and the mnemonic decides how many operands follow and what each of them is. `fence`
takes any operands and ignores them. Of several faults the first in reading order is reported: the
mnemonic, then the number of operands, then the operands from left to right. -/

namespace RiscvRom

/-- How the operands of an instruction are written. -/
inductive Shape where
  | register | immediate | load | store | jalr | branch | upper | jal | fence
  deriving DecidableEq

namespace Shape

def arity : Shape → Nat
  | .register | .immediate | .jalr | .branch => 3
  | .load | .store | .upper | .jal => 2
  | .fence => 0

def text : Shape → Text
  | .register => "rd, rs1, rs2".toList
  | .immediate | .jalr => "rd, rs1, imm".toList
  | .load => "rd, offset(base)".toList
  | .store => "rs2, offset(base)".toList
  | .branch => "rs1, rs2, target".toList
  | .upper => "rd, imm".toList
  | .jal => "rd, target".toList
  | .fence => "no operands".toList

end Shape

def Mnemonic.shape : Mnemonic → Shape
  | .add | .sub | .and | .or | .xor | .sll | .srl | .sra | .slt | .sltu => .register
  | .addi | .andi | .ori | .xori | .slli | .srli | .srai | .slti | .sltiu => .immediate
  | .lw | .lb | .lh | .lbu | .lhu => .load
  | .jalr => .jalr
  | .sw | .sb | .sh => .store
  | .beq | .bne | .blt | .bge | .bltu | .bgeu => .branch
  | .lui | .auipc => .upper
  | .jal => .jal
  | .fence => .fence

/-- Operand values; a target is kept as written until the labels are known. -/
inductive Operands where
  | register (rd rs1 rs2 : Register)
  | immediate (rd rs1 : Register) (imm : Int)
  | load (rd : Register) (address : Address)
  | store (rs2 : Register) (address : Address)
  | jalr (rd rs1 : Register) (imm : Int)
  | branch (rs1 rs2 : Register) (target : Text)
  | upper (rd : Register) (imm : Int)
  | jal (rd : Register) (target : Text)
  | fence
  deriving DecidableEq

def Operands.shape : Operands → Shape
  | .register .. => .register
  | .immediate .. => .immediate
  | .load .. => .load
  | .store .. => .store
  | .jalr .. => .jalr
  | .branch .. => .branch
  | .upper .. => .upper
  | .jal .. => .jal
  | .fence => .fence

structure Instruction where
  mnemonic : Mnemonic
  operands : Operands
  deriving DecidableEq

namespace Instruction

def isSeparator (c : Char) : Bool := c == ',' || Text.isBlank c

def tokens (t : Text) : List Text := (splitWhere isSeparator t).filter (· ≠ [])

/-- Reads the operands of a mnemonic; a wrong number of them is a fault. -/
def readOperands (m : Mnemonic) (tokens : List Text) : Except Fault Operands :=
  match m.shape, tokens with
  | .register, [a, b, c] => do
    let rd ← Operand.register a
    let rs1 ← Operand.register b
    let rs2 ← Operand.register c
    return .register rd rs1 rs2
  | .immediate, [a, b, c] => do
    let rd ← Operand.register a
    let rs1 ← Operand.register b
    let imm ← Operand.immediate c
    return .immediate rd rs1 imm
  | .load, [a, b] => do
    let rd ← Operand.register a
    let address ← Operand.address b
    return .load rd address
  | .store, [a, b] => do
    let rs2 ← Operand.register a
    let address ← Operand.address b
    return .store rs2 address
  | .jalr, [a, b, c] => do
    let rd ← Operand.register a
    let rs1 ← Operand.register b
    let imm ← Operand.immediate c
    return .jalr rd rs1 imm
  | .branch, [a, b, target] => do
    let rs1 ← Operand.register a
    let rs2 ← Operand.register b
    return .branch rs1 rs2 target
  | .upper, [a, b] => do
    let rd ← Operand.register a
    let imm ← Operand.immediate b
    return .upper rd imm
  | .jal, [a, target] => do
    let rd ← Operand.register a
    return .jal rd target
  | .fence, _ => .ok .fence
  | shape, tokens => .error (.operandCount m.name shape.arity tokens.length)

def ofTokens : List Text → Except Fault Instruction
  | [] => .error (.unknownInstruction [])
  | name :: operands =>
    match Mnemonic.ofName? name with
    | none => .error (.unknownInstruction (Text.lower name))
    | some m => (readOperands m operands).map fun ops => ⟨m, ops⟩

def parse (t : Text) : Except Fault Instruction := ofTokens (tokens t)

end Instruction
end RiscvRom
