import RiscvRom.Instruction
import RiscvRom.Instruction.Word
import RiscvRom.Placement

/-! Assembling a program: from source lines to machine words.

All labels are placed before the first instruction is encoded, so that a target may stand anywhere
in the program. A branch or jump target that is a label means the distance to it; any other target
is a number, and already a distance. Immediates are cut to their field, never refused. The first
line in error ends the assembly, and no words are produced. -/

namespace RiscvRom

/-- An assembled instruction. -/
structure Record where
  slot : Nat
  word : Word
  source : Text
  line : Nat
  deriving DecidableEq

/-- The distance from `pc` to a target. -/
def SymbolTable.distance (symbols : SymbolTable) (pc : Nat) (target : Text) : Except Fault Int :=
  match symbols.find? target with
  | some s => .ok (s.address - pc)
  | none => Operand.immediate target

namespace Instruction

/-- A number as far as a machine word can hold it. -/
def wordOf (v : Int) : Word := BitVec.ofInt 32 v

/-- Operand values of an instruction at address `pc`; operands that it does not have are zero. -/
def fields (symbols : SymbolTable) (pc : Nat) : Operands → Except Fault Fields
  | .register rd rs1 rs2 => .ok ⟨rd, rs1, rs2, 0⟩
  | .immediate rd rs1 imm => .ok ⟨rd, rs1, .zero, wordOf imm⟩
  | .jalr rd rs1 imm => .ok ⟨rd, rs1, .zero, wordOf imm⟩
  | .load rd address => .ok ⟨rd, address.base, .zero, wordOf address.offset⟩
  | .store rs2 address => .ok ⟨.zero, address.base, rs2, wordOf address.offset⟩
  | .branch rs1 rs2 target =>
    (symbols.distance pc target).map fun distance => ⟨.zero, rs1, rs2, wordOf distance⟩
  | .upper rd imm => .ok ⟨rd, .zero, .zero, wordOf imm⟩
  | .jal rd target =>
    (symbols.distance pc target).map fun distance => ⟨rd, .zero, .zero, wordOf distance⟩
  | .fence => .ok {}

def encode (symbols : SymbolTable) (pc : Nat) (i : Instruction) : Except Fault Word :=
  (fields symbols pc i.operands).map i.mnemonic.encoding.encode

end Instruction

namespace PlacedInstruction

def word (symbols : SymbolTable) (p : PlacedInstruction) : Except Fault Word :=
  (Instruction.parse p.instruction).bind (Instruction.encode symbols p.address)

def record (symbols : SymbolTable) (p : PlacedInstruction) : Except Diagnostic Record :=
  match p.word symbols with
  | .ok w => .ok ⟨p.slot, w, p.source, p.line⟩
  | .error fault => .error (Diagnostic.onLine ⟨fault, none⟩ p.line p.source)

end PlacedInstruction

namespace Program

def assemblePlaced (placement : Placement) : Except Diagnostic (List Record) :=
  placement.instructions.mapM (·.record placement.symbols)

def assembleLines (lines : List Line) : Except Diagnostic (List Record) :=
  assemblePlaced (Placement.ofLines lines)

def assemble (source : Text) : Except Diagnostic (List Record) :=
  assembleLines (Source.lines source)

end Program
end RiscvRom
