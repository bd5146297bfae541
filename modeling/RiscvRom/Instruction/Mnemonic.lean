import RiscvRom.Text.Basic

/-! The instructions that can be written, by name. Names are lower case; reading one ignores ASCII
case. -/

namespace RiscvRom

inductive Mnemonic where
  | add | sub | and | or | xor | sll | srl | sra | slt | sltu
  | addi | andi | ori | xori | slli | srli | srai | slti | sltiu
  | lw | lb | lh | lbu | lhu | jalr
  | sw | sb | sh
  | beq | bne | blt | bge | bltu | bgeu
  | lui | auipc | jal | fence
  deriving DecidableEq

namespace Mnemonic

def all : List Mnemonic :=
  [.add, .sub, .and, .or, .xor, .sll, .srl, .sra, .slt, .sltu,
   .addi, .andi, .ori, .xori, .slli, .srli, .srai, .slti, .sltiu,
   .lw, .lb, .lh, .lbu, .lhu, .jalr, .sw, .sb, .sh,
   .beq, .bne, .blt, .bge, .bltu, .bgeu, .lui, .auipc, .jal, .fence]

def name : Mnemonic → Text
  | .add => "add".toList
  | .sub => "sub".toList
  | .and => "and".toList
  | .or => "or".toList
  | .xor => "xor".toList
  | .sll => "sll".toList
  | .srl => "srl".toList
  | .sra => "sra".toList
  | .slt => "slt".toList
  | .sltu => "sltu".toList
  | .addi => "addi".toList
  | .andi => "andi".toList
  | .ori => "ori".toList
  | .xori => "xori".toList
  | .slli => "slli".toList
  | .srli => "srli".toList
  | .srai => "srai".toList
  | .slti => "slti".toList
  | .sltiu => "sltiu".toList
  | .lw => "lw".toList
  | .lb => "lb".toList
  | .lh => "lh".toList
  | .lbu => "lbu".toList
  | .lhu => "lhu".toList
  | .jalr => "jalr".toList
  | .sw => "sw".toList
  | .sb => "sb".toList
  | .sh => "sh".toList
  | .beq => "beq".toList
  | .bne => "bne".toList
  | .blt => "blt".toList
  | .bge => "bge".toList
  | .bltu => "bltu".toList
  | .bgeu => "bgeu".toList
  | .lui => "lui".toList
  | .auipc => "auipc".toList
  | .jal => "jal".toList
  | .fence => "fence".toList

/-- The name with a capital first letter. -/
def title (m : Mnemonic) : Text :=
  match m.name with
  | [] => []
  | c :: r => c.toUpper :: r

def ofName? (t : Text) : Option Mnemonic := all.find? fun m => m.name == Text.lower t

/-- Position in `all`. -/
def ordinal (m : Mnemonic) : Nat := all.idxOf m

/-- Shifts by a constant: the upper immediate bits of these select the operation. -/
def isShift : Mnemonic → Bool
  | .slli | .srli | .srai => true
  | _ => false

theorem mem_all (m : Mnemonic) : m ∈ all := by cases m <;> decide

theorem ofName?_name (m : Mnemonic) : ofName? m.name = some m := by cases m <;> decide

end Mnemonic
end RiscvRom
