import RiscvRom.Instruction.Mnemonic

/-! The instruction table: layout and selecting bits of every mnemonic, and which row a word belongs
to.

A word belongs to a row if the selecting bits that the row's layout has agree with it. Rows with a
fixed word never match: `fence` is assembled as a word that already means something else. -/

namespace RiscvRom

abbrev Word := BitVec 32

/-- Where the fields of an instruction stand; `fixed` has none and always gives its word. -/
inductive Layout where
  | r | i | s | b | u | j
  | fixed (word : Word)
  deriving DecidableEq

namespace Opcode

def register : BitVec 8 := 0b0110011
def immediate : BitVec 8 := 0b0010011
def load : BitVec 8 := 0b0000011
def store : BitVec 8 := 0b0100011
def branch : BitVec 8 := 0b1100011
def jal : BitVec 8 := 0b1101111
def jalr : BitVec 8 := 0b1100111
def lui : BitVec 8 := 0b0110111
def auipc : BitVec 8 := 0b0010111
def ordering : BitVec 8 := 0b0001111

end Opcode

/-- The word of `addi x0, x0, 0`, which does nothing. -/
def nopWord : Word := 0x00000013

/-- The `funct7` of subtraction and of the arithmetic right shifts. -/
def alternate : BitVec 8 := 0b0100000

/-- One row of the instruction table. Of the three selecting bytes only the low seven, three and
seven bits reach a word. -/
structure Encoding where
  mnemonic : Mnemonic
  layout : Layout
  opcode : BitVec 8
  funct3 : Option (BitVec 8)
  funct7 : Option (BitVec 8)
  deriving DecidableEq

namespace Mnemonic

def encoding : Mnemonic → Encoding
  | .add => ⟨.add, .r, Opcode.register, some 0b000, some 0⟩
  | .sub => ⟨.sub, .r, Opcode.register, some 0b000, some alternate⟩
  | .and => ⟨.and, .r, Opcode.register, some 0b111, some 0⟩
  | .or => ⟨.or, .r, Opcode.register, some 0b110, some 0⟩
  | .xor => ⟨.xor, .r, Opcode.register, some 0b100, some 0⟩
  | .sll => ⟨.sll, .r, Opcode.register, some 0b001, some 0⟩
  | .srl => ⟨.srl, .r, Opcode.register, some 0b101, some 0⟩
  | .sra => ⟨.sra, .r, Opcode.register, some 0b101, some alternate⟩
  | .slt => ⟨.slt, .r, Opcode.register, some 0b010, some 0⟩
  | .sltu => ⟨.sltu, .r, Opcode.register, some 0b011, some 0⟩
  | .addi => ⟨.addi, .i, Opcode.immediate, some 0b000, none⟩
  | .andi => ⟨.andi, .i, Opcode.immediate, some 0b111, none⟩
  | .ori => ⟨.ori, .i, Opcode.immediate, some 0b110, none⟩
  | .xori => ⟨.xori, .i, Opcode.immediate, some 0b100, none⟩
  | .slli => ⟨.slli, .i, Opcode.immediate, some 0b001, none⟩
  | .srli => ⟨.srli, .i, Opcode.immediate, some 0b101, none⟩
  | .srai => ⟨.srai, .i, Opcode.immediate, some 0b101, some alternate⟩
  | .slti => ⟨.slti, .i, Opcode.immediate, some 0b010, none⟩
  | .sltiu => ⟨.sltiu, .i, Opcode.immediate, some 0b011, none⟩
  | .lw => ⟨.lw, .i, Opcode.load, some 0b010, none⟩
  | .lb => ⟨.lb, .i, Opcode.load, some 0b000, none⟩
  | .lh => ⟨.lh, .i, Opcode.load, some 0b001, none⟩
  | .lbu => ⟨.lbu, .i, Opcode.load, some 0b100, none⟩
  | .lhu => ⟨.lhu, .i, Opcode.load, some 0b101, none⟩
  | .jalr => ⟨.jalr, .i, Opcode.jalr, some 0b000, none⟩
  | .sw => ⟨.sw, .s, Opcode.store, some 0b010, none⟩
  | .sb => ⟨.sb, .s, Opcode.store, some 0b000, none⟩
  | .sh => ⟨.sh, .s, Opcode.store, some 0b001, none⟩
  | .beq => ⟨.beq, .b, Opcode.branch, some 0b000, none⟩
  | .bne => ⟨.bne, .b, Opcode.branch, some 0b001, none⟩
  | .blt => ⟨.blt, .b, Opcode.branch, some 0b100, none⟩
  | .bge => ⟨.bge, .b, Opcode.branch, some 0b101, none⟩
  | .bltu => ⟨.bltu, .b, Opcode.branch, some 0b110, none⟩
  | .bgeu => ⟨.bgeu, .b, Opcode.branch, some 0b111, none⟩
  | .lui => ⟨.lui, .u, Opcode.lui, none, none⟩
  | .auipc => ⟨.auipc, .u, Opcode.auipc, none, none⟩
  | .jal => ⟨.jal, .j, Opcode.jal, none, none⟩
  | .fence => ⟨.fence, .fixed nopWord, Opcode.ordering, some 0b000, none⟩

theorem encoding_mnemonic (m : Mnemonic) : m.encoding.mnemonic = m := by cases m <;> rfl

end Mnemonic

namespace Encoding

def table : List Encoding := Mnemonic.all.map Mnemonic.encoding

def opcodeOf (w : Word) : BitVec 8 := (w.extractLsb' 0 7).setWidth 8
def funct3Of (w : Word) : BitVec 8 := (w.extractLsb' 12 3).setWidth 8
def funct7Of (w : Word) : BitVec 8 := (w.extractLsb' 25 7).setWidth 8

/-- Of the upper bits of a constant shift only the alternate bit tells a right shift's kind; `slli`
has nothing to be told from. -/
def acceptsShift (e : Encoding) (w : Word) : Bool :=
  e.mnemonic == .slli || (e.funct7.getD 0 &&& alternate) == (funct7Of w &&& alternate)

/-- Whether the selecting bits of the row are those of the word. -/
def accepts (e : Encoding) (w : Word) : Bool :=
  e.opcode == opcodeOf w &&
  match e.layout with
  | .fixed _ => false
  | .u | .j => true
  | .r => e.funct3 == some (funct3Of w) && e.funct7 == some (funct7Of w)
  | .i => e.funct3 == some (funct3Of w) && (!e.mnemonic.isShift || e.acceptsShift w)
  | .s | .b => e.funct3 == some (funct3Of w)

/-- The first row that the word belongs to. -/
def ofWord? (w : Word) : Option Encoding := table.find? (·.accepts w)

theorem accepts_of_ofWord? {w : Word} {e : Encoding} (h : ofWord? w = some e) :
    e.accepts w = true := by
  simpa using List.find?_some h

theorem mem_table_of_ofWord? {w : Word} {e : Encoding} (h : ofWord? w = some e) : e ∈ table :=
  List.mem_of_find?_eq_some h

theorem mem_table_iff {e : Encoding} : e ∈ table ↔ e = e.mnemonic.encoding := by
  constructor
  · intro h
    obtain ⟨m, -, rfl⟩ := List.mem_map.1 h
    rw [Mnemonic.encoding_mnemonic]
  · intro h
    rw [h]
    exact List.mem_map.2 ⟨_, Mnemonic.mem_all _, rfl⟩

end Encoding
end RiscvRom
