import RiscvRom.Source
import RiscvRom.Symbol

/-! Giving every instruction and every label its address.

Instructions take four bytes each from address zero on, in the order of the lines. A label stands
for the address that the next instruction has or would have, on the same line or further down.
Addresses stay at the largest 32-bit value once they reach it. Nothing can fail here, as
instructions are not looked into. -/

namespace RiscvRom

def bytesPerWord : Nat := 4

def lastAddress : Nat := 0xFFFFFFFF

/-- The address after an instruction at `pc`. -/
def nextAddress (pc : Nat) : Nat := min (pc + bytesPerWord) lastAddress

/-- A statement, its line, and the address reached before it. -/
structure PlacedStatement where
  address : Nat
  line : Line
  statement : Statement
  deriving DecidableEq

/-- An instruction, still as text, with its address and line. -/
structure PlacedInstruction where
  address : Nat
  instruction : Text
  source : Text
  line : Nat
  deriving DecidableEq

def PlacedInstruction.slot (p : PlacedInstruction) : Nat := p.address / bytesPerWord

namespace PlacedStatement

def definition? (p : PlacedStatement) : Option Symbol :=
  p.statement.label.map fun name => ⟨name, p.address, p.line.number⟩

def instruction? (p : PlacedStatement) : Option PlacedInstruction :=
  p.statement.instruction.map fun t => ⟨p.address, t, p.line.trimmed, p.line.number⟩

end PlacedStatement

/-- The address after a statement: only an instruction takes room. -/
def Statement.after (s : Statement) (pc : Nat) : Nat :=
  if s.instruction.isSome then nextAddress pc else pc

/-- A definition that replaces an earlier one of the same label. -/
structure Redefinition where
  label : Text
  line : Nat
  previous : Nat
  deriving DecidableEq

/-- Where everything in a program stands. -/
structure Placement where
  instructions : List PlacedInstruction
  symbols : SymbolTable
  endAddress : Nat
  redefinitions : List Redefinition
  deriving DecidableEq

namespace Placement

/-- The statements of the lines, the first of them at address `pc`. -/
def statements (pc : Nat) : List Line → List PlacedStatement
  | [] => []
  | l :: ls =>
    match l.statement? with
    | none => statements pc ls
    | some s => ⟨pc, l, s⟩ :: statements (s.after pc) ls

/-- The address after the last of the statements, where the first is at `pc`. -/
def endFrom (pc : Nat) (placed : List PlacedStatement) : Nat :=
  placed.foldl (fun pc p => p.statement.after pc) pc

/-- The definitions that repeat a label, each with the latest earlier line that defines it. The
definitions in `earlier` stand latest first. -/
def redefinitionsAfter (earlier : List Symbol) : List Symbol → List Redefinition
  | [] => []
  | s :: rest =>
    let later := redefinitionsAfter (s :: earlier) rest
    match earlier.find? (·.name == s.name) with
    | none => later
    | some p => ⟨s.name, s.line, p.line⟩ :: later

def ofLines (lines : List Line) : Placement :=
  let placed := statements 0 lines
  let definitions := placed.filterMap PlacedStatement.definition?
  { instructions := placed.filterMap PlacedStatement.instruction?
    symbols := SymbolTable.ofDefinitions definitions
    endAddress := endFrom 0 placed
    redefinitions := redefinitionsAfter [] definitions }

/-- Lines that follow others are placed where those end. -/
theorem statements_append (pc : Nat) (ls ms : List Line) :
    statements pc (ls ++ ms) =
      statements pc ls ++ statements (endFrom pc (statements pc ls)) ms := by
  induction ls generalizing pc with
  | nil => rfl
  | cons l ls ih =>
    simp only [List.cons_append, statements]
    cases h : l.statement? with
    | none => exact ih pc
    | some s =>
      simp only [List.cons_append, List.cons.injEq, true_and]
      exact ih (s.after pc)

end Placement
end RiscvRom
