import RiscvRom.Instruction.Encoding
import RiscvRom.Rom.Identifier
import RiscvRom.Text.Numeral

/-! The size of an instruction memory, its name, and the word in its unused slots.

A depth is a power of two from two on, so that a slice of the byte address selects the slot. -/

namespace RiscvRom.Rom

def standardModuleName : Text := "generated_imem".toList

def standardDepth : Nat := 256

structure Geometry where
  moduleName : Text := standardModuleName
  depth : Nat := standardDepth
  fill : Word := nopWord
  deriving DecidableEq

/-- Why a program cannot be stored. -/
inductive Refusal where
  | capacityExceeded (required capacity : Nat)
  | invalidDepth (depth : Nat)
  | invalidModuleName (name : Text)
  deriving DecidableEq

def Refusal.message : Refusal → Text
  | .capacityExceeded required capacity =>
    "program needs ".toList ++ Text.decimal required ++ " words but the ROM holds ".toList ++
      Text.decimal capacity
  | .invalidDepth depth =>
    "ROM depth must be a power of two of at least 2, got ".toList ++ Text.decimal depth
  | .invalidModuleName name => "invalid Verilog module name: '".toList ++ name ++ "'".toList

/-- The number of zero bits below the lowest set bit of a 64-bit number; zero has 64. -/
def trailingZeros (n : Nat) : Nat := ((List.range 64).takeWhile fun k => !n.testBit k).length

namespace Geometry

def isValidDepth (depth : Nat) : Bool := 2 ≤ depth && 1 <<< depth.log2 == depth

/-- The highest bit of a byte address that selects a slot; the lowest is bit 2. -/
def topAddressBit (g : Geometry) : Nat := trailingZeros g.depth + 1

/-- A bad depth is refused before a program that is too long for it. -/
def check (g : Geometry) (required : Nat) : Except Refusal Unit :=
  if !isValidDepth g.depth then .error (.invalidDepth g.depth)
  else if g.depth < required then .error (.capacityExceeded required g.depth)
  else .ok ()

theorem check_eq_ok_iff {g : Geometry} {required : Nat} :
    g.check required = .ok () ↔ isValidDepth g.depth = true ∧ required ≤ g.depth := by
  unfold check
  cases isValidDepth g.depth with
  | false => simp
  | true => simp

theorem check_eq_error_iff {g : Geometry} {required : Nat} {e : Refusal} :
    g.check required = .error e ↔
      isValidDepth g.depth = false ∧ e = .invalidDepth g.depth ∨
      isValidDepth g.depth = true ∧ g.depth < required ∧
        e = .capacityExceeded required g.depth := by
  unfold check
  cases isValidDepth g.depth with
  | false => simp [eq_comm]
  | true =>
    by_cases h : g.depth < required
    · simp [h, eq_comm]
    · simp [h]

end Geometry
end RiscvRom.Rom
