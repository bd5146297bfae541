import RiscvRom.Proofs.Field

/-! The layouts, bit by bit.

A layout is a table of stretches: some bits of the word, and the part of the instruction that stands
there. In every layout each of the 32 bits lies in just one stretch, and the bit that is packed is
the bit of that part, whatever else the instruction has. This holds for any selecting bytes, not
only for those of the instruction table. -/

namespace RiscvRom

/-- What stands in some bits of a word. `selected` is the immediate together with the `funct7` of
the row, if there is one, from bit 5 on. -/
inductive Part where
  | opcode | funct3 | funct7 | rd | rs1 | rs2 | immediate | selected
  | constant (word : Word)
  deriving DecidableEq

/-- Bits `top` down to `bottom` of a word hold a part from its bit `first` on. -/
structure Stretch where
  top : Nat
  bottom : Nat
  part : Part
  first : Nat
  deriving DecidableEq

namespace Stretch

def covers (s : Stretch) (k : Nat) : Bool := s.bottom ≤ k && k ≤ s.top

def width (s : Stretch) : Nat := s.top + 1 - s.bottom

end Stretch

/-- The table of layouts, each from bit 31 down to bit 0. -/
def Layout.stretches : Layout → List Stretch
  | .r =>
    [⟨31, 25, .funct7, 0⟩, ⟨24, 20, .rs2, 0⟩, ⟨19, 15, .rs1, 0⟩, ⟨14, 12, .funct3, 0⟩,
     ⟨11, 7, .rd, 0⟩, ⟨6, 0, .opcode, 0⟩]
  | .i =>
    [⟨31, 20, .selected, 0⟩, ⟨19, 15, .rs1, 0⟩, ⟨14, 12, .funct3, 0⟩, ⟨11, 7, .rd, 0⟩,
     ⟨6, 0, .opcode, 0⟩]
  | .s =>
    [⟨31, 25, .immediate, 5⟩, ⟨24, 20, .rs2, 0⟩, ⟨19, 15, .rs1, 0⟩, ⟨14, 12, .funct3, 0⟩,
     ⟨11, 7, .immediate, 0⟩, ⟨6, 0, .opcode, 0⟩]
  | .b =>
    [⟨31, 31, .immediate, 12⟩, ⟨30, 25, .immediate, 5⟩, ⟨24, 20, .rs2, 0⟩, ⟨19, 15, .rs1, 0⟩,
     ⟨14, 12, .funct3, 0⟩, ⟨11, 8, .immediate, 1⟩, ⟨7, 7, .immediate, 11⟩, ⟨6, 0, .opcode, 0⟩]
  | .u => [⟨31, 12, .immediate, 0⟩, ⟨11, 7, .rd, 0⟩, ⟨6, 0, .opcode, 0⟩]
  | .j =>
    [⟨31, 31, .immediate, 20⟩, ⟨30, 21, .immediate, 1⟩, ⟨20, 20, .immediate, 11⟩,
     ⟨19, 12, .immediate, 12⟩, ⟨11, 7, .rd, 0⟩, ⟨6, 0, .opcode, 0⟩]
  | .fixed word => [⟨31, 0, .constant word, 0⟩]

namespace Stretch

theorem exists_filter_covers (l : Layout) (k : Fin 32) :
    ∃ s, l.stretches.filter (·.covers k) = [s] := by
  rw [← List.length_eq_one_iff]
  cases l with
  | fixed word =>
    have hall : covers ⟨31, 0, .constant word, 0⟩ k = true := by
      simp only [covers, Nat.zero_le, decide_true, Bool.true_and, decide_eq_true_eq]
      omega
    simp [Layout.stretches, hall]
  | _ => revert k; decide

end Stretch

/-- The value of a part as a word; a selecting byte that the row does not have is zero. -/
def Encoding.partValue (e : Encoding) (f : Fields) : Part → Word
  | .opcode => e.opcode.setWidth 32
  | .funct3 => (e.funct3.getD 0).setWidth 32
  | .funct7 => (e.funct7.getD 0).setWidth 32
  | .rd => f.rd.index.setWidth 32
  | .rs1 => f.rs1.index.setWidth 32
  | .rs2 => f.rs2.index.setWidth 32
  | .immediate => f.imm
  | .selected => f.imm ||| (e.funct7.getD 0).setWidth 32 <<< 5
  | .constant word => word

namespace Word

theorem extractLsb'_zero_setWidth {n : Nat} (x : BitVec n) {len : Nat} (h : len ≤ 32) :
    (x.setWidth 32).extractLsb' 0 len = x.setWidth len := by
  rw [← BitVec.setWidth_eq_extractLsb' h, BitVec.setWidth_setWidth_of_le x h]

theorem getLsbD_of_extractLsb'_eq {w v : Word} {j m len k : Nat}
    (h : w.extractLsb' j len = v.extractLsb' m len) (hj : j ≤ k) (hk : k < j + len) :
    w.getLsbD k = v.getLsbD (m + (k - j)) := by
  have hbit := congrArg (·.getLsbD (k - j)) h
  simpa [show k - j < len by omega, show j + (k - j) = k by omega] using hbit

end Word

namespace Encoding

open Word

theorem selector_eq (e : Encoding) : e.selector = (e.funct7.getD 0).setWidth 32 <<< 5 := rfl

/-- The bits of a stretch are those of its part. -/
theorem extractLsb'_encode (e : Encoding) (f : Fields) {s : Stretch}
    (hs : s ∈ e.layout.stretches) :
    (e.encode f).extractLsb' s.bottom s.width =
      (e.partValue f s.part).extractLsb' s.first s.width := by
  unfold encode
  cases hl : e.layout <;>
    simp only [hl, Layout.stretches, List.mem_cons, List.not_mem_nil, or_false] at hs
  case r =>
    rcases hs with rfl | rfl | rfl | rfl | rfl | rfl <;>
      simp [Stretch.width, partValue, packR, BitVec.extractLsb'_or, extractLsb'_zero_setWidth]
  case i =>
    rcases hs with rfl | rfl | rfl | rfl | rfl <;>
      simp [Stretch.width, partValue, packI, BitVec.extractLsb'_or, extractLsb'_zero_setWidth,
        selector_eq]
  case s =>
    rcases hs with rfl | rfl | rfl | rfl | rfl | rfl <;>
      simp [Stretch.width, partValue, packS, BitVec.extractLsb'_or, extractLsb'_zero_setWidth]
  case b =>
    rcases hs with rfl | rfl | rfl | rfl | rfl | rfl | rfl | rfl <;>
      simp [Stretch.width, partValue, packB, BitVec.extractLsb'_or, extractLsb'_zero_setWidth]
  case u =>
    rcases hs with rfl | rfl | rfl <;>
      simp [Stretch.width, partValue, packU, BitVec.extractLsb'_or, extractLsb'_zero_setWidth]
  case j =>
    rcases hs with rfl | rfl | rfl | rfl | rfl | rfl <;>
      simp [Stretch.width, partValue, packJ, BitVec.extractLsb'_or, extractLsb'_zero_setWidth]
  case fixed word =>
    subst hs
    rfl

/-- **Every bit of a word is the one that the table of layouts says**, for any selecting bytes and
any operand values: one stretch of the layout covers the bit, and the bit is that of the part which
the stretch holds. -/
theorem encode_bit_by_layout (e : Encoding) (f : Fields) (k : Fin 32) :
    ∃ s, e.layout.stretches.filter (·.covers k) = [s] ∧
      (e.encode f).getLsbD k = (e.partValue f s.part).getLsbD (s.first + (k - s.bottom)) := by
  obtain ⟨s, hs⟩ := Stretch.exists_filter_covers e.layout k
  refine ⟨s, hs, ?_⟩
  obtain ⟨hmem, hcovers⟩ := List.mem_filter.1 (hs ▸ List.mem_singleton_self s)
  simp only [Stretch.covers, Bool.and_eq_true, decide_eq_true_eq] at hcovers
  refine getLsbD_of_extractLsb'_eq (extractLsb'_encode e f hmem) hcovers.1 ?_
  rw [Stretch.width]
  omega

-- selecting bytes with all bits set keep to their fields
example : Encoding.encode ⟨.srai, .i, 0xFF, some 0xFF, some 0xFF⟩ {} = 0xFE00707F := by decide

end Encoding
end RiscvRom
