import RiscvRom.Proofs.BitLayout
import RiscvRom.Proofs.Grammar
import RiscvRom.Proofs.Identity
import RiscvRom.Proofs.Recovery

/-! Numbers that are wider than their field.

A number is written with up to 64 bits, cut to a machine word, and then cut to the field that its
instruction has for it. No stretch of a layout reaches beyond the machine word, so the first cut
makes no difference: each stretch has the bits of the number as it was written. Two numbers give the
same word if and only if they agree in the bits that the layout has room for. -/

namespace RiscvRom

/-- The number with bit `k` set. -/
def setBit (k : Nat) (v : Int) : Int := if v / 2 ^ k % 2 = 1 then v else v + 2 ^ k

/-- The number as it stands in a word: the bit that makes a shift arithmetic is one of the bits of
its amount, and always set. -/
def Mnemonic.packed (m : Mnemonic) (v : Int) : Int := if m = .srai then setBit 10 v else v

/-- Both numbers are the same in the bits for which the words of a shape have room. -/
def Shape.Agree (a b : Int) : Shape → Prop
  | .immediate | .load | .store | .jalr => a ≡ b [ZMOD 2 ^ 12]
  | .upper => a ≡ b [ZMOD 2 ^ 20]
  | .branch => a / 2 ≡ b / 2 [ZMOD 2 ^ 12]
  | .jal => a / 2 ≡ b / 2 [ZMOD 2 ^ 20]
  | .register | .fence => True

instance (a b : Int) : (shape : Shape) → Decidable (shape.Agree a b)
  | .immediate | .load | .store | .jalr => inferInstanceAs (Decidable (a ≡ b [ZMOD 2 ^ 12]))
  | .upper => inferInstanceAs (Decidable (a ≡ b [ZMOD 2 ^ 20]))
  | .branch => inferInstanceAs (Decidable (a / 2 ≡ b / 2 [ZMOD 2 ^ 12]))
  | .jal => inferInstanceAs (Decidable (a / 2 ≡ b / 2 [ZMOD 2 ^ 20]))
  | .register | .fence => inferInstanceAs (Decidable True)

/-- Parts of a word that hold a number. -/
def Part.isNumber : Part → Bool
  | .immediate | .selected => true
  | _ => false

/-- Operands of a shape with a number in them: an immediate, an offset, or a target that is no
label and reads as the number. The registers are given in the order in which they are written. -/
inductive Operands.HasNumber (symbols : SymbolTable) :
    Operands → Shape → List Register → Int → Prop where
  | immediate (rd rs1 : Register) (v : Int) :
    HasNumber symbols (.immediate rd rs1 v) .immediate [rd, rs1] v
  | load (rd base : Register) (v : Int) : HasNumber symbols (.load rd ⟨v, base⟩) .load [rd, base] v
  | store (rs2 base : Register) (v : Int) :
    HasNumber symbols (.store rs2 ⟨v, base⟩) .store [rs2, base] v
  | jalr (rd rs1 : Register) (v : Int) : HasNumber symbols (.jalr rd rs1 v) .jalr [rd, rs1] v
  | branch (rs1 rs2 : Register) {v : Int} {target : Text} (hlabel : symbols.find? target = none)
    (hnumber : Operand.immediate target = .ok v) :
    HasNumber symbols (.branch rs1 rs2 target) .branch [rs1, rs2] v
  | upper (rd : Register) (v : Int) : HasNumber symbols (.upper rd v) .upper [rd] v
  | jal (rd : Register) {v : Int} {target : Text} (hlabel : symbols.find? target = none)
    (hnumber : Operand.immediate target = .ok v) : HasNumber symbols (.jal rd target) .jal [rd] v

/-! ## Numbers as machine words -/

theorem ofInt_eq_ofInt_iff {n : Nat} {a b : Int} :
    BitVec.ofInt n a = BitVec.ofInt n b ↔ a ≡ b [ZMOD 2 ^ n] := by
  have hpos : (0 : Int) < 2 ^ n := by positivity
  have ha := Int.emod_nonneg a hpos.ne'
  have hb := Int.emod_nonneg b hpos.ne'
  rw [← BitVec.toNat_inj, BitVec.toNat_ofInt, BitVec.toNat_ofInt, Int.ModEq]
  push_cast
  omega

namespace Instruction

/-- What the cut to a machine word takes away. -/
theorem exists_wordOf_add (v : Int) : ∃ q : Int, v = (wordOf v).toNat + 2 ^ 32 * q := by
  refine ⟨v / 2 ^ 32, ?_⟩
  have hword : (wordOf v).toNat = (v % 2 ^ 32).toNat := BitVec.toNat_ofInt v
  omega

/-- Bits inside the machine word are those of the number itself. -/
theorem extractLsb'_wordOf (v : Int) {j len : Nat} (h : j + len ≤ 32) :
    (wordOf v).extractLsb' j len = BitVec.ofInt len (v / 2 ^ j) := by
  have hpos : (2 : Int) ^ j ≠ 0 := by positivity
  have hsplit : (2 : Int) ^ 32 = 2 ^ j * (2 ^ len * 2 ^ (32 - j - len)) := by
    rw [← pow_add, ← pow_add]
    congr 1
    omega
  obtain ⟨q, hq⟩ := exists_wordOf_add v
  have hdiv : v / 2 ^ j = (wordOf v).toNat / 2 ^ j + 2 ^ len * (2 ^ (32 - j - len) * q) := by
    conv_lhs => rw [hq, hsplit, mul_assoc, mul_assoc, Int.add_mul_ediv_left _ _ hpos]
  calc (wordOf v).extractLsb' j len
      = BitVec.ofInt len (((wordOf v).toNat : Int) / 2 ^ j) := by
        rw [BitVec.extractLsb', Nat.shiftRight_eq_div_pow, ← BitVec.ofInt_natCast]
        push_cast
        rfl
    _ = BitVec.ofInt len (v / 2 ^ j) := by
        rw [ofInt_eq_ofInt_iff, hdiv]
        exact Int.modEq_add_fac_self.symm

theorem wordOf_setBit (v : Int) : wordOf (setBit 10 v) = wordOf v ||| BitVec.twoPow 32 10 := by
  have hbit : (wordOf v).getLsbD 10 = decide (v / 2 ^ 10 % 2 = 1) := wordOf_bit10 v
  unfold setBit
  split
  · rename_i hset
    rw [decide_eq_true hset] at hbit
    ext i hi
    by_cases h : i = 10
    · subst h
      simpa using hbit
    · simp [BitVec.getElem_twoPow, h]
  · rename_i hclear
    rw [decide_eq_false hclear] at hbit
    have hpower : BitVec.ofInt 32 (2 ^ 10) = BitVec.twoPow 32 10 := by decide
    rw [wordOf, BitVec.ofInt_add, hpower]
    -- the bit is free, so that adding it sets it
    apply BitVec.add_eq_or_of_and_eq_zero
    ext i hi
    by_cases h : i = 10
    · subst h
      simpa [wordOf] using hbit
    · simp [BitVec.getElem_twoPow, h]

end Instruction

/-! ## Stretches that hold a number -/

namespace Stretch

/-- No stretch reaches beyond the machine word that its part is taken from. -/
theorem first_add_width_le {l : Layout} : ∀ s ∈ l.stretches, s.first + s.width ≤ 32 := by
  cases l with
  | fixed word => simp [Layout.stretches, width]
  | _ => decide

theorem selected_iff {l : Layout} :
    ∀ s ∈ l.stretches, s.part.isNumber = true → (s.part = .selected ↔ l = .i) := by
  cases l with
  | fixed word => simp [Layout.stretches, Part.isNumber]
  | _ => decide

end Stretch

namespace Encoding

open Instruction

theorem partValue_number {m : Mnemonic} {s : Stretch} (hs : s ∈ m.encoding.layout.stretches)
    (hn : s.part.isNumber = true) (f : Fields) (v : Int) :
    m.encoding.partValue { f with imm := wordOf v } s.part = wordOf (m.packed v) := by
  have hselected := Stretch.selected_iff s hs hn
  unfold Mnemonic.packed
  by_cases hl : m.encoding.layout = .i
  · rw [hselected.2 hl]
    change wordOf v ||| m.encoding.selector = _
    split
    · rename_i hm
      rw [hm, selector_srai, wordOf_setBit]
    · rename_i hm
      rw [selector_eq_zero hl hm]
      exact BitVec.or_zero
  · have hpart : s.part = .immediate := by
      cases hpart : s.part with
      | immediate => rfl
      | selected => exact absurd (hselected.1 hpart) hl
      | _ =>
        rw [hpart] at hn
        cases hn
    have hm : m ≠ .srai := by
      rintro rfl
      exact hl rfl
    rw [hpart, if_neg hm]
    rfl

/-- A part that holds no number does not look at the immediate. -/
theorem partValue_congr (e : Encoding) {p : Part} (h : p.isNumber = false) (f : Fields)
    (imm imm' : Word) :
    e.partValue { f with imm := imm } p = e.partValue { f with imm := imm' } p := by
  cases p <;> first | rfl | cases h

/-- The bits of a stretch that holds a number are those of the number as it was written. -/
theorem extractLsb'_encode_number {m : Mnemonic} {s : Stretch}
    (hs : s ∈ m.encoding.layout.stretches) (hn : s.part.isNumber = true) (f : Fields) (v : Int) :
    (m.encoding.encode { f with imm := wordOf v }).extractLsb' s.bottom s.width =
      BitVec.ofInt s.width (m.packed v / 2 ^ s.first) := by
  rw [extractLsb'_encode _ _ hs, partValue_number hs hn,
    extractLsb'_wordOf _ (Stretch.first_add_width_le s hs)]

/-- Words of a row are the same if all their stretches are. -/
theorem encode_eq_of_stretches {e : Encoding} {f f' : Fields}
    (h : ∀ s ∈ e.layout.stretches, (e.encode f).extractLsb' s.bottom s.width =
      (e.encode f').extractLsb' s.bottom s.width) : e.encode f = e.encode f' := by
  apply BitVec.eq_of_getLsbD_eq
  intro k hk
  obtain ⟨s, hs⟩ := Stretch.exists_filter_covers e.layout ⟨k, hk⟩
  obtain ⟨hmem, hcovers⟩ := List.mem_filter.1 (hs ▸ List.mem_singleton_self s)
  simp only [Stretch.covers, Bool.and_eq_true, decide_eq_true_eq] at hcovers
  have hbit := Word.getLsbD_of_extractLsb'_eq (h s hmem) hcovers.1
    (by rw [Stretch.width]; omega)
  rwa [Nat.add_sub_cancel' hcovers.1] at hbit

/-- Two numbers give the same word if they agree on every stretch that holds a number. -/
theorem encode_eq_iff_stretches (m : Mnemonic) (f : Fields) (v v' : Int) :
    m.encoding.encode { f with imm := wordOf v } = m.encoding.encode { f with imm := wordOf v' } ↔
      ∀ s ∈ m.encoding.layout.stretches, s.part.isNumber = true →
        m.packed v / 2 ^ s.first ≡ m.packed v' / 2 ^ s.first [ZMOD 2 ^ s.width] := by
  constructor
  · intro h s hs hn
    rw [← ofInt_eq_ofInt_iff, ← extractLsb'_encode_number hs hn f v, h,
      extractLsb'_encode_number hs hn]
  · intro h
    refine encode_eq_of_stretches fun s hs => ?_
    cases hn : s.part.isNumber with
    | false =>
      rw [extractLsb'_encode _ _ hs, extractLsb'_encode _ _ hs, partValue_congr _ hn]
    | true =>
      rw [extractLsb'_encode_number hs hn, extractLsb'_encode_number hs hn]
      exact ofInt_eq_ofInt_iff.2 (h s hs hn)

end Encoding

/-- The stretches of a number are together the field that the shape is said to have. -/
theorem Shape.forall_stretches_iff {shape : Shape} {l : Layout} (h : shape.fits l = true)
    (a b : Int) :
    (∀ s ∈ l.stretches, s.part.isNumber = true →
      a / 2 ^ s.first ≡ b / 2 ^ s.first [ZMOD 2 ^ s.width]) ↔ shape.Agree a b := by
  -- one congruence for each stretch on the left, and one for the whole field on the right
  cases shape <;> cases l <;> cases h <;>
    simp [Layout.stretches, Stretch.width, Part.isNumber, Agree, Int.ModEq]
  case store.s.refl => omega
  case branch.b.refl => omega
  case jal.j.refl => omega

namespace Instruction

theorem distance_of_number {symbols : SymbolTable} {target : Text} {v : Int}
    (hlabel : symbols.find? target = none) (hnumber : Operand.immediate target = .ok v) (pc : Nat) :
    symbols.distance pc target = .ok v := by
  rw [SymbolTable.distance, hlabel]
  exact hnumber

/-- Only the immediate tells two numbers apart. -/
theorem fields_of_hasNumber {symbols : SymbolTable} {shape : Shape} {regs : List Register}
    {v v' : Int} {ops ops' : Operands} (h : ops.HasNumber symbols shape regs v)
    (h' : ops'.HasNumber symbols shape regs v') (pc : Nat) :
    ∃ f : Fields, fields symbols pc ops = .ok { f with imm := wordOf v } ∧
      fields symbols pc ops' = .ok { f with imm := wordOf v' } := by
  cases h with
  | immediate rd rs1 => cases h'; exact ⟨⟨rd, rs1, .zero, 0⟩, rfl, rfl⟩
  | load rd base => cases h'; exact ⟨⟨rd, base, .zero, 0⟩, rfl, rfl⟩
  | store rs2 base => cases h'; exact ⟨⟨.zero, base, rs2, 0⟩, rfl, rfl⟩
  | jalr rd rs1 => cases h'; exact ⟨⟨rd, rs1, .zero, 0⟩, rfl, rfl⟩
  | upper rd => cases h'; exact ⟨⟨rd, .zero, .zero, 0⟩, rfl, rfl⟩
  | branch rs1 rs2 hlabel hnumber =>
    cases h' with
    | branch _ _ hlabel' hnumber' =>
      refine ⟨⟨.zero, rs1, rs2, 0⟩, ?_, ?_⟩
      · rw [fields, distance_of_number hlabel hnumber]
        rfl
      · rw [fields, distance_of_number hlabel' hnumber']
        rfl
  | jal rd hlabel hnumber =>
    cases h' with
    | jal _ hlabel' hnumber' =>
      refine ⟨⟨rd, .zero, .zero, 0⟩, ?_, ?_⟩
      · rw [fields, distance_of_number hlabel hnumber]
        rfl
      · rw [fields, distance_of_number hlabel' hnumber']
        rfl

/-- **A number is cut to its field and no further.** Instructions that differ in their number only
are all encoded, and to the same word if and only if the two numbers agree in the bits that the
field has: for an arithmetic shift, once the selecting bit is set in both. Each stretch of the word
that holds the number has the bits of the whole number, as if it had never been cut to a machine
word. -/
theorem same_word_iff_fields_agree {symbols : SymbolTable} {m : Mnemonic} {regs : List Register}
    {v v' : Int} {ops ops' : Operands} (h : ops.HasNumber symbols m.shape regs v)
    (h' : ops'.HasNumber symbols m.shape regs v') (pc : Nat) :
    ∃ w w', encode symbols pc ⟨m, ops⟩ = .ok w ∧ encode symbols pc ⟨m, ops'⟩ = .ok w' ∧
      (w = w' ↔ m.shape.Agree (m.packed v) (m.packed v')) ∧
      ∀ s ∈ m.encoding.layout.stretches, s.part.isNumber = true →
        w.extractLsb' s.bottom s.width = BitVec.ofInt s.width (m.packed v / 2 ^ s.first) := by
  obtain ⟨f, hf, hf'⟩ := fields_of_hasNumber h h' pc
  refine ⟨m.encoding.encode { f with imm := wordOf v },
    m.encoding.encode { f with imm := wordOf v' }, ?_, ?_, ?_, ?_⟩
  · rw [encode, hf]
    rfl
  · rw [encode, hf']
    rfl
  · rw [Encoding.encode_eq_iff_stretches, Shape.forall_stretches_iff m.shape_fits]
  · intro s hs hn
    exact Encoding.extractLsb'_encode_number hs hn f v

/-- Shift amounts that differ in the selecting bit and beyond the machine word, a target and one
out of reach that stands for it, and two targets that are told apart. -/
theorem same_word_iff_fields_agree_extremes :
    (∃ w, encode [] 4 ⟨.srai, .immediate ⟨1⟩ ⟨2⟩ (-0x8000000000000000)⟩ = .ok w ∧
      encode [] 4 ⟨.srai, .immediate ⟨1⟩ ⟨2⟩ 0x100000400⟩ = .ok w) ∧
    (∃ w, encode [] 4 ⟨.jal, .jal ⟨1⟩ "-1".toList⟩ = .ok w ∧
      encode [] 4 ⟨.jal, .jal ⟨1⟩ "0x1FFFFE".toList⟩ = .ok w) ∧
    ∃ w w', encode [] 4 ⟨.beq, .branch ⟨1⟩ ⟨2⟩ "1".toList⟩ = .ok w ∧
      encode [] 4 ⟨.beq, .branch ⟨1⟩ ⟨2⟩ "2".toList⟩ = .ok w' ∧ w ≠ w' := by
  have least : Operands.HasNumber [] (.immediate ⟨1⟩ ⟨2⟩ (-0x8000000000000000))
      Mnemonic.srai.shape [⟨1⟩, ⟨2⟩] (-0x8000000000000000) := .immediate _ _ _
  have wide : Operands.HasNumber [] (.immediate ⟨1⟩ ⟨2⟩ 0x100000400)
      Mnemonic.srai.shape [⟨1⟩, ⟨2⟩] 0x100000400 := .immediate _ _ _
  have back : Operands.HasNumber [] (.jal ⟨1⟩ "-1".toList) Mnemonic.jal.shape [⟨1⟩] (-1) :=
    .jal _ rfl rfl
  have far : Operands.HasNumber [] (.jal ⟨1⟩ "0x1FFFFE".toList) Mnemonic.jal.shape [⟨1⟩]
      0x1FFFFE := .jal _ rfl rfl
  have one : Operands.HasNumber [] (.branch ⟨1⟩ ⟨2⟩ "1".toList) Mnemonic.beq.shape [⟨1⟩, ⟨2⟩] 1 :=
    .branch _ _ rfl rfl
  have two : Operands.HasNumber [] (.branch ⟨1⟩ ⟨2⟩ "2".toList) Mnemonic.beq.shape [⟨1⟩, ⟨2⟩] 2 :=
    .branch _ _ rfl rfl
  refine ⟨?_, ?_, ?_⟩
  · obtain ⟨w, w', hw, hw', hiff, -⟩ := same_word_iff_fields_agree least wide 4
    exact ⟨w, hw, hiff.2 (by decide) ▸ hw'⟩
  · obtain ⟨w, w', hw, hw', hiff, -⟩ := same_word_iff_fields_agree back far 4
    exact ⟨w, hw, hiff.2 (by decide) ▸ hw'⟩
  · obtain ⟨w, w', hw, hw', hiff, -⟩ := same_word_iff_fields_agree one two 4
    exact ⟨w, w', hw, hw', mt hiff.1 (by decide)⟩

end Instruction
end RiscvRom
