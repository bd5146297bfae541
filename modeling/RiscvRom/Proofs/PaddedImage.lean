import RiscvRom.Proofs.SameMemory

/-! When an instruction memory is written, and what its hexadecimal image holds.

Both texts are refused for the same reasons, the depth before the length of the program; only the
module also needs a name. The image has a line for every slot, and the numbers on its lines are the
words of the records and then the fill word. Slot, source and line of a record have no part in
it. -/

namespace RiscvRom

namespace Text

/-- A digit as it is written in a word. -/
def isLowerHex (c : Char) : Bool := "0123456789abcdef".toList.contains c

theorem isLowerHex_digitChar {d : Nat} (h : d < 16) : isLowerHex d.digitChar = true := by
  have key : ∀ d : Fin 16, isLowerHex (Nat.digitChar d) = true := by decide
  exact key ⟨d, h⟩

theorem isLowerHex_hexWord (w : BitVec 32) : ∀ c ∈ hexWord w, isLowerHex c = true := by
  intro c hc
  obtain ⟨k, -, rfl⟩ := List.mem_map.1 hc
  exact isLowerHex_digitChar (Nat.mod_lt _ (by decide))

end Text

namespace Rom

variable {g : Geometry} {records : List Record}

/-! ## Refusals -/

theorem Geometry.isValidDepth_iff {depth : Nat} :
    isValidDepth depth = true ↔ ∃ k, 1 ≤ k ∧ depth = 2 ^ k := by
  simp only [isValidDepth, Nat.one_shiftLeft, Bool.and_eq_true, decide_eq_true_eq, beq_iff_eq]
  constructor
  · rintro ⟨htwo, hpow⟩
    refine ⟨depth.log2, ?_, hpow.symm⟩
    rw [← hpow] at htwo
    exact Nat.pos_of_ne_zero fun h => by simp [h] at htwo
  · rintro ⟨k, hk, rfl⟩
    have htwo : 2 ^ 1 ≤ 2 ^ k := Nat.pow_le_pow_right (by decide) hk
    exact ⟨htwo, by rw [Nat.log2_two_pow]⟩

theorem hex_eq_ok {text : Text} :
    hex g records = .ok text ↔
      g.check records.length = .ok () ∧
        text = Text.unlines ((contents g records).map Text.hexWord) := by
  unfold hex
  cases g.check records.length with
  | error e => simp
  | ok u => simp [eq_comm]

theorem hex_eq_error {e : Refusal} :
    hex g records = .error e ↔ g.check records.length = .error e := by
  unfold hex
  cases g.check records.length with
  | error e' => simp
  | ok u => simp

theorem verilog_eq_error {e : Refusal} :
    verilog g records = .error e ↔
      g.check records.length = .error e ∨
      g.check records.length = .ok () ∧ Identifier.isValid g.moduleName = false ∧
        e = .invalidModuleName g.moduleName := by
  unfold verilog
  cases g.check records.length with
  | error e' => simp
  | ok u =>
    by_cases h : Identifier.isValid g.moduleName = true
    · simp [h]
    · simp [h, eq_comm]

/-- **A hexadecimal image is the memory, word for word.** It is written for a depth that is a power
of two from two on and for as many records as fit; a bad depth is reported before records that are
too many, and a module is refused in the same way. The image has as many lines as the depth says,
each of eight digits. Read as numbers, they are the words of the records and the fill word in every
slot behind them. Where the image is written, a module is refused only for its name. -/
theorem hex_is_padded_dump (g : Geometry) (records : List Record) :
    ((∃ text, hex g records = .ok text) ↔
      (∃ k, 1 ≤ k ∧ g.depth = 2 ^ k) ∧ records.length ≤ g.depth) ∧
    ((¬ ∃ k, 1 ≤ k ∧ g.depth = 2 ^ k) → hex g records = .error (.invalidDepth g.depth)) ∧
    ((∃ k, 1 ≤ k ∧ g.depth = 2 ^ k) → g.depth < records.length →
      hex g records = .error (.capacityExceeded records.length g.depth)) ∧
    (∀ e, hex g records = .error e → verilog g records = .error e) ∧
    ∀ text, hex g records = .ok text →
      (∃ ls, text = Text.unlines ls ∧ ls.length = g.depth ∧
        (∀ l ∈ ls, l.length = 8 ∧ ∀ c ∈ l, Text.isLowerHex c = true) ∧
        ls.map (Text.natural? 16) = (records.map (·.word) ++
          List.replicate (g.depth - records.length) g.fill).map fun w => some w.toNat) ∧
      ∀ e, verilog g records = .error e ↔
        Identifier.isValid g.moduleName = false ∧ e = .invalidModuleName g.moduleName := by
  rw [← Geometry.isValidDepth_iff]
  refine ⟨?_, ?_, ?_, ?_, ?_⟩
  · simp only [hex_eq_ok, exists_and_left, exists_eq, and_true, Geometry.check_eq_ok_iff]
  · intro hdepth
    have hbad := Bool.eq_false_of_not_eq_true hdepth
    exact hex_eq_error.2 (Geometry.check_eq_error_iff.2 (.inl ⟨hbad, rfl⟩))
  · intro hdepth hlength
    exact hex_eq_error.2 (Geometry.check_eq_error_iff.2 (.inr ⟨hdepth, hlength, rfl⟩))
  · intro e he
    exact verilog_eq_error.2 (.inl (hex_eq_error.1 he))
  · intro text htext
    obtain ⟨hcheck, rfl⟩ := hex_eq_ok.1 htext
    refine ⟨⟨_, rfl, ?_, ?_, ?_⟩, ?_⟩
    · rw [List.length_map, length_contents (check_eq_ok hcheck)]
    · intro l hl
      obtain ⟨w, -, rfl⟩ := List.mem_map.1 hl
      exact ⟨Text.length_hexWord w, Text.isLowerHex_hexWord w⟩
    · rw [List.map_map]
      exact List.map_congr_left fun w _ => Text.natural?_hexWord w
    · intro e
      simp [verilog_eq_error, hcheck]

-- a program that is too long for a depth that is no depth
example (r : Record) : hex ⟨[], 3, 0⟩ [r, r, r, r] = .error (.invalidDepth 3) := rfl

end Rom
end RiscvRom
