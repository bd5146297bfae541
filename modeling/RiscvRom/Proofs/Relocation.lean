import RiscvRom.Proofs.Target

/-! Programs that are put one after the other.

Only the distances to labels depend on where an instruction stands, and a distance does not change
when the instruction and the label move by the same number of bytes. So the words of a program are
the same after another one, as long as neither of the two refers to a label of the other: labels
that both define but do not refer to across are no obstacle, and neither are labels that read as
numbers. -/

namespace RiscvRom

/-! ## What the word of an instruction depends on -/

namespace Instruction

/-- The target that is written in the text of a branch or a jump. -/
def target? (t : Text) : Option Text :=
  match parse t with
  | .ok i => i.operands.target?
  | .error _ => none

/-- The address of an instruction and those of the labels matter only in the distance to its
target. -/
theorem fields_congr {symbols symbols' : SymbolTable} {pc pc' : Nat} {ops : Operands}
    (h : ∀ t, ops.target? = some t → symbols.distance pc t = symbols'.distance pc' t) :
    fields symbols pc ops = fields symbols' pc' ops := by
  cases ops with
  | branch rs1 rs2 t => rw [fields, fields, h t rfl]
  | jal rd t => rw [fields, fields, h t rfl]
  | _ => rfl

end Instruction

namespace PlacedInstruction

theorem word_congr {symbols symbols' : SymbolTable} {p p' : PlacedInstruction}
    (hp : p.instruction = p'.instruction)
    (h : ∀ t, Instruction.target? p.instruction = some t →
      symbols.distance p.address t = symbols'.distance p'.address t) :
    p.word symbols = p'.word symbols' := by
  unfold word
  rw [← hp]
  unfold Instruction.target? at h
  cases hi : Instruction.parse p.instruction with
  | error fault => rfl
  | ok i =>
    rw [hi] at h
    show (Instruction.fields _ _ _).map _ = (Instruction.fields _ _ _).map _
    rw [Instruction.fields_congr h]

/-- The instruction behind `n` others. -/
def moved (n : Nat) (p : PlacedInstruction) : PlacedInstruction :=
  { p with address := bytesPerWord * n + p.address }

theorem slot_moved (n : Nat) (p : PlacedInstruction) : (p.moved n).slot = n + p.slot := by
  show (4 * n + p.address) / 4 = n + p.address / 4
  omega

end PlacedInstruction

/-- The record behind `n` others. -/
def Record.moved (n : Nat) (r : Record) : Record := { r with slot := n + r.slot }

namespace PlacedInstruction

theorem record_congr {symbols symbols' : SymbolTable} {p : PlacedInstruction}
    (h : p.word symbols = p.word symbols') : p.record symbols = p.record symbols' := by
  rw [record, record, h]

theorem record_moved {symbols symbols' : SymbolTable} {n : Nat} {p : PlacedInstruction}
    (h : (p.moved n).word symbols' = p.word symbols) :
    (p.moved n).record symbols' = (p.record symbols).map (Record.moved n) := by
  rw [record, record, h, slot_moved]
  cases p.word symbols <;> rfl

end PlacedInstruction

/-! ## Two programs, one after the other -/

namespace Program

/-- The targets of the branches and jumps on the lines. -/
def targets (lines : List Line) : List Text :=
  (instructionLines lines).filterMap fun p => Instruction.target? p.2

theorem mem_targets {lines : List Line} {p : PlacedInstruction}
    (hp : p ∈ (Placement.ofLines lines).instructions) {t : Text}
    (ht : Instruction.target? p.instruction = some t) : t ∈ targets lines := by
  rw [Placement.instructions_ofLines, List.mem_mapIdx] at hp
  obtain ⟨k, hk, rfl⟩ := hp
  exact List.mem_filterMap.2 ⟨_, List.getElem_mem hk, ht⟩

theorem addressAfter_add {m n : Nat} (h : m + n < 2 ^ 30) :
    addressAfter (m + n) = bytesPerWord * m + addressAfter n := by
  rw [addressAfter_eq h, addressAfter_eq (by omega), Nat.mul_add]
  rfl

section
variable {first second : List Line} {t : Text}

/-- A name that the second program does not define is looked up as in the first. -/
theorem find?_symbols_append_first (h : t ∉ labels second) :
    (Placement.ofLines (first ++ second)).symbols.find? t =
      (Placement.ofLines first).symbols.find? t := by
  show (SymbolTable.ofDefinitions ((Placement.statements 0 (first ++ second)).filterMap
    PlacedStatement.definition?)).find? t = _
  rw [Placement.statements_append, List.filterMap_append, SymbolTable.ofDefinitions,
    List.foldl_append]
  refine SymbolTable.find?_foldl_define ?_ _
  intro s hs hname
  apply h
  rw [← hname, ← Placement.map_name_definitions]
  exact List.mem_map_of_mem hs

/-- A name that the first program does not define is looked up as in the second, behind the
instructions of the first. -/
theorem find?_symbols_append_second (h : t ∉ labels first)
    (hsize : (instructionLines first).length + (instructionLines second).length < 2 ^ 30) :
    (Placement.ofLines (first ++ second)).symbols.find? t =
      ((Placement.ofLines second).symbols.find? t).map fun s =>
        { s with address := bytesPerWord * (instructionLines first).length + s.address } := by
  by_cases ht : t ∈ labels second
  · -- the last definition in the second program is also the last in both
    obtain ⟨before, l, after, rfl, hl, hlast⟩ := exists_lastDefinition (mem_labels.1 ht)
    rw [← List.append_assoc, Placement.find?_symbols_last hl hlast,
      Placement.find?_symbols_last hl hlast]
    rw [instructionLines_append, List.length_append] at hsize ⊢
    rw [addressAfter_add (by omega)]
    rfl
  · rw [find?_symbols_append_first ht, Placement.find?_symbols_of_notMem h,
      Placement.find?_symbols_of_notMem ht]
    rfl

theorem distance_append_first (h : t ∉ labels second) (pc : Nat) :
    (Placement.ofLines (first ++ second)).symbols.distance pc t =
      (Placement.ofLines first).symbols.distance pc t := by
  rw [SymbolTable.distance, SymbolTable.distance, find?_symbols_append_first h]

/-- Instruction and label have moved by the same number of bytes. -/
theorem distance_append_second (h : t ∉ labels first)
    (hsize : (instructionLines first).length + (instructionLines second).length < 2 ^ 30)
    (pc : Nat) :
    (Placement.ofLines (first ++ second)).symbols.distance
        (bytesPerWord * (instructionLines first).length + pc) t =
      (Placement.ofLines second).symbols.distance pc t := by
  rw [SymbolTable.distance, SymbolTable.distance, find?_symbols_append_second h hsize]
  cases (Placement.ofLines second).symbols.find? t with
  | none => rfl
  | some s =>
    simp only [Option.map_some, Except.ok.injEq]
    omega

/-- The instructions of the second program stand behind those of the first. -/
theorem instructions_append
    (hsize : (instructionLines first).length + (instructionLines second).length < 2 ^ 30) :
    (Placement.ofLines (first ++ second)).instructions =
      (Placement.ofLines first).instructions ++
        (Placement.ofLines second).instructions.map
          (PlacedInstruction.moved (instructionLines first).length) := by
  rw [Placement.instructions_ofLines, Placement.instructions_ofLines,
    Placement.instructions_ofLines, instructionLines_append, List.mapIdx_append]
  congr 1
  refine List.ext_getElem? fun k => ?_
  rw [List.getElem?_map, List.getElem?_mapIdx, List.getElem?_mapIdx]
  cases hk : (instructionLines second)[k]? with
  | none => rfl
  | some p =>
    have hlt : k < (instructionLines second).length := (List.getElem?_eq_some_iff.1 hk).1
    rw [Nat.add_comm, addressAfter_add (by omega)]
    rfl

/-- What the instructions of the first program give is not changed by the second. -/
theorem records_append_first (h : ∀ t ∈ targets first, t ∉ labels second) :
    (Placement.ofLines first).instructions.map
        (·.record (Placement.ofLines (first ++ second)).symbols) =
      (Placement.ofLines first).instructions.map
        (·.record (Placement.ofLines first).symbols) := by
  refine List.map_congr_left fun p hp => PlacedInstruction.record_congr ?_
  refine PlacedInstruction.word_congr rfl fun t ht => ?_
  exact distance_append_first (h t (mem_targets hp ht)) _

/-- What the instructions of the second program give is only moved. -/
theorem records_append_second (h : ∀ t ∈ targets second, t ∉ labels first)
    (hsize : (instructionLines first).length + (instructionLines second).length < 2 ^ 30) :
    ((Placement.ofLines second).instructions.map
        (PlacedInstruction.moved (instructionLines first).length)).map
          (·.record (Placement.ofLines (first ++ second)).symbols) =
      ((Placement.ofLines second).instructions.map
        (·.record (Placement.ofLines second).symbols)).map
          (Except.map (Record.moved (instructionLines first).length)) := by
  rw [List.map_map, List.map_map]
  refine List.map_congr_left fun p hp => PlacedInstruction.record_moved ?_
  refine PlacedInstruction.word_congr rfl fun t ht => ?_
  exact distance_append_second (h t (mem_targets hp ht)) hsize _

end

/-- **Programs can be put one after the other.** Two programs that assemble, and that do not refer
to labels of each other, assemble as one program: to the records of the first and, behind them,
the records of the second, which keep their words and are moved up by the number of the others. -/
theorem assembleLines_append_of_disjoint {first second : List Line} {records records' : List Record}
    (hfirst : assembleLines first = .ok records) (hsecond : assembleLines second = .ok records')
    (hsize : (instructionLines first).length + (instructionLines second).length < 2 ^ 30)
    (hdisjoint : ∀ t ∈ targets first, t ∉ labels second)
    (hdisjoint' : ∀ t ∈ targets second, t ∉ labels first) :
    assembleLines (first ++ second) =
      .ok (records ++ records'.map (Record.moved records.length)) := by
  rw [assembleLines_eq_ok, instructions_append hsize, List.map_append, List.map_append,
    records_append_first hdisjoint, records_append_second hdisjoint' hsize,
    assembleLines_eq_ok.1 hfirst, assembleLines_eq_ok.1 hsecond, length_records hfirst,
    List.map_map, List.map_map]
  rfl

/-- Two programs that define the same label without referring to it, the second with a label that
reads as a number. -/
theorem assembleLines_append_of_disjoint_pad :
    assembleLines (Source.lines "pad:\ntop: bne x1, x0, top\njal x0, 8".toList ++
        Source.lines "pad: jal x0, 16\n16:".toList) =
      .ok [⟨0, 0x00009063, "top: bne x1, x0, top".toList, 2⟩,
        ⟨1, 0x0080006F, "jal x0, 8".toList, 3⟩, ⟨2, 0x0040006F, "pad: jal x0, 16".toList, 1⟩] := by
  have hfirst : assembleLines (Source.lines "pad:\ntop: bne x1, x0, top\njal x0, 8".toList) =
      .ok [⟨0, 0x00009063, "top: bne x1, x0, top".toList, 2⟩,
        ⟨1, 0x0080006F, "jal x0, 8".toList, 3⟩] := rfl
  have hsecond : assembleLines (Source.lines "pad: jal x0, 16\n16:".toList) =
      .ok [⟨0, 0x0040006F, "pad: jal x0, 16".toList, 1⟩] := rfl
  exact assembleLines_append_of_disjoint hfirst hsecond (by decide) (by decide) (by decide)

end Program
end RiscvRom
