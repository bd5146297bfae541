import RiscvRom.Program
import RiscvRom.Proofs.Parsing
import RiscvRom.Proofs.Position

/-! What a record of an assembled program was made from.

Assembling succeeds with records only if every instruction line gives one, in order. So a record is
known by its place: it holds the word of the instruction on the instruction line of that place,
packed from operand values that were found at the address of that place. -/

namespace RiscvRom

/-! ## Results of a list -/

theorem mapM_cons_eq {ε α β : Type} (f : α → Except ε β) (a : α) (l : List α) :
    (a :: l).mapM f = (f a).bind fun b => (l.mapM f).map (b :: ·) := by
  rw [List.mapM_cons]
  cases f a <;> cases l.mapM f <;> rfl

/-- A list of results that are all good. -/
theorem mapM_eq_ok {ε α β : Type} {f : α → Except ε β} {l : List α} {rs : List β} :
    l.mapM f = .ok rs ↔ l.map f = rs.map .ok := by
  induction l generalizing rs with
  | nil => cases rs <;> simp [pure, Except.pure]
  | cons a l ih =>
    rw [mapM_cons_eq, bind_eq_ok]
    simp only [map_eq_ok, ih]
    cases rs with
    | nil => simp
    | cons c cs => simp

/-! ## From a record to its instruction -/

namespace Instruction

theorem encode_eq_ok {symbols : SymbolTable} {pc : Nat} {i : Instruction} {w : Word} :
    i.encode symbols pc = .ok w ↔
      ∃ f, fields symbols pc i.operands = .ok f ∧ i.mnemonic.encoding.encode f = w :=
  map_eq_ok

end Instruction

namespace PlacedInstruction

theorem record_eq_ok {symbols : SymbolTable} {p : PlacedInstruction} {r : Record} :
    p.record symbols = .ok r ↔
      ∃ w, p.word symbols = .ok w ∧ r = ⟨p.slot, w, p.source, p.line⟩ := by
  unfold record
  cases p.word symbols <;> simp [eq_comm]

theorem word_eq_ok {symbols : SymbolTable} {p : PlacedInstruction} {w : Word} :
    p.word symbols = .ok w ↔
      ∃ i f, Instruction.parse p.instruction = .ok i ∧
        Instruction.fields symbols p.address i.operands = .ok f ∧
        i.mnemonic.encoding.encode f = w := by
  simp only [word, bind_eq_ok, Instruction.encode_eq_ok]
  constructor
  · rintro ⟨i, hi, f, hf, hw⟩
    exact ⟨i, f, hi, hf, hw⟩
  · rintro ⟨i, f, hi, hf, hw⟩
    exact ⟨i, hi, f, hf, hw⟩

theorem records_of_words {symbols : SymbolTable} {ps : List PlacedInstruction} {ws : List Word}
    (h : ps.map (·.word symbols) = ws.map .ok) :
    ∃ records : List Record,
      ps.map (·.record symbols) = records.map .ok ∧ records.map (·.word) = ws := by
  induction ps generalizing ws with
  | nil =>
    obtain rfl : ws = [] := by simpa using h.symm
    exact ⟨[], rfl, rfl⟩
  | cons p ps ih =>
    cases ws with
    | nil => simp at h
    | cons w ws =>
      rw [List.map_cons, List.map_cons, List.cons.injEq] at h
      obtain ⟨records, hrecords, hwords⟩ := ih h.2
      refine ⟨⟨p.slot, w, p.source, p.line⟩ :: records, ?_, by rw [List.map_cons, hwords]⟩
      rw [List.map_cons, hrecords, List.map_cons, record_eq_ok.2 ⟨w, h.1, rfl⟩]

end PlacedInstruction

namespace Program

theorem assembleLines_eq_ok {lines : List Line} {records : List Record} :
    assembleLines lines = .ok records ↔
      (Placement.ofLines lines).instructions.map
        (·.record (Placement.ofLines lines).symbols) = records.map .ok :=
  mapM_eq_ok

theorem length_records {lines : List Line} {records : List Record}
    (h : assembleLines lines = .ok records) :
    records.length = (instructionLines lines).length := by
  have hlength := congrArg List.length (assembleLines_eq_ok.1 h)
  rw [List.length_map, List.length_map, Placement.instructions_ofLines,
    List.length_mapIdx] at hlength
  exact hlength.symm

/-- Assembling succeeds where every instruction line has a word. -/
theorem assembleLines_of_words {lines : List Line} {ws : List Word}
    (h : (Placement.ofLines lines).instructions.map
      (·.word (Placement.ofLines lines).symbols) = ws.map .ok) :
    ∃ records, assembleLines lines = .ok records ∧ records.map (·.word) = ws := by
  obtain ⟨records, hrecords, hwords⟩ := PlacedInstruction.records_of_words h
  exact ⟨records, assembleLines_eq_ok.2 hrecords, hwords⟩

/-- A record and the instruction line in its place. -/
theorem record_at {lines : List Line} {records : List Record}
    (h : assembleLines lines = .ok records) {k : Nat} {r : Record} (hr : records[k]? = some r) :
    ∃ l t i f, (instructionLines lines)[k]? = some (l, t) ∧ Instruction.parse t = .ok i ∧
      Instruction.fields (Placement.ofLines lines).symbols (addressAfter k) i.operands = .ok f ∧
      r = ⟨addressAfter k / bytesPerWord, i.mnemonic.encoding.encode f, l.trimmed, l.number⟩ := by
  have hk := congrArg (·[k]?) (assembleLines_eq_ok.1 h)
  simp only [Placement.instructions_ofLines, List.getElem?_map, List.getElem?_mapIdx, hr,
    Option.map_map] at hk
  obtain ⟨⟨l, t⟩, hlt, hrec⟩ := Option.map_eq_some_iff.1 hk
  obtain ⟨w, hw, rfl⟩ := PlacedInstruction.record_eq_ok.1 hrec
  obtain ⟨i, f, hi, hf, rfl⟩ := PlacedInstruction.word_eq_ok.1 hw
  exact ⟨l, t, i, f, hlt, hi, hf, rfl⟩

end Program
end RiscvRom
