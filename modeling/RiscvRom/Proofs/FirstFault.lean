import RiscvRom.Proofs.Target

/-! Assembling all of a program, or reporting the first fault in it.

An instruction line has a word if its text can be read and its target is resolved, with all labels
of the program known; otherwise it has a fault. Assembling gives one record for each line if all of
them have words. If not, it reports the first line that has none, with the fault of that line, and
the lines after it do not matter. -/

namespace RiscvRom

/-! ## The first error of a list -/

/-- The error of a list is that of its first bad result. -/
theorem mapM_eq_error {ε α β : Type} {f : α → Except ε β} {l : List α} {e : ε} :
    l.mapM f = .error e ↔
      ∃ (k : Nat) (a : α), l[k]? = some a ∧ f a = .error e ∧
        ∀ j < k, ∀ b, l[j]? = some b → ∃ c, f b = .ok c := by
  induction l with
  | nil => simp [pure, Except.pure]
  | cons a l ih =>
    rw [mapM_cons_eq]
    cases ha : f a with
    | error e' =>
      constructor
      · intro h
        obtain rfl : e' = e := Except.error.inj h
        exact ⟨0, a, rfl, ha, by simp⟩
      · rintro ⟨k, a', hk, ha', hbefore⟩
        cases k with
        | zero =>
          obtain rfl : a = a' := by simpa using hk
          obtain rfl : e' = e := Except.error.inj (ha.symm.trans ha')
          rfl
        | succ k =>
          -- the head would have to be good, as it stands before another bad one
          obtain ⟨c, hc⟩ := hbefore 0 (by omega) a rfl
          rw [ha] at hc
          cases hc
    | ok c =>
      refine map_eq_error.trans (ih.trans ?_)
      constructor
      · rintro ⟨k, a', hk, ha', hbefore⟩
        refine ⟨k + 1, a', hk, ha', ?_⟩
        intro j hj b hb
        cases j with
        | zero =>
          obtain rfl : a = b := by simpa using hb
          exact ⟨c, ha⟩
        | succ j => exact hbefore j (by omega) b hb
      · rintro ⟨k, a', hk, ha', hbefore⟩
        cases k with
        | zero =>
          obtain rfl : a = a' := by simpa using hk
          rw [ha] at ha'
          cases ha'
        | succ k => exact ⟨k, a', hk, ha', fun j hj b hb => hbefore (j + 1) (by omega) b hb⟩

theorem exists_mapM_eq_ok {ε α β : Type} {f : α → Except ε β} {l : List α} :
    (∃ rs, l.mapM f = .ok rs) ↔ ∀ (k : Nat) (a : α), l[k]? = some a → ∃ b, f a = .ok b := by
  constructor
  · rintro ⟨rs, hrs⟩ k a hk
    have hget := congrArg (·[k]?) (mapM_eq_ok.1 hrs)
    simp only [List.getElem?_map, hk, Option.map_some] at hget
    obtain ⟨b, -, hb⟩ := Option.map_eq_some_iff.1 hget.symm
    exact ⟨b, hb.symm⟩
  · intro hall
    cases h : l.mapM f with
    | ok rs => exact ⟨rs, rfl⟩
    | error e =>
      obtain ⟨k, a, hk, ha, -⟩ := mapM_eq_error.1 h
      obtain ⟨b, hb⟩ := hall k a hk
      rw [ha] at hb
      cases hb

/-! ## One instruction line -/

namespace Instruction

/-- The text is an instruction, and `w` is the word of it at address `pc`. -/
def HasWord (symbols : SymbolTable) (pc : Nat) (t : Text) (w : Word) : Prop :=
  ∃ i, parse t = .ok i ∧ i.encode symbols pc = .ok w

/-- The text is no instruction, or else an instruction with a target that is not resolved. -/
def HasFault (symbols : SymbolTable) (pc : Nat) (t : Text) (fault : Fault) : Prop :=
  parse t = .error fault ∨
    ∃ i target, parse t = .ok i ∧ i.operands.target? = some target ∧
      symbols.distance pc target = .error fault

/-- An instruction that was read can only fail for its target. -/
theorem encode_eq_error {symbols : SymbolTable} {pc : Nat} {i : Instruction} {fault : Fault} :
    i.encode symbols pc = .error fault ↔
      ∃ target, i.operands.target? = some target ∧ symbols.distance pc target = .error fault := by
  obtain ⟨m, ops⟩ := i
  rw [encode, map_eq_error]
  cases ops <;> simp [fields, Operands.target?, map_eq_error]

end Instruction

namespace PlacedInstruction

open Instruction (HasWord HasFault)

theorem word_eq_ok_iff {symbols : SymbolTable} {p : PlacedInstruction} {w : Word} :
    p.word symbols = .ok w ↔ HasWord symbols p.address p.instruction w :=
  bind_eq_ok

theorem word_eq_error_iff {symbols : SymbolTable} {p : PlacedInstruction} {fault : Fault} :
    p.word symbols = .error fault ↔ HasFault symbols p.address p.instruction fault := by
  unfold word HasFault
  cases Instruction.parse p.instruction with
  | error fault' => simp [Except.bind]
  | ok i => simp [Except.bind, Instruction.encode_eq_error]

theorem record_eq_error {symbols : SymbolTable} {p : PlacedInstruction} {d : Diagnostic} :
    p.record symbols = .error d ↔
      ∃ fault, HasFault symbols p.address p.instruction fault ∧
        d = ⟨fault, some ⟨p.line, p.source⟩⟩ := by
  simp only [← word_eq_error_iff]
  unfold record
  cases p.word symbols <;> simp [Diagnostic.onLine, eq_comm]

end PlacedInstruction

/-! ## Lines of a source -/

/-- A line of a source is numbered by its place, from one on. -/
theorem Source.getElem?_of_mem_lines {source : Text} {l : Line} (h : l ∈ Source.lines source) :
    1 ≤ l.number ∧ (Text.lines source)[l.number - 1]? = some l.text := by
  obtain ⟨⟨t, k⟩, hmem, rfl⟩ := List.mem_map.1 h
  exact ⟨by simp, by simpa using List.mem_zipIdx_iff_getElem?.1 hmem⟩

theorem line_mem_of_mem_instructionLines {lines : List Line} {p : Line × Text}
    (h : p ∈ instructionLines lines) : p.1 ∈ lines := by
  obtain ⟨l, hl, hp⟩ := List.mem_filterMap.1 h
  obtain ⟨t, -, rfl⟩ := Option.map_eq_some_iff.1 hp
  exact hl

namespace Program

open Instruction (HasWord HasFault)

section
variable {lines : List Line}

theorem getElem?_instructions {k : Nat} :
    (Placement.ofLines lines).instructions[k]? = (instructionLines lines)[k]?.map fun p =>
      ⟨addressAfter k, p.2, p.1.trimmed, p.1.number⟩ := by
  rw [Placement.instructions_ofLines, List.getElem?_mapIdx]

theorem records_at_iff {k : Nat} :
    (∀ a, (Placement.ofLines lines).instructions[k]? = some a →
        ∃ r, a.record (Placement.ofLines lines).symbols = .ok r) ↔
      ∀ p, (instructionLines lines)[k]? = some p →
        ∃ w, HasWord (Placement.ofLines lines).symbols (addressAfter k) p.2 w := by
  rw [getElem?_instructions]
  constructor
  · intro h p hp
    obtain ⟨r, hr⟩ := h _ (Option.map_eq_some_iff.2 ⟨p, hp, rfl⟩)
    obtain ⟨w, hw, -⟩ := PlacedInstruction.record_eq_ok.1 hr
    exact ⟨w, PlacedInstruction.word_eq_ok_iff.1 hw⟩
  · intro h a ha
    obtain ⟨p, hp, rfl⟩ := Option.map_eq_some_iff.1 ha
    obtain ⟨w, hw⟩ := h p hp
    exact ⟨_, PlacedInstruction.record_eq_ok.2 ⟨w, PlacedInstruction.word_eq_ok_iff.2 hw, rfl⟩⟩

theorem exists_assembleLines_eq_ok :
    (∃ records, assembleLines lines = .ok records) ↔
      ∀ (k : Nat) (p : Line × Text), (instructionLines lines)[k]? = some p →
        ∃ w, HasWord (Placement.ofLines lines).symbols (addressAfter k) p.2 w :=
  exists_mapM_eq_ok.trans (forall_congr' fun _ => records_at_iff)

theorem assembleLines_eq_error {d : Diagnostic} :
    assembleLines lines = .error d ↔
      ∃ (k : Nat) (p : Line × Text) (fault : Fault),
        (instructionLines lines)[k]? = some p ∧
        HasFault (Placement.ofLines lines).symbols (addressAfter k) p.2 fault ∧
        d = ⟨fault, some ⟨p.1.number, p.1.trimmed⟩⟩ ∧
        ∀ j < k, ∀ q, (instructionLines lines)[j]? = some q →
          ∃ w, HasWord (Placement.ofLines lines).symbols (addressAfter j) q.2 w := by
  refine mapM_eq_error.trans ?_
  simp only [records_at_iff]
  constructor
  · rintro ⟨k, a, hk, ha, hbefore⟩
    rw [getElem?_instructions] at hk
    obtain ⟨p, hp, rfl⟩ := Option.map_eq_some_iff.1 hk
    obtain ⟨fault, hfault, hd⟩ := PlacedInstruction.record_eq_error.1 ha
    exact ⟨k, p, fault, hp, hfault, hd, hbefore⟩
  · rintro ⟨k, p, fault, hp, hfault, hd, hbefore⟩
    have hk : (Placement.ofLines lines).instructions[k]? =
        some ⟨addressAfter k, p.2, p.1.trimmed, p.1.number⟩ := by
      rw [getElem?_instructions, hp]
      rfl
    exact ⟨k, _, hk, PlacedInstruction.record_eq_error.2 ⟨fault, hfault, hd⟩, hbefore⟩

/-- The records of a program, each in the place of its instruction line. -/
theorem getElem?_records {records : List Record} (h : assembleLines lines = .ok records)
    {k : Nat} {p : Line × Text} (hp : (instructionLines lines)[k]? = some p) :
    ∃ w, HasWord (Placement.ofLines lines).symbols (addressAfter k) p.2 w ∧
      records[k]? = some ⟨addressAfter k / bytesPerWord, w, p.1.trimmed, p.1.number⟩ := by
  have hget := congrArg (·[k]?) (assembleLines_eq_ok.1 h)
  simp only [List.getElem?_map, getElem?_instructions, hp, Option.map_some] at hget
  obtain ⟨r, hr, hrecord⟩ := Option.map_eq_some_iff.1 hget.symm
  obtain ⟨w, hw, rfl⟩ := PlacedInstruction.record_eq_ok.1 hrecord.symm
  exact ⟨w, PlacedInstruction.word_eq_ok_iff.1 hw, hr⟩

end

/-- **All of a program is assembled, or the first fault in it is reported.** Assembling succeeds
exactly if every instruction line has a word, all labels of the source being known. It then gives
one record for each of these lines, in order. Otherwise it gives the fault of the first line that
has none, with the number and the text of that line. -/
theorem assembled_or_first_fault (source : Text) :
    let lines := Source.lines source
    let symbols := (Placement.ofLines lines).symbols
    ((∃ records, assemble source = .ok records) ↔
      ∀ (k : Nat) (p : Line × Text), (instructionLines lines)[k]? = some p →
        ∃ w, HasWord symbols (addressAfter k) p.2 w) ∧
    (∀ records, assemble source = .ok records →
      records.length = (instructionLines lines).length ∧
      ∀ (k : Nat) (p : Line × Text), (instructionLines lines)[k]? = some p →
        ∃ r, records[k]? = some r ∧ HasWord symbols (addressAfter k) p.2 r.word ∧
          r.source = p.1.trimmed ∧ r.line = p.1.number ∧ (k < 2 ^ 30 → r.slot = k)) ∧
    (∀ d, assemble source = .error d ↔
      ∃ (k : Nat) (p : Line × Text) (fault : Fault), (instructionLines lines)[k]? = some p ∧
        HasFault symbols (addressAfter k) p.2 fault ∧
        d = ⟨fault, some ⟨p.1.number, p.1.trimmed⟩⟩ ∧
        ∀ j < k, ∀ q, (instructionLines lines)[j]? = some q →
          ∃ w, HasWord symbols (addressAfter j) q.2 w) ∧
    ∀ p ∈ instructionLines lines,
      1 ≤ p.1.number ∧ (Text.lines source)[p.1.number - 1]? = some p.1.text := by
  intro lines symbols
  refine ⟨exists_assembleLines_eq_ok, fun records h => ⟨length_records h, ?_⟩,
    fun d => assembleLines_eq_error, fun p hp => ?_⟩
  · intro k p hp
    obtain ⟨w, hw, hr⟩ := getElem?_records h hp
    refine ⟨_, hr, hw, rfl, rfl, fun hk => ?_⟩
    show addressAfter k / bytesPerWord = k
    rw [addressAfter_div]
    omega
  · exact Source.getElem?_of_mem_lines (line_mem_of_mem_instructionLines hp)

end Program
end RiscvRom
