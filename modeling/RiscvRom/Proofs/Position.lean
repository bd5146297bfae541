import Mathlib
import RiscvRom.Placement

/-! Addresses as positions.

What a program's lines are to its placement is only which of them carry an instruction and which
define a label. The address of a place is given by the number of instruction lines before it, up to
the largest address; a label has the address of the last line that defines it. -/

namespace RiscvRom

namespace Line

def label? (l : Line) : Option Text := l.statement?.bind (·.label)

def instruction? (l : Line) : Option Text := l.statement?.bind (·.instruction)

end Line

/-- The lines that carry an instruction, each with the text of it. -/
def instructionLines (lines : List Line) : List (Line × Text) :=
  lines.filterMap fun l => l.instruction?.map fun t => (l, t)

/-- The labels that the lines define, in order, a name as often as it is defined. -/
def labels (lines : List Line) : List Text := lines.filterMap Line.label?

/-- The address of a place with `n` instructions before it. -/
def addressAfter (n : Nat) : Nat := min (bytesPerWord * n) lastAddress

theorem nextAddress_addressAfter (n : Nat) :
    nextAddress (addressAfter n) = addressAfter (n + 1) := by
  unfold nextAddress addressAfter bytesPerWord lastAddress
  omega

theorem addressAfter_eq {n : Nat} (h : n < 2 ^ 30) : addressAfter n = 4 * n := by
  unfold addressAfter bytesPerWord lastAddress
  omega

/-- The slot of that place. -/
theorem addressAfter_div (n : Nat) : addressAfter n / bytesPerWord = min n (2 ^ 30 - 1) := by
  unfold addressAfter bytesPerWord lastAddress
  omega

theorem mem_labels {ls : List Line} {t : Text} :
    t ∈ labels ls ↔ ∃ l ∈ ls, l.label? = some t :=
  List.mem_filterMap

theorem instructionLines_append (ls ms : List Line) :
    instructionLines (ls ++ ms) = instructionLines ls ++ instructionLines ms :=
  List.filterMap_append

theorem instructionLines_cons_some {l : Line} {t : Text} (h : l.instruction? = some t)
    (ls : List Line) : instructionLines (l :: ls) = (l, t) :: instructionLines ls := by
  simp [instructionLines, h]

theorem instructionLines_cons_none {l : Line} (h : l.instruction? = none) (ls : List Line) :
    instructionLines (l :: ls) = instructionLines ls := by
  simp [instructionLines, h]

namespace Placement

/-! ## One line -/

theorem statements_cons_none {l : Line} (h : l.statement? = none) (pc : Nat) (ls : List Line) :
    statements pc (l :: ls) = statements pc ls := by
  simp [statements, h]

theorem statements_cons_some {l : Line} {s : Statement} (h : l.statement? = some s) (pc : Nat)
    (ls : List Line) : statements pc (l :: ls) = ⟨pc, l, s⟩ :: statements (s.after pc) ls := by
  simp [statements, h]

/-- One line moves the address on by the instruction on it, or not at all. -/
theorem after_addressAfter {l : Line} {s : Statement} (h : l.statement? = some s) (n : Nat) :
    s.after (addressAfter n) = addressAfter (n + (instructionLines [l]).length) := by
  have hl : l.instruction? = s.instruction := by simp [Line.instruction?, h]
  unfold Statement.after
  cases hs : s.instruction with
  | none =>
    rw [instructionLines_cons_none (hl.trans hs)]
    rfl
  | some t =>
    rw [instructionLines_cons_some (hl.trans hs)]
    simpa [instructionLines] using nextAddress_addressAfter n

/-! ## All lines -/

theorem endFrom_statements (n : Nat) (ls : List Line) :
    endFrom (addressAfter n) (statements (addressAfter n) ls) =
      addressAfter (n + (instructionLines ls).length) := by
  induction ls generalizing n with
  | nil => rfl
  | cons l ls ih =>
    have hsplit : instructionLines (l :: ls) = instructionLines [l] ++ instructionLines ls :=
      instructionLines_append [l] ls
    cases hl : l.statement? with
    | none =>
      have hi : l.instruction? = none := by simp [Line.instruction?, hl]
      rw [statements_cons_none hl, instructionLines_cons_none hi]
      exact ih n
    | some s =>
      rw [statements_cons_some hl, hsplit, List.length_append, ← Nat.add_assoc]
      show endFrom (s.after (addressAfter n)) (statements (s.after (addressAfter n)) ls) = _
      rw [after_addressAfter hl]
      exact ih _

/-- The instructions are the instruction lines in order, and each has the address of its place
among them. -/
theorem instructions_statements (n : Nat) (ls : List Line) :
    (statements (addressAfter n) ls).filterMap PlacedStatement.instruction? =
      (instructionLines ls).mapIdx fun k p =>
        ⟨addressAfter (n + k), p.2, p.1.trimmed, p.1.number⟩ := by
  induction ls generalizing n with
  | nil => rfl
  | cons l ls ih =>
    cases hl : l.statement? with
    | none =>
      have hi : l.instruction? = none := by simp [Line.instruction?, hl]
      rw [statements_cons_none hl, instructionLines_cons_none hi]
      exact ih n
    | some s =>
      have hi : l.instruction? = s.instruction := by simp [Line.instruction?, hl]
      rw [statements_cons_some hl, after_addressAfter hl]
      cases hs : s.instruction with
      | none =>
        rw [instructionLines_cons_none (hi.trans hs), instructionLines_cons_none (hi.trans hs),
          List.filterMap_cons_none (by simp [PlacedStatement.instruction?, hs])]
        exact ih _
      | some t =>
        rw [instructionLines_cons_some (hi.trans hs), instructionLines_cons_some (hi.trans hs),
          List.mapIdx_cons, List.filterMap_cons_some (b := ⟨addressAfter n, t, l.trimmed, l.number⟩)
            (by simp [PlacedStatement.instruction?, hs])]
        refine congrArg _ ((ih _).trans ?_)
        simp [instructionLines, Nat.add_assoc, Nat.add_comm 1]

theorem instructions_ofLines (ls : List Line) :
    (ofLines ls).instructions =
      (instructionLines ls).mapIdx fun k p =>
        ⟨addressAfter k, p.2, p.1.trimmed, p.1.number⟩ := by
  have h := instructions_statements 0 ls
  simp only [Nat.zero_add] at h
  exact h

/-! ## Labels -/

theorem definitions_statements_cons {l : Line} {t : Text} (h : l.label? = some t) (pc : Nat)
    (ls : List Line) :
    ∃ pc', (statements pc (l :: ls)).filterMap PlacedStatement.definition? =
      ⟨t, pc, l.number⟩ :: (statements pc' ls).filterMap PlacedStatement.definition? := by
  obtain ⟨s, hs, hlabel⟩ := Option.bind_eq_some_iff.1 h
  refine ⟨s.after pc, ?_⟩
  rw [statements_cons_some hs]
  exact List.filterMap_cons_some (by simp [PlacedStatement.definition?, hlabel])

/-- The names that are defined are those of the labels on the lines, in the same order. -/
theorem map_name_definitions (pc : Nat) (ls : List Line) :
    ((statements pc ls).filterMap PlacedStatement.definition?).map (·.name) = labels ls := by
  induction ls generalizing pc with
  | nil => rfl
  | cons l ls ih =>
    cases hl : l.statement? with
    | none =>
      have hlabel : l.label? = none := by simp [Line.label?, hl]
      rw [statements_cons_none hl, ih, labels, labels, List.filterMap_cons_none hlabel]
    | some s =>
      have hlabel : l.label? = s.label := by simp [Line.label?, hl]
      rw [statements_cons_some hl]
      cases hs : s.label with
      | none =>
        rw [List.filterMap_cons_none (by simp [PlacedStatement.definition?, hs]), ih, labels,
          labels, List.filterMap_cons_none (hlabel.trans hs)]
      | some t =>
        rw [List.filterMap_cons_some (b := ⟨t, pc, l.number⟩)
          (by simp [PlacedStatement.definition?, hs]), List.map_cons, ih, labels, labels,
          List.filterMap_cons_some (hlabel.trans hs)]

theorem label?_of_mem_definitions {pc : Nat} {ls : List Line} {s : Symbol}
    (h : s ∈ (statements pc ls).filterMap PlacedStatement.definition?) :
    ∃ l ∈ ls, l.label? = some s.name := by
  have hname : s.name ∈ labels ls := by
    rw [← map_name_definitions pc]
    exact List.mem_map_of_mem h
  exact mem_labels.1 hname

end Placement

namespace SymbolTable

theorem find?_foldl_define {name : Text} {ds : List Symbol} (h : ∀ s ∈ ds, s.name ≠ name)
    (table : SymbolTable) : (ds.foldl define table).find? name = table.find? name := by
  induction ds generalizing table with
  | nil => rfl
  | cons s ds ih =>
    rw [List.foldl_cons, ih (fun x hx => h x (List.mem_cons_of_mem s hx))]
    exact find?_define_of_ne table s (h s List.mem_cons_self).symm

theorem find?_ofDefinitions_none {name : Text} {ds : List Symbol}
    (h : ∀ s ∈ ds, s.name ≠ name) : (ofDefinitions ds).find? name = none :=
  find?_foldl_define h []

theorem find?_ofDefinitions_last {s : Symbol} {ds' : List Symbol}
    (h : ∀ x ∈ ds', x.name ≠ s.name) (ds : List Symbol) :
    (ofDefinitions (ds ++ s :: ds')).find? s.name = some s := by
  rw [ofDefinitions, List.foldl_append, List.foldl_cons, find?_foldl_define h]
  exact find?_define_self _ s

end SymbolTable

namespace Placement

/-- A label has the address of the last line that defines it. -/
theorem find?_symbols_last {before after : List Line} {l : Line} {t : Text}
    (h : l.label? = some t) (hlast : ∀ l' ∈ after, l'.label? ≠ some t) :
    (ofLines (before ++ l :: after)).symbols.find? t =
      some ⟨t, addressAfter (instructionLines before).length, l.number⟩ := by
  have hend := endFrom_statements 0 before
  rw [Nat.zero_add] at hend
  obtain ⟨pc, hdefs⟩ := definitions_statements_cons h
    (addressAfter (instructionLines before).length) after
  show (SymbolTable.ofDefinitions ((statements (addressAfter 0) (before ++ l :: after)).filterMap
    PlacedStatement.definition?)).find? t = _
  rw [statements_append, hend, List.filterMap_append, hdefs]
  refine SymbolTable.find?_ofDefinitions_last ?_ _
  intro s hs hname
  obtain ⟨l', hmem, hl'⟩ := label?_of_mem_definitions hs
  exact hlast l' hmem (hl'.trans (congrArg some hname))

theorem find?_symbols_none {ls : List Line} {t : Text} (h : ∀ l ∈ ls, l.label? ≠ some t) :
    (ofLines ls).symbols.find? t = none := by
  refine SymbolTable.find?_ofDefinitions_none ?_
  intro s hs hname
  obtain ⟨l, hmem, hl⟩ := label?_of_mem_definitions hs
  exact h l hmem (hl.trans (congrArg some hname))

theorem find?_symbols_of_notMem {ls : List Line} {t : Text} (h : t ∉ labels ls) :
    (ofLines ls).symbols.find? t = none :=
  find?_symbols_none fun l hl hlabel => h (mem_labels.2 ⟨l, hl, hlabel⟩)

end Placement

namespace Program

/-- The lines before the last one that defines a label. -/
def LastDefinition (lines : List Line) (label : Text) (before : List Line) : Prop :=
  ∃ l after, lines = before ++ l :: after ∧ l.label? = some label ∧
    ∀ l' ∈ after, l'.label? ≠ some label

theorem exists_lastDefinition {lines : List Line} {label : Text}
    (h : ∃ l ∈ lines, l.label? = some label) : ∃ before, LastDefinition lines label before := by
  induction lines with
  | nil => simp at h
  | cons l ls ih =>
    by_cases hls : ∃ l' ∈ ls, l'.label? = some label
    · obtain ⟨before, m, after, rfl, hm, hlast⟩ := ih hls
      exact ⟨l :: before, m, after, rfl, hm, hlast⟩
    · obtain ⟨m, hmem, hm⟩ := h
      rcases List.mem_cons.1 hmem with rfl | hmem
      · exact ⟨[], m, ls, rfl, hm, fun l' hl' hlabel => hls ⟨l', hl', hlabel⟩⟩
      · exact absurd ⟨m, hmem, hm⟩ hls

end Program
end RiscvRom
