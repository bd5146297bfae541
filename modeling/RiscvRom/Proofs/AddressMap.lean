import RiscvRom.Proofs.Position

/-! The placement of a program as a map from positions.

All that a placement says is told by counting: an instruction stands at four times the number of
instruction lines before it, a label at four times the number of those before the last line that
defines it, both up to the largest address. The table has one symbol for each name, and whatever
does not add a name to it is a redefinition. -/

namespace RiscvRom

/-! ## One symbol for each name -/

namespace SymbolTable

theorem nodup_define {table : SymbolTable} (h : (table.map (·.name)).Nodup) (s : Symbol) :
    ((define table s).map (·.name)).Nodup := by
  have hrest : ((table.filter (·.name != s.name)).map (·.name)).Nodup :=
    (List.filter_sublist.map _).nodup h
  rw [define, List.map_cons, List.nodup_cons]
  refine ⟨?_, hrest⟩
  intro hmem
  obtain ⟨t, ht, hname⟩ := List.mem_map.1 hmem
  have hne := (List.mem_filter.1 ht).2
  simp [hname] at hne

theorem nodup_foldl_define (ds : List Symbol) {table : SymbolTable}
    (h : (table.map (·.name)).Nodup) : ((ds.foldl define table).map (·.name)).Nodup := by
  induction ds generalizing table with
  | nil => exact h
  | cons s ds ih => exact ih (nodup_define h s)

theorem nodup_ofDefinitions (ds : List Symbol) : ((ofDefinitions ds).map (·.name)).Nodup :=
  nodup_foldl_define ds List.nodup_nil

theorem mem_names_iff {table : SymbolTable} {name : Text} :
    name ∈ table.map (·.name) ↔ (table.find? name).isSome = true := by
  simp [find?, List.find?_isSome, List.mem_map]

end SymbolTable

namespace Placement

/-! ## Definitions that repeat a name -/

/-- A further name is one more new name, unless it is one of the earlier names. -/
theorem card_insert_sdiff (name : Text) (names earlier : Finset Text) :
    (insert name names \ earlier).card =
      (names \ insert name earlier).card + if name ∈ earlier then 0 else 1 := by
  by_cases h : name ∈ earlier
  · rw [Finset.insert_sdiff_of_mem _ h, Finset.insert_eq_of_mem h, if_pos h, Nat.add_zero]
  · have hset : insert name names \ earlier = insert name (names \ insert name earlier) := by
      ext x
      by_cases hx : x = name
      · simp [hx, h]
      · simp [hx]
    rw [hset, Finset.card_insert_of_notMem (by simp), if_neg h]

/-- One definition is a redefinition exactly if its name is one of the earlier names. -/
theorem length_redefinitionsAfter_cons (earlier : List Symbol) (s : Symbol) (ds : List Symbol) :
    (redefinitionsAfter earlier (s :: ds)).length =
      (redefinitionsAfter (s :: earlier) ds).length +
        if s.name ∈ earlier.map (·.name) then 1 else 0 := by
  have hmem : s.name ∈ earlier.map (·.name) ↔
      (List.find? (·.name == s.name) earlier).isSome = true := SymbolTable.mem_names_iff
  rw [redefinitionsAfter]
  cases hfind : List.find? (·.name == s.name) earlier with
  | none =>
    rw [hfind] at hmem
    rw [if_neg (by simp [hmem])]
    rfl
  | some p =>
    rw [hfind] at hmem
    rw [if_pos (by simp [hmem])]
    rfl

/-- Every definition either adds a name to those before it or is a redefinition. -/
theorem length_redefinitionsAfter (earlier ds : List Symbol) :
    (redefinitionsAfter earlier ds).length +
      ((ds.map (·.name)).toFinset \ (earlier.map (·.name)).toFinset).card = ds.length := by
  -- the earlier names grow with every definition, so both terms are counted against more of them
  induction ds generalizing earlier with
  | nil => simp [redefinitionsAfter]
  | cons s ds ih =>
    have hlater := ih (s :: earlier)
    rw [List.map_cons, List.toFinset_cons] at hlater
    rw [length_redefinitionsAfter_cons, List.map_cons, List.toFinset_cons, card_insert_sdiff,
      List.length_cons]
    simp only [List.mem_toFinset]
    split <;> omega

theorem length_redefinitions (lines : List Line) :
    (ofLines lines).redefinitions.length + (labels lines).toFinset.card =
      (labels lines).length := by
  have h := length_redefinitionsAfter []
    ((statements 0 lines).filterMap PlacedStatement.definition?)
  have hlength := congrArg List.length (map_name_definitions 0 lines)
  rw [List.length_map] at hlength
  rw [map_name_definitions, hlength, List.map_nil, List.toFinset_nil, Finset.sdiff_empty] at h
  exact h

/-! ## Instructions by position -/

theorem slots_ofLines (lines : List Line) :
    (ofLines lines).instructions.map (·.slot) =
      (List.range (instructionLines lines).length).map fun k => min k (2 ^ 30 - 1) := by
  rw [instructions_ofLines]
  refine List.ext_getElem? fun k => ?_
  by_cases hk : k < (instructionLines lines).length
  · simp [hk, PlacedInstruction.slot, addressAfter_div]
  · simp [hk]

theorem endAddress_ofLines (lines : List Line) :
    (ofLines lines).endAddress = addressAfter (instructionLines lines).length := by
  have h := endFrom_statements 0 lines
  rw [Nat.zero_add] at h
  exact h

/-! ## Symbols by position -/

theorem find?_symbols_eq_some_iff {lines : List Line} {name : Text} {s : Symbol} :
    (ofLines lines).symbols.find? name = some s ↔
      ∃ (before : List Line) (l : Line) (after : List Line),
        lines = before ++ l :: after ∧ l.label? = some name ∧
        (∀ l' ∈ after, l'.label? ≠ some name) ∧
        s = ⟨name, addressAfter (instructionLines before).length, l.number⟩ := by
  constructor
  · intro h
    have hdefined : name ∈ labels lines := by
      by_contra hnone
      rw [find?_symbols_of_notMem hnone] at h
      cases h
    obtain ⟨before, l, after, rfl, hl, hlast⟩ :=
      Program.exists_lastDefinition (mem_labels.1 hdefined)
    rw [find?_symbols_last hl hlast] at h
    exact ⟨before, l, after, rfl, hl, hlast, (Option.some.inj h).symm⟩
  · rintro ⟨before, l, after, rfl, hl, hlast, rfl⟩
    exact find?_symbols_last hl hlast

theorem mem_names_symbols_iff {lines : List Line} {name : Text} :
    name ∈ (ofLines lines).symbols.map (·.name) ↔ name ∈ labels lines := by
  rw [SymbolTable.mem_names_iff, mem_labels, Option.isSome_iff_exists]
  constructor
  · rintro ⟨s, hs⟩
    obtain ⟨before, l, after, rfl, hl, -⟩ := find?_symbols_eq_some_iff.1 hs
    exact ⟨l, by simp, hl⟩
  · intro h
    obtain ⟨before, l, after, rfl, hl, hlast⟩ := Program.exists_lastDefinition h
    exact ⟨_, find?_symbols_last hl hlast⟩

/-- **A placement is the map of positions.** The instructions are the instruction lines in order,
the `k`-th of them at address `4 * k` and in slot `k`. A name is looked up to the address of the
last line that defines it, `4 * m` where `m` instruction lines stand before that line; there is one
symbol for each name that a line defines, and none for another. Addresses and slots stay at their
largest value. The redefinitions are the definitions beyond the first of each name. -/
theorem ofLines_by_position (lines : List Line) :
    (ofLines lines).instructions =
      (instructionLines lines).mapIdx (fun k p =>
        ⟨min (4 * k) (2 ^ 32 - 1), p.2, p.1.trimmed, p.1.number⟩) ∧
    (ofLines lines).instructions.map (·.slot) =
      (List.range (instructionLines lines).length).map (fun k => min k (2 ^ 30 - 1)) ∧
    (ofLines lines).endAddress = min (4 * (instructionLines lines).length) (2 ^ 32 - 1) ∧
    ((ofLines lines).symbols.map (·.name)).Nodup ∧
    (∀ name, name ∈ (ofLines lines).symbols.map (·.name) ↔ name ∈ labels lines) ∧
    (∀ name s, (ofLines lines).symbols.find? name = some s ↔
      ∃ (before : List Line) (l : Line) (after : List Line),
        lines = before ++ l :: after ∧ l.label? = some name ∧
        (∀ l' ∈ after, l'.label? ≠ some name) ∧
        s = ⟨name, min (4 * (instructionLines before).length) (2 ^ 32 - 1), l.number⟩) ∧
    (ofLines lines).redefinitions.length + (labels lines).toFinset.card =
      (labels lines).length := by
  have haddress : ∀ n, min (4 * n) (2 ^ 32 - 1) = addressAfter n := fun n => rfl
  simp only [haddress]
  exact ⟨instructions_ofLines lines, slots_ofLines lines, endAddress_ofLines lines,
    SymbolTable.nodup_ofDefinitions _, fun _ => mem_names_symbols_iff,
    fun _ _ => find?_symbols_eq_some_iff, length_redefinitions lines⟩

end Placement
end RiscvRom
