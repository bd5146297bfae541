import RiscvRom.Proofs.AddressMap
import RiscvRom.Proofs.Disassembly
import RiscvRom.Proofs.FirstFault
import RiscvRom.Proofs.MemoryText

/-! Two texts for one memory.

The module assigns the words of the program to the slots that their records name, and the fill word
to all slots behind them; the hexadecimal image has the same words by their place in the list. Both
agree because records are numbered by their place. Comments have no part in this: a source line is
quoted on one line of the module and holds no line feed, so nothing of it stands outside the
comment that it is quoted in. -/

namespace RiscvRom.Rom

/-! ## The parts of a module -/

/-- The lines before the first assignment, which are the same for every program. -/
def headLines (g : Geometry) : List Text := (moduleLines g []).take 11

theorem moduleLines_eq (g : Geometry) (records : List Record) :
    moduleLines g records =
      headLines g ++ (records.map (fun r => "        ".toList ++ assignment r) ++
        (fillLines g records.length ++ ["    end".toList, "endmodule".toList])) := by
  rw [← List.append_assoc (records.map _)]
  rfl

/-- `rom[k] = 32'hX;` -/
def statementText (index : Text) (w : Word) : Text :=
  "rom[".toList ++ (index ++ ("] = 32'h".toList ++ (Text.hexWord w ++ [';'])))

theorem assignment_eq (r : Record) :
    assignment r = statementText (Text.padLeft 2 (Text.decimal r.slot)) r.word ++
      ' ' :: '/' :: '/' :: ' ' :: r.source := by
  change "rom[".toList ++ _ ++ "] = 32'h".toList ++ _ ++ "; // ".toList ++ _ = _
  simp only [statementText, List.append_assoc]
  rfl

/-! ## Lines that do nothing -/

theorem isIdle_of_start {b t : Text} {c d : Char} (hb : Text.AllBlank b)
    (hblank : Text.isBlank c = false ∧ Text.isBlank d = false) (hc : c ≠ 'f' ∧ c ≠ 'e')
    (hd : c = 'r' → d ≠ 'o') : IsIdle (b ++ c :: d :: t) := by
  refine isIdle_of_trim (t := Text.trimEnd t) ?_ hc hd
  rw [Text.trim_blank_append hb, Text.trim_cons hblank.1, Text.trimEnd_cons hblank.2]

/-- The lines before the assignments do nothing, and each of them is one line. -/
theorem headLines_idle {g : Geometry} {l : Text} (h : l ∈ headLines g) :
    IsIdle (uncommented l) ∧ ('\n' ∉ g.moduleName → '\n' ∉ l) := by
  have hnumber : ∀ n, '\n' ∉ Text.decimal n := notMem_decimal (by decide)
  simp only [headLines, moduleLines, List.cons_append, List.take_succ_cons, List.take_zero,
    List.mem_cons, List.not_mem_nil, or_false] at h
  rcases h with rfl | rfl | rfl | rfl | rfl | rfl | rfl | rfl | rfl | rfl | rfl
  · exact ⟨⟨rfl, rfl, rfl⟩, fun hname => by simp [hname]⟩
  · exact ⟨isIdle_of_start (b := []) (c := 'm') (d := 'o') (by decide) (by decide) (by decide)
      (by decide), fun hname => by simp [hname]⟩
  · exact ⟨⟨rfl, rfl, rfl⟩, fun _ => by decide⟩
  · exact ⟨⟨rfl, rfl, rfl⟩, fun _ => by decide⟩
  · exact ⟨⟨rfl, rfl, rfl⟩, fun _ => by decide⟩
  · exact ⟨isIdle_of_start (b := "    ".toList) (c := 'r') (d := 'e') (by decide) (by decide)
      (by decide) (by decide), fun _ => by simp [hnumber]⟩
  · exact ⟨isIdle_of_start (b := "    ".toList) (c := 'a') (d := 's') (by decide) (by decide)
      (by decide) (by decide), fun _ => by simp [hnumber]⟩
  · exact ⟨⟨rfl, rfl, rfl⟩, fun _ => by decide⟩
  · exact ⟨⟨rfl, rfl, rfl⟩, fun _ => by decide⟩
  · exact ⟨⟨rfl, rfl, rfl⟩, fun _ => by decide⟩
  · exact ⟨⟨rfl, rfl, rfl⟩, fun _ => by decide⟩

theorem assignments_idle_append {ls : List Text} (h : ∀ l ∈ ls, IsIdle l)
    (loop : Option (Nat × Nat)) (rest : List Text) :
    assignments loop (ls ++ rest) = assignments loop rest := by
  induction ls with
  | nil => rfl
  | cons l ls ih =>
    rw [List.cons_append, assignments_cons_idle _ _ (h l List.mem_cons_self)]
    exact ih fun x hx => h x (List.mem_cons_of_mem l hx)

/-! ## Lines that assign -/

section
variable {b index : Text} (hb : Text.AllBlank b) (hslash : '/' ∉ index) (w : Word)
include hb hslash

/-- The comment behind a statement is cut off, whatever it holds. -/
theorem uncommented_statement (comment : Text) :
    uncommented (b ++ (statementText index w ++ ' ' :: '/' :: '/' :: comment)) =
      b ++ (statementText index w ++ [' ']) := by
  have hfree : '/' ∉ b ++ (statementText index w ++ [' ']) := by
    have hblank : '/' ∉ b := fun h => absurd (hb '/' h) (by decide)
    have hword : '/' ∉ Text.hexWord w := notMem_hexWord (by decide) w
    simp [statementText, hblank, hslash, hword]
  have h := uncommented_append hfree comment
  simpa using h

theorem assignments_cons_statement (hbracket : ']' ∉ index) (comment : Text)
    (loop : Option (Nat × Nat)) (rest : List Text) :
    assignments loop
        (uncommented (b ++ (statementText index w ++ ' ' :: '/' :: '/' :: comment)) :: rest) =
      (assignedSlots loop (Text.trim index)).map (·, w) ++ assignments loop rest := by
  have htrim : Text.trim (b ++ (statementText index w ++ [' '])) = statementText index w := by
    rw [Text.trim_blank_append hb, Text.trim_append_blank (by decide)]
    refine Text.trim_of_ends ?_ ?_
    · intro c hc
      obtain rfl : 'r' = c := by simpa [statementText] using hc
      decide
    · have hlast : (statementText index w).getLast? = some ';' := by
        simp only [statementText, ← List.append_assoc, List.getLast?_concat]
      intro c hc
      obtain rfl : ';' = c := by simpa [hlast] using hc
      decide
  rw [uncommented_statement hb hslash]
  exact assignments_cons_assignment loop rest hbracket (notMem_hexWord (by decide) w)
    (word?_hexWord w) htrim

end

theorem trim_decimal (n : Nat) : Text.trim (Text.decimal n) = Text.decimal n := by
  have hdigit : ∀ c ∈ Text.decimal n, Text.isBlank c = false := by
    intro c hc
    exact (Text.not_cut_of_isSpelling
      ((Text.isSpelled_toDigits (by decide) (by decide) n).2 c hc)).1
  exact Text.trim_of_ends (fun c hc => hdigit c (List.mem_of_mem_head? hc))
    fun c hc => hdigit c (List.mem_of_getLast? hc)

theorem notMem_padLeft {c : Char} (hdigit : c.isDigit = false) (hblank : c ≠ ' ') (n : Nat) :
    c ∉ Text.padLeft 2 (Text.decimal n) := by
  intro hc
  rcases List.mem_append.1 hc with hc | hc
  · exact hblank (List.eq_of_mem_replicate hc)
  · exact notMem_decimal hdigit n hc

/-- The records assign their words, one after the other. -/
theorem assignments_records (records : List Record) (rest : List Text) :
    assignments none
        ((records.map fun r => uncommented ("        ".toList ++ assignment r)) ++ rest) =
      records.map (fun r => (r.slot, r.word)) ++ assignments none rest := by
  induction records with
  | nil => rfl
  | cons r records ih =>
    have htrim : Text.trim (Text.padLeft 2 (Text.decimal r.slot)) = Text.decimal r.slot := by
      rw [Text.padLeft, Text.trim_blank_append, trim_decimal]
      intro c hc
      rw [List.eq_of_mem_replicate hc]
      decide
    have hslots : assignedSlots none (Text.decimal r.slot) = [r.slot] := by
      simp [assignedSlots, Text.natural?_decimal]
    rw [List.map_cons, List.cons_append, assignment_eq, assignments_cons_statement (by decide)
      (notMem_padLeft (by decide) (by decide) _) _ (notMem_padLeft (by decide) (by decide) _),
      htrim, hslots, ih]
    rfl

/-- Opening the loop: the line is a loop statement over the slots behind the records. -/
theorem loop?_fillHeader (used depth : Nat) :
    loop? (uncommented ("        for (i = ".toList ++ Text.decimal used ++ "; i < ".toList ++
      Text.decimal depth ++ "; i = i + 1) begin".toList)) = some (used, depth) := by
  rw [uncommented_of_notMem (by simp [notMem_decimal])]
  refine loop?_of_trim ?_
  have hline : "        for (i = ".toList ++ Text.decimal used ++ "; i < ".toList ++
      Text.decimal depth ++ "; i = i + 1) begin".toList =
      "        ".toList ++ ("for (i = ".toList ++ (Text.decimal used ++ ("; i < ".toList ++
        (Text.decimal depth ++ "; i = i + 1) begin".toList)))) := by
    simp
  rw [hline, Text.trim_blank_append (by decide)]
  refine Text.trim_of_ends ?_ ?_
  · intro c hc
    obtain rfl : 'f' = c := by simpa using hc
    decide
  · have hlast : "; i = i + 1) begin".toList.getLast? = some 'n' := rfl
    intro c hc
    simp only [List.getLast?_append, hlast, Option.some_or, Option.mem_some] at hc
    exact hc ▸ rfl

/-- The loop assigns the fill word to the slots behind the records. -/
theorem assignments_fillLines (g : Geometry) (used : Nat) (rest : List Text) :
    assignments none ((fillLines g used).map uncommented ++ rest) =
      (List.range' used (g.depth - used)).map (·, g.fill) ++ assignments none rest := by
  unfold fillLines
  split
  · have hbody : "            rom[i] = 32'h".toList ++ Text.hexWord g.fill ++ "; // ".toList ++
        fillMeaning g.fill = "            ".toList ++
          (statementText ['i'] g.fill ++ ' ' :: '/' :: '/' :: ' ' :: fillMeaning g.fill) := by
      simp only [statementText, List.append_assoc]
      rfl
    simp only [List.map_cons, List.map_nil, List.cons_append, List.nil_append]
    rw [assignments_cons_idle _ _ ⟨rfl, rfl, rfl⟩, assignments_cons_idle _ _ ⟨rfl, rfl, rfl⟩,
      assignments_cons_loop _ _ (loop?_fillHeader used g.depth), hbody,
      assignments_cons_statement (by decide) (by decide) _ (by decide),
      assignments_cons_end _ _ rfl rfl]
    rfl
  · rename_i h
    rw [Nat.sub_eq_zero_of_le (Nat.le_of_not_lt h)]
    rfl

/-- What a module assigns, comments left aside. -/
theorem assignments_moduleLines (g : Geometry) (records : List Record) :
    assignments none ((moduleLines g records ++ [[]]).map uncommented) =
      records.map (fun r => (r.slot, r.word)) ++
        (List.range' records.length (g.depth - records.length)).map (·, g.fill) := by
  have hhead : ∀ l ∈ (headLines g).map uncommented, IsIdle l :=
    List.forall_mem_map.2 fun _ hl => (headLines_idle hl).1
  have htail : assignments none (["    end".toList, "endmodule".toList].map uncommented ++
      [[]].map uncommented) = [] := rfl
  rw [moduleLines_eq]
  simp only [List.append_assoc, List.map_append]
  rw [assignments_idle_append hhead, List.map_map]
  refine (assignments_records records _).trans ?_
  rw [assignments_fillLines, htail, List.append_nil]

/-! ## Lines of a module hold no line feed -/

theorem newline_notMem_fillMeaning (w : Word) : '\n' ∉ fillMeaning w := by
  unfold fillMeaning
  split
  · decide
  · rename_i d hd
    have htext : '\n' ∉ d.text .numeric := by
      intro h
      exact absurd ((Decoded.isPlain_text hd .numeric).unmarked _ h) (by decide)
    rw [List.mem_append, not_or]
    refine ⟨htext, ?_⟩
    split <;> decide

theorem newline_notMem_of_isValid {name : Text} (h : Identifier.isValid name = true) :
    '\n' ∉ name := by
  cases name with
  | nil => exact List.not_mem_nil
  | cons c r =>
    simp only [Identifier.isValid, Bool.and_eq_true, List.all_eq_true] at h
    intro hmem
    rcases List.mem_cons.1 hmem with rfl | hr
    · exact absurd h.1.1 (by decide)
    · exact absurd (h.1.2 _ hr) (by decide)

theorem newline_notMem_fillLines (g : Geometry) (used : Nat) :
    ∀ l ∈ fillLines g used, '\n' ∉ l := by
  have hnumber : ∀ n, '\n' ∉ Text.decimal n := notMem_decimal (by decide)
  have hword : ∀ w, '\n' ∉ Text.hexWord w := notMem_hexWord (by decide)
  unfold fillLines
  split
  · simp [hnumber, hword, newline_notMem_fillMeaning]
  · simp

theorem newline_notMem_assignment {r : Record} (h : '\n' ∉ r.source) : '\n' ∉ assignment r := by
  have hslot : '\n' ∉ Text.decimal r.slot := notMem_decimal (by decide) _
  have hword : '\n' ∉ Text.hexWord r.word := notMem_hexWord (by decide) _
  simp [assignment_eq, statementText, Text.padLeft, hslot, hword, h]

theorem newline_notMem_moduleLines {g : Geometry} (hname : Identifier.isValid g.moduleName = true)
    {records : List Record} (hsource : ∀ r ∈ records, '\n' ∉ r.source) :
    ∀ l ∈ moduleLines g records, '\n' ∉ l := by
  have hassignment : ∀ r ∈ records, '\n' ∉ "        ".toList ++ assignment r := by
    intro r hr
    simp [newline_notMem_assignment (hsource r hr)]
  rw [moduleLines_eq]
  simp only [List.forall_mem_append, List.forall_mem_map]
  exact ⟨fun _ hl => (headLines_idle hl).2 (newline_notMem_of_isValid hname), hassignment,
    newline_notMem_fillLines g _, by decide⟩

/-! ## Comments have no part in the code -/

/-- A record without the line that it was read from. -/
def unquoted (r : Record) : Record := { r with source := [] }

theorem map_uncommented_assignment (records : List Record) :
    (records.map fun r => "        ".toList ++ assignment r).map uncommented =
      ((records.map unquoted).map fun r => "        ".toList ++ assignment r).map uncommented := by
  have hline : ∀ r : Record, uncommented ("        ".toList ++ assignment r) =
      uncommented ("        ".toList ++ assignment (unquoted r)) := by
    intro r
    have hslash : '/' ∉ Text.padLeft 2 (Text.decimal r.slot) :=
      notMem_padLeft (by decide) (by decide) _
    rw [assignment_eq, assignment_eq, uncommented_statement (by decide) hslash]
    exact (uncommented_statement (by decide) hslash r.word _).symm
  simp only [List.map_map]
  exact List.map_congr_left fun r _ => hline r

theorem map_uncommented_moduleLines (g : Geometry) (records : List Record) :
    (moduleLines g records).map uncommented =
      (moduleLines g (records.map unquoted)).map uncommented := by
  rw [moduleLines_eq, moduleLines_eq]
  simp only [List.map_append, map_uncommented_assignment records, List.length_map]

/-! ## Assembled programs -/

theorem slots_of_assembleLines {lines : List Line} {records : List Record}
    (h : Program.assembleLines lines = .ok records) (hsize : records.length ≤ 2 ^ 30) :
    records.map (·.slot) = List.range records.length := by
  refine List.ext_getElem? fun k => ?_
  cases hk : records[k]? with
  | none => simp [List.getElem?_eq_none_iff.1 hk]
  | some r =>
    have hlt : k < records.length := (List.getElem?_eq_some_iff.1 hk).1
    obtain ⟨l, t, i, f, -, -, -, rfl⟩ := Program.record_at h hk
    have hslot : addressAfter k / bytesPerWord = k := by
      rw [addressAfter_div]
      omega
    rw [List.getElem?_map, hk, List.getElem?_range hlt, Option.map_some, hslot]

theorem newline_notMem_source {source : Text} {records : List Record}
    (h : Program.assemble source = .ok records) : ∀ r ∈ records, '\n' ∉ r.source := by
  intro r hr
  obtain ⟨k, hk⟩ := List.mem_iff_getElem?.1 hr
  obtain ⟨l, t, i, f, hlt, -, -, rfl⟩ := Program.record_at h hk
  have hl := line_mem_of_mem_instructionLines (List.mem_of_getElem? hlt)
  have htext := List.mem_of_getElem? (Source.getElem?_of_mem_lines hl).2
  intro hmem
  exact Text.newline_not_mem_of_mem_lines source _ htext ((Text.trim_sublist _).subset hmem)

/-! ## Both texts read back -/

theorem verilog_eq_ok {g : Geometry} {records : List Record} {text : Text} :
    verilog g records = .ok text ↔
      g.check records.length = .ok () ∧ Identifier.isValid g.moduleName = true ∧
        text = Text.unlines (moduleLines g records) := by
  unfold verilog
  cases g.check records.length with
  | error e => simp
  | ok u =>
    by_cases h : Identifier.isValid g.moduleName = true
    · simp [h, eq_comm]
    · simp [h]

theorem check_eq_ok {g : Geometry} {required : Nat} (h : g.check required = .ok ()) :
    required ≤ g.depth :=
  (Geometry.check_eq_ok_iff.1 h).2

theorem codeLines_unlines {ls : List Text} (h : ∀ l ∈ ls, '\n' ∉ l) :
    codeLines (Text.unlines ls) = (ls ++ [[]]).map uncommented := by
  rw [codeLines, physicalLines_unlines h]

theorem mapM_word?_hexWord (ws : List Word) : (ws.map Text.hexWord).mapM word? = some ws := by
  induction ws with
  | nil => rfl
  | cons w ws ih => simp [word?_hexWord, ih]

theorem imageWords?_unlines (ws : List Word) :
    imageWords? (Text.unlines (ws.map Text.hexWord)) = some ws := by
  have hfree : ∀ l ∈ ws.map Text.hexWord, '\n' ∉ l :=
    List.forall_mem_map.2 fun w _ => notMem_hexWord (by decide) w
  have hfilter : (ws.map Text.hexWord ++ [[]]).filter (· ≠ []) = ws.map Text.hexWord := by
    have hne : ∀ w : Word, Text.hexWord w ≠ [] := fun w => List.cons_ne_nil _ _
    simp [List.filter_append, hne]
  rw [imageWords?, physicalLines_unlines hfree, hfilter, mapM_word?_hexWord]

/-- Slots that are assigned in order hold the words by their place. -/
theorem memoryAfter_eq {as : List (Nat × Word)} (h : as.map (·.1) = List.range as.length)
    (k : Nat) : memoryAfter as k = (as.map (·.2))[k]? := by
  induction as using List.reverseRecOn with
  | nil => rfl
  | append_singleton as a ih =>
    rw [List.map_append, List.length_append, List.length_singleton, List.range_succ] at h
    obtain ⟨hbefore, hlast⟩ := List.append_inj' h rfl
    have hslot : a.1 = as.length := by simpa using hlast
    have hstep : memoryAfter (as ++ [a]) k =
        if k = as.length then some a.2 else memoryAfter as k := by
      simp [memoryAfter, Function.update_apply, hslot]
    rw [hstep, ih hbefore, List.map_append, List.getElem?_append, List.length_map]
    grind

/-- In a module of an assembled program the slots are assigned in order, with the contents of the
memory. -/
theorem assignments_of_assemble {source : Text} {records : List Record}
    (h : Program.assemble source = .ok records) (hsize : records.length ≤ 2 ^ 30) {g : Geometry}
    (hfits : records.length ≤ g.depth) :
    (assignments none ((moduleLines g records ++ [[]]).map uncommented)).map (·.1) =
        List.range g.depth ∧
      (assignments none ((moduleLines g records ++ [[]]).map uncommented)).map (·.2) =
        contents g records := by
  have hrange : List.range g.depth = List.range records.length ++
      List.range' records.length (g.depth - records.length) := by
    have happend := List.range'_append_1 (s := 0) (m := records.length)
      (n := g.depth - records.length)
    rw [Nat.zero_add, Nat.add_sub_cancel' hfits] at happend
    rw [List.range_eq_range', List.range_eq_range', happend]
  rw [assignments_moduleLines]
  constructor
  · simp only [List.map_append, List.map_map, hrange, ← slots_of_assembleLines h hsize]
    congr 1
    exact List.map_id _
  · simp only [List.map_append, List.map_map, contents]
    congr 1
    exact (List.map_const' ..).trans (by rw [List.length_range'])

theorem length_contents {g : Geometry} {records : List Record} (h : records.length ≤ g.depth) :
    (contents g records).length = g.depth := by
  simp [contents, h]

/-- **The module and the image hold the same memory.** Whenever a program of up to `2 ^ 30`
instructions is written as a module, it is written as an image too. The image reads as one word for
each slot. The module assigns every slot below the depth once and no other slot, and leaves the
memory with the words of the image. What its source lines hold is no part of its code: with every
quoted line removed, the lines of code are the same. -/
theorem images_hold_same_memory {source : Text} {records : List Record} {g : Geometry}
    {text : Text} (h : Program.assemble source = .ok records) (hsize : records.length ≤ 2 ^ 30)
    (hmodule : verilog g records = .ok text) :
    ∃ image words bare,
      hex g records = .ok image ∧ imageWords? image = some words ∧ words.length = g.depth ∧
      (∀ k, ((moduleAssignments text).map (·.1)).count k = if k < g.depth then 1 else 0) ∧
      (∀ k, memoryAfter (moduleAssignments text) k = words[k]?) ∧
      verilog g (records.map unquoted) = .ok bare ∧ codeLines text = codeLines bare := by
  obtain ⟨hcheck, hname, rfl⟩ := verilog_eq_ok.1 hmodule
  have hfits := check_eq_ok hcheck
  have hcode := codeLines_unlines (newline_notMem_moduleLines hname (newline_notMem_source h))
  have hquotes : ∀ r ∈ records.map unquoted, '\n' ∉ r.source :=
    List.forall_mem_map.2 fun _ _ => List.not_mem_nil
  have hbare := codeLines_unlines (newline_notMem_moduleLines hname hquotes)
  obtain ⟨hslots, hwords⟩ := assignments_of_assemble h hsize hfits
  rw [← hcode] at hslots hwords
  refine ⟨_, contents g records, Text.unlines (moduleLines g (records.map unquoted)), ?_,
    imageWords?_unlines _, length_contents hfits, ?_, ?_, ?_, ?_⟩
  · rw [hex, hcheck]
  · intro k
    rw [moduleAssignments, hslots, List.nodup_range.count]
    simp
  · intro k
    have hlength := congrArg List.length hslots
    rw [List.length_map, List.length_range] at hlength
    rw [moduleAssignments, ← hwords]
    exact memoryAfter_eq (hlength ▸ hslots) k
  · exact verilog_eq_ok.2 ⟨by rwa [List.length_map], hname, rfl⟩
  · rw [hcode, hbare, List.map_append, List.map_append, map_uncommented_moduleLines]

/-- A program whose comments look like code and hold line separators of their own. -/
theorem images_hold_same_memory_quoted :
    ∃ records text,
      Program.assemble
        ("l: addi x1, x0, 1 // rom[0] = 32'h00000000; \u2028 endmodule\r\n".toList ++
          "\n beq x0, x0, l # \u0085 end\n".toList) = .ok records ∧
      records.length ≤ 2 ^ 30 ∧ verilog ⟨"m".toList, 4, nopWord⟩ records = .ok text ∧
      ∃ image words bare,
        hex ⟨"m".toList, 4, nopWord⟩ records = .ok image ∧ imageWords? image = some words ∧
        words.length = 4 ∧
        (∀ k, ((moduleAssignments text).map (·.1)).count k = if k < 4 then 1 else 0) ∧
        (∀ k, memoryAfter (moduleAssignments text) k = words[k]?) ∧
        verilog ⟨"m".toList, 4, nopWord⟩ (records.map unquoted) = .ok bare ∧
        codeLines text = codeLines bare := by
  obtain ⟨records, h, hlength⟩ : ∃ records, Program.assemble
      ("l: addi x1, x0, 1 // rom[0] = 32'h00000000; \u2028 endmodule\r\n".toList ++
        "\n beq x0, x0, l # \u0085 end\n".toList) = .ok records ∧ records.length = 2 :=
    ⟨_, rfl, rfl⟩
  have hmodule : verilog ⟨"m".toList, 4, nopWord⟩ records =
      .ok (Text.unlines (moduleLines ⟨"m".toList, 4, nopWord⟩ records)) :=
    verilog_eq_ok.2 ⟨by rw [hlength]; decide, by decide, rfl⟩
  have hsize : records.length ≤ 2 ^ 30 := by omega
  exact ⟨_, _, h, hsize, hmodule, images_hold_same_memory h hsize hmodule⟩

end RiscvRom.Rom
