import RiscvRom.Proofs.LineCode
import RiscvRom.Proofs.Relocation

/-! Layout that does not matter.

A program is placed and assembled from the statements on its lines. White space around a line and a
comment behind it leave its statement as it is, and a line without a statement has no part in the
program at all. So programs that differ in layout have the same words in the same slots, or the same
fault. Line feeds with a carriage return before them change no more than the white space at the ends
of lines, which is trimmed away even where lines are quoted. -/

namespace RiscvRom

/-! ## Lines with the same code -/

namespace Source

open Text (AllBlank)

/-- One change to the layout of a line: white space at either end, or a comment behind it. -/
inductive Restyled : Text → Text → Prop
  | leading {b : Text} (hb : AllBlank b) (t : Text) : Restyled t (b ++ t)
  | trailing {b : Text} (hb : AllBlank b) (t : Text) : Restyled t (t ++ b)
  | hash (t comment : Text) : Restyled t (t ++ '#' :: comment)
  | slashes {t : Text} (ht : t.getLast? ≠ some '/') (comment : Text) :
      Restyled t (t ++ '/' :: '/' :: comment)

theorem code_append_comment {t comment : Text} (h : withoutComment comment = [])
    (hmeet : t.getLast? = some '/' → comment.head? ≠ some '/') :
    code (t ++ comment) = code t := by
  rw [code_eq, code_eq, withoutComment_append hmeet, h]
  simp

theorem code_restyled {t t' : Text} (h : Restyled t t') : code t' = code t := by
  cases h with
  | leading hb => rw [code_eq, withoutComment_blank_append hb, Text.trim_blank_append hb, code_eq]
  | trailing hb => rw [code_eq, trim_withoutComment_append_blank hb, code_eq]
  | hash t comment => exact code_append_comment rfl (by simp)
  | slashes ht comment => exact code_append_comment rfl fun hlast => absurd hlast ht

theorem statement?_restyled {t t' : Text} (h : Restyled t t') : statement? t' = statement? t := by
  rw [statement?, code_restyled h, statement?]

theorem statement?_of_code_nil {t : Text} (h : code t = []) : statement? t = none := by
  rw [statement?, h]
  rfl

end Source

/-! ## Placing the statements of lines -/

namespace Placement

section
variable {α : Type}

/-- The statements of a list with their addresses, each with what is noted beside it. -/
def placed (pc : Nat) : List (Statement × α) → List (Nat × Statement × α)
  | [] => []
  | (s, note) :: rest => (pc, s, note) :: placed (s.after pc) rest

/-- The statements on lines, each with a note taken from its line. -/
def noted (note : Line → α) (lines : List Line) : List (Statement × α) :=
  lines.filterMap fun l => l.statement?.map fun s => (s, note l)

/-- Lines are placed by their statements: lines without one take no part. -/
theorem map_statements (note : Line → α) (pc : Nat) (lines : List Line) :
    (statements pc lines).map (fun p => (p.address, p.statement, note p.line)) =
      placed pc (noted note lines) := by
  induction lines generalizing pc with
  | nil => rfl
  | cons l lines ih =>
    cases hl : l.statement? with
    | none =>
      rw [statements_cons_none hl, ih, noted, noted, List.filterMap_cons_none (by rw [hl]; rfl)]
    | some s =>
      rw [statements_cons_some hl, List.map_cons, ih, noted, noted,
        List.filterMap_cons_some (b := (s, note l)) (by rw [hl]; rfl)]
      rfl

/-- Whatever is told by address, statement and note is the same for lines with the same statements
and notes. -/
theorem filterMap_statements_congr {β : Type} {note : Line → α} {lines lines' : List Line}
    (h : noted note lines = noted note lines') (f : PlacedStatement → Option β)
    (g : Nat × Statement × α → Option β) (hf : ∀ p, f p = g (p.address, p.statement, note p.line))
    (pc : Nat) : (statements pc lines).filterMap f = (statements pc lines').filterMap f := by
  have hplaced : ∀ ls,
      (statements pc ls).filterMap f = (placed pc (noted note ls)).filterMap g := by
    intro ls
    rw [← map_statements, List.filterMap_map]
    exact List.filterMap_congr fun p _ => hf p
  rw [hplaced, hplaced, h]

end

end Placement

/-! ## Labels of placed statements -/

namespace SymbolTable

/-- A name is looked up to the latest symbol of that name. -/
theorem find?_ofDefinitions (ds : List Symbol) (name : Text) :
    (ofDefinitions ds).find? name = List.find? (·.name == name) ds.reverse := by
  induction ds using List.reverseRecOn with
  | nil => rfl
  | append_singleton ds s ih =>
    have hstep : ofDefinitions (ds ++ [s]) = define (ofDefinitions ds) s := by
      simp [ofDefinitions]
    rw [hstep, List.reverse_append, List.reverse_singleton, List.singleton_append]
    by_cases h : s.name = name
    · subst h
      rw [find?_define_self, List.find?_cons_of_pos (by simp)]
    · rw [find?_define_of_ne _ _ (Ne.symm h), ih, List.find?_cons_of_neg (by simpa using h)]

/-- Distances depend on the names and addresses of the definitions only. -/
theorem distance_congr {ds ds' : List Symbol}
    (h : ds.map (fun s => (s.name, s.address)) = ds'.map fun s => (s.name, s.address))
    (pc : Nat) (target : Text) :
    (ofDefinitions ds).distance pc target = (ofDefinitions ds').distance pc target := by
  have haddress : ∀ ds : List Symbol, ((ofDefinitions ds).find? target).map (·.address) =
      ((ds.map fun s => (s.name, s.address)).reverse.find? (·.1 == target)).map (·.2) := by
    intro ds
    rw [find?_ofDefinitions, ← List.map_reverse, List.find?_map, Option.map_map]
    rfl
  have hsame : ((ofDefinitions ds).find? target).map (·.address) =
      ((ofDefinitions ds').find? target).map (·.address) := by
    rw [haddress, haddress, h]
  unfold distance
  cases hd : (ofDefinitions ds).find? target <;> cases hd' : (ofDefinitions ds').find? target <;>
    rw [hd, hd'] at hsame <;> simp_all

end SymbolTable

/-! ## What is left of an assembly without the lines it quotes -/

namespace Program

/-- The words with their slots, or the fault. -/
def outline : Except Diagnostic (List Record) → Except Fault (List (Nat × Word))
  | .ok records => .ok (records.map fun r => (r.slot, r.word))
  | .error d => .error d.fault

/-- The word of an instruction at an address, with its slot. -/
def slotWord (symbols : SymbolTable) (p : Nat × Text) : Except Fault (Nat × Word) :=
  (PlacedInstruction.word symbols ⟨p.1, p.2, [], 0⟩).map fun w => (p.1 / bytesPerWord, w)

theorem outline_mapM (symbols : SymbolTable) (ps : List PlacedInstruction) :
    outline (ps.mapM (·.record symbols)) =
      (ps.map fun p => (p.address, p.instruction)).mapM (slotWord symbols) := by
  induction ps with
  | nil => rfl
  | cons p ps ih =>
    have hword : PlacedInstruction.word symbols ⟨p.address, p.instruction, [], 0⟩ =
        p.word symbols := rfl
    rw [List.map_cons, mapM_cons_eq, mapM_cons_eq, ← ih, slotWord, hword, PlacedInstruction.record]
    cases p.word symbols with
    | error fault => rfl
    | ok w => cases ps.mapM (·.record symbols) <;> rfl

/-- Lines with the same statements have the same outline. -/
theorem outline_assembleLines_congr {lines lines' : List Line}
    (h : lines.filterMap Line.statement? = lines'.filterMap Line.statement?) :
    outline (assembleLines lines) = outline (assembleLines lines') := by
  have hnoted : Placement.noted (fun _ => ()) lines = Placement.noted (fun _ => ()) lines' := by
    simpa only [Placement.noted, List.map_filterMap] using
      congrArg (List.map fun s => (s, ())) h
  have hkeys : (Placement.ofLines lines).instructions.map (fun p => (p.address, p.instruction)) =
      (Placement.ofLines lines').instructions.map fun p => (p.address, p.instruction) := by
    simp only [Placement.ofLines, List.map_filterMap]
    refine Placement.filterMap_statements_congr hnoted _
      (fun x => x.2.1.instruction.map fun t => (x.1, t)) (fun p => ?_) 0
    rw [PlacedStatement.instruction?, Option.map_map]
    rfl
  have hsymbols : slotWord (Placement.ofLines lines).symbols =
      slotWord (Placement.ofLines lines').symbols := by
    funext p
    rw [slotWord, slotWord]
    congr 1
    refine PlacedInstruction.word_congr rfl fun t _ => ?_
    refine SymbolTable.distance_congr ?_ _ t
    simp only [List.map_filterMap]
    refine Placement.filterMap_statements_congr hnoted _
      (fun x => x.2.1.label.map fun name => (name, x.1)) (fun p => ?_) 0
    rw [PlacedStatement.definition?, Option.map_map]
    rfl
  rw [assembleLines, assemblePlaced, outline_mapM, hkeys, hsymbols, ← outline_mapM]
  rfl

/-! ## Changes of layout -/

/-- One change of layout: a line without code is put in, or a line is restyled. Line numbers may
change with it. -/
inductive LayoutStep : List Line → List Line → Prop
  | insert (before after : List Line) {blank : Line} (h : Source.code blank.text = []) :
      LayoutStep (before ++ after) (before ++ blank :: after)
  | restyle (before after : List Line) {l l' : Line} (h : Source.Restyled l.text l'.text) :
      LayoutStep (before ++ l :: after) (before ++ l' :: after)

theorem statements_of_layoutStep {lines lines' : List Line} (h : LayoutStep lines lines') :
    lines'.filterMap Line.statement? = lines.filterMap Line.statement? := by
  cases h with
  | @insert before after blank h =>
    have hnone : blank.statement? = none := Source.statement?_of_code_nil h
    rw [List.filterMap_append, List.filterMap_append, List.filterMap_cons_none hnone]
  | @restyle before after l l' h =>
    have hsame : l'.statement? = l.statement? := Source.statement?_restyled h
    rw [List.filterMap_append, List.filterMap_append, List.filterMap_cons, List.filterMap_cons,
      hsame]

/-- Any number of changes leaves the statements as they are. -/
theorem statements_of_layout {lines lines' : List Line}
    (h : Relation.ReflTransGen LayoutStep lines lines') :
    lines'.filterMap Line.statement? = lines.filterMap Line.statement? := by
  induction h with
  | refl => rfl
  | tail _ hstep ih => exact (statements_of_layoutStep hstep).trans ih

/-- The two results have the same words in the same slots, or the same fault. -/
def Alike (x y : Except Diagnostic (List Record)) : Prop :=
  (∃ records records', x = .ok records ∧ y = .ok records' ∧
    records'.map (fun r => (r.slot, r.word)) = records.map fun r => (r.slot, r.word)) ∨
  ∃ d d', x = .error d ∧ y = .error d' ∧ d'.fault = d.fault

theorem alike_of_outline {x y : Except Diagnostic (List Record)} (h : outline y = outline x) :
    Alike x y := by
  cases x with
  | ok records =>
    cases y with
    | ok records' => exact .inl ⟨records, records', rfl, rfl, Except.ok.inj h⟩
    | error d' => cases h
  | error d =>
    cases y with
    | ok records' => cases h
    | error d' => exact .inr ⟨d, d', rfl, rfl, Except.error.inj h⟩

end Program

/-! ## Line ends with a carriage return -/

namespace Text

/-- Every line feed with a carriage return before it. -/
def withReturns (t : Text) : Text := t.flatMap fun c => if c = '\n' then ['\r', '\n'] else [c]

/-- A carriage return behind every text but the last. -/
def returned : List Text → List Text
  | [] => []
  | [l] => [l]
  | l :: l' :: ls => (l ++ ['\r']) :: returned (l' :: ls)

theorem splitWhere_withReturns (t : Text) :
    splitWhere (· == '\n') (withReturns t) = returned (splitWhere (· == '\n') t) := by
  induction t with
  | nil => rfl
  | cons c t ih =>
    rw [splitWhere_cons]
    obtain ⟨part, parts, hparts⟩ := List.exists_cons_of_ne_nil (splitWhere_ne_nil (· == '\n') t)
    rw [hparts] at ih ⊢
    by_cases hc : c = '\n'
    · subst hc
      have hreturns : withReturns ('\n' :: t) = ['\r'] ++ '\n' :: withReturns t := rfl
      rw [hreturns, splitWhere_append_cons (by simp) (by simp), ih]
      rfl
    · have hreturns : withReturns (c :: t) = c :: withReturns t := by simp [withReturns, hc]
      have hcut : (c == '\n') = false := by simpa using hc
      rw [hreturns, splitWhere_cons, ih]
      cases parts <;> simp [returned, pushFront, hcut]

theorem dropLast_returned (ls : List Text) :
    (returned ls).dropLast = ls.dropLast.map (· ++ ['\r']) := by
  fun_induction returned ls with
  | case1 => rfl
  | case2 => rfl
  | case3 l l' ls ih =>
    have hne : returned (l' :: ls) ≠ [] := by cases ls <;> simp [returned]
    rw [List.dropLast_cons_of_ne_nil hne, ih]
    rfl

theorem getLast?_returned (ls : List Text) : (returned ls).getLast? = ls.getLast? := by
  fun_induction returned ls with
  | case1 => rfl
  | case2 => rfl
  | case3 l l' ls ih =>
    have hne : returned (l' :: ls) ≠ [] := by cases ls <;> simp [returned]
    rw [List.getLast?_cons_of_ne_nil hne, ih, List.getLast?_cons_cons]

theorem dropReturn_append_return (t : Text) : dropReturn (t ++ ['\r']) = t := by
  simp [dropReturn]

/-- What does not see a carriage return at the end of a line does not see those at its line end. -/
theorem map_lines_withReturns {β : Type} {f : Text → β} (hf : ∀ t, f (t ++ ['\r']) = f t)
    (t : Text) : (lines (withReturns t)).map f = (lines t).map f := by
  have hdrop : ∀ l, f (dropReturn l) = f l := by
    intro l
    rcases l.eq_nil_or_concat with rfl | ⟨l, c, rfl⟩
    · rfl
    · rw [List.concat_eq_append]
      by_cases hc : c = '\r'
      · subst hc
        rw [dropReturn_append_return, hf]
      · simp [dropReturn, hc]
  have hkept : ∀ l, f (dropReturn (l ++ ['\r'])) = f (dropReturn l) := by
    intro l
    rw [dropReturn_append_return, hdrop]
  simp only [lines, splitWhere_withReturns, dropLast_returned, getLast?_returned, List.map_append,
    List.map_map]
  congr 1
  exact List.map_congr_left fun l _ => hkept l

end Text

namespace Line

/-- What an assembly takes from a line: its statement, and how it is quoted. -/
def reading (l : Line) : Option Statement × Text × Nat := (l.statement?, l.trimmed, l.number)

end Line

namespace Program

theorem assembleLines_congr {lines lines' : List Line}
    (h : lines.map Line.reading = lines'.map Line.reading) :
    assembleLines lines = assembleLines lines' := by
  have hnoted : Placement.noted (fun l => (l.trimmed, l.number)) lines =
      Placement.noted (fun l => (l.trimmed, l.number)) lines' := by
    have hread := congrArg (List.filterMap fun r => r.1.map fun s => (s, r.2)) h
    rw [List.filterMap_map, List.filterMap_map] at hread
    exact hread
  have hinstructions : (Placement.ofLines lines).instructions =
      (Placement.ofLines lines').instructions :=
    Placement.filterMap_statements_congr hnoted PlacedStatement.instruction?
      (fun x => x.2.1.instruction.map fun t => ⟨x.1, t, x.2.2.1, x.2.2.2⟩) (fun _ => rfl) 0
  have hsymbols : (Placement.ofLines lines).symbols = (Placement.ofLines lines').symbols :=
    congrArg SymbolTable.ofDefinitions (Placement.filterMap_statements_congr hnoted
      PlacedStatement.definition? (fun x => x.2.1.label.map fun name => ⟨name, x.1, x.2.2.2⟩)
      (fun _ => rfl) 0)
  rw [assembleLines, assembleLines, assemblePlaced, assemblePlaced, hinstructions, hsymbols]

theorem reading_lines_withReturns (source : Text) :
    (Source.lines (Text.withReturns source)).map Line.reading =
      (Source.lines source).map Line.reading := by
  have hreturn : Text.AllBlank ['\r'] := by decide
  have hlines : ∀ s, (Source.lines s).map Line.reading =
      ((Text.lines s).map fun t => (Source.statement? t, Text.trim t)).zipIdx.map
        fun x => (x.1.1, x.1.2, x.2 + 1) := by
    intro s
    rw [Source.lines, List.map_map, List.zipIdx_map, List.map_map]
    rfl
  rw [hlines, hlines, Text.map_lines_withReturns]
  intro t
  rw [Source.statement?_restyled (.trailing hreturn t), Text.trim_append_blank hreturn]

theorem assemble_withReturns (source : Text) :
    assemble (Text.withReturns source) = assemble source :=
  assembleLines_congr (reading_lines_withReturns source)

/-- **Layout is no part of a program.** Lines that are put in without code, white space around lines
and comments behind them leave all words in their slots, or the fault that there is. Carriage
returns before the line feeds leave everything as it is, down to the lines that are quoted. -/
theorem layout_irrelevant :
    (∀ lines lines' : List Line, Relation.ReflTransGen LayoutStep lines lines' →
      Alike (assembleLines lines) (assembleLines lines')) ∧
    ∀ source : Text, assemble (Text.withReturns source) = assemble source :=
  ⟨fun _ _ h => alike_of_outline (outline_assembleLines_congr (statements_of_layout h)),
    assemble_withReturns⟩

/-- A comment line above a loop, an ideographic space before it, and a comment with a label and a
hash sign in it. -/
theorem layout_irrelevant_commented :
    Relation.ReflTransGen LayoutStep [⟨"top: beq x1, x2, top".toList, 1⟩]
      [⟨"\t# top: one / two".toList, 1⟩, ⟨"\u3000top: beq x1, x2, top// top: #".toList, 2⟩] ∧
    Alike (assembleLines [⟨"top: beq x1, x2, top".toList, 1⟩])
      (assembleLines
        [⟨"\t# top: one / two".toList, 1⟩, ⟨"\u3000top: beq x1, x2, top// top: #".toList, 2⟩]) := by
  have hinsert : LayoutStep [⟨"top: beq x1, x2, top".toList, 1⟩]
      [⟨"\t# top: one / two".toList, 1⟩, ⟨"top: beq x1, x2, top".toList, 1⟩] :=
    .insert [] _ (by decide)
  have hindent : LayoutStep
      [⟨"\t# top: one / two".toList, 1⟩, ⟨"top: beq x1, x2, top".toList, 1⟩]
      [⟨"\t# top: one / two".toList, 1⟩, ⟨"\u3000top: beq x1, x2, top".toList, 2⟩] :=
    .restyle [_] [] (.leading (b := ['\u3000']) (by decide) _)
  have hcomment : LayoutStep
      [⟨"\t# top: one / two".toList, 1⟩, ⟨"\u3000top: beq x1, x2, top".toList, 2⟩]
      [⟨"\t# top: one / two".toList, 1⟩, ⟨"\u3000top: beq x1, x2, top// top: #".toList, 2⟩] :=
    .restyle [_] [] (.slashes (by decide) " top: #".toList)
  have hlayout := ((Relation.ReflTransGen.single hinsert).tail hindent).tail hcomment
  exact ⟨hlayout, layout_irrelevant.1 _ _ hlayout⟩

end Program
end RiscvRom
