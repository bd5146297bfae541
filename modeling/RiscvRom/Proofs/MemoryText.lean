import RiscvRom.Proofs.LineCode
import RiscvRom.Proofs.Parsing
import RiscvRom.Proofs.Numeral
import RiscvRom.Rom.Image

/-! Instruction memories read back from their texts.

A module is read line by line, each line up to its comment. A line assigns a word to a slot, opens
a loop over `i`, or closes it; any other line does nothing. An assignment to slot `i` stands for all
slots that the loop around it runs through. A hexadecimal image is read as one word for each
line. -/

namespace RiscvRom.Rom

/-- The stretches between line feeds. -/
def physicalLines (t : Text) : List Text := splitWhere (· == '\n') t

/-- A line up to the first `//`. -/
def uncommented : Text → Text
  | [] => []
  | c :: r => if c = '/' ∧ r.head? = some '/' then [] else c :: uncommented r

/-- What is left of a module without its comments. -/
def codeLines (t : Text) : List Text := (physicalLines t).map uncommented

def word? (digits : Text) : Option Word :=
  ((Text.natural? 16 digits).filter (· < 2 ^ 32)).map (BitVec.ofNat 32)

/-- `rom[k] = 32'hX;`, as the text of the index and the word. -/
def assignment? (code : Text) : Option (Text × Word) :=
  ((Text.trim code).dropPrefix? "rom[".toList).bind fun t =>
    ((t.dropWhile (· != ']')).dropPrefix? "] = 32'h".toList).bind fun u =>
      if u.dropWhile (· != ';') = ";".toList then
        (word? (u.takeWhile (· != ';'))).map fun w => (Text.trim (t.takeWhile (· != ']')), w)
      else none

/-- `for (i = a; i < b; i = i + 1) begin`, as the two bounds. -/
def loop? (code : Text) : Option (Nat × Nat) :=
  ((Text.trim code).dropPrefix? "for (i = ".toList).bind fun t =>
    ((t.dropWhile (· != ';')).dropPrefix? "; i < ".toList).bind fun u =>
      if u.dropWhile (· != ';') = "; i = i + 1) begin".toList then
        (Text.natural? 10 (t.takeWhile (· != ';'))).bind fun a =>
          (Text.natural? 10 (u.takeWhile (· != ';'))).map fun b => (a, b)
      else none

def isLoopEnd (code : Text) : Bool := Text.trim code = "end".toList

/-- The slots that an assignment sets, in turn, where `i` runs through the loop around it. -/
def assignedSlots (loop : Option (Nat × Nat)) (index : Text) : List Nat :=
  match loop, Text.natural? 10 index with
  | none, some k => [k]
  | some (a, b), some k => List.replicate (b - a) k
  | some (a, b), none => if index = "i".toList then List.range' a (b - a) else []
  | none, none => []

/-- All assignments of the lines, in the order in which they take place. -/
def assignments (loop : Option (Nat × Nat)) : List Text → List (Nat × Word)
  | [] => []
  | code :: rest =>
    match loop? code with
    | some bounds => assignments (some bounds) rest
    | none =>
      if isLoopEnd code then assignments none rest
      else
        (assignment? code).elim [] (fun a => (assignedSlots loop a.1).map (·, a.2)) ++
          assignments loop rest

/-- The assignments of a module. -/
def moduleAssignments (t : Text) : List (Nat × Word) := assignments none (codeLines t)

/-- The memory that assignments leave behind, where it was not set before. -/
def memoryAfter (as : List (Nat × Word)) : Nat → Option Word :=
  as.foldl (fun memory a => Function.update memory a.1 (some a.2)) fun _ => none

/-- The words of a hexadecimal image. -/
def imageWords? (t : Text) : Option (List Word) :=
  ((physicalLines t).filter (· ≠ [])).mapM word?

/-! ## Lines -/

theorem physicalLines_of_notMem {t : Text} (h : '\n' ∉ t) : physicalLines t = [t] :=
  splitWhere_of_forall (beq_eq_false_of_notMem h)

theorem physicalLines_append {t : Text} (h : '\n' ∉ t) (u : Text) :
    physicalLines (t ++ '\n' :: u) = t :: physicalLines u :=
  splitWhere_append_cons (beq_eq_false_of_notMem h) rfl

/-- Lines without a line feed are found again, whatever comes after them. -/
theorem physicalLines_unlines_append {ls : List Text} (h : ∀ l ∈ ls, '\n' ∉ l)
    (rest : List Text) :
    physicalLines (Text.unlines (ls ++ rest)) = ls ++ physicalLines (Text.unlines rest) := by
  induction ls with
  | nil => rfl
  | cons l ls ih =>
    have hjoin : Text.unlines (l :: ls ++ rest) = l ++ '\n' :: Text.unlines (ls ++ rest) := by
      simp [Text.unlines]
    have hrest := ih fun x hx => h x (List.mem_cons_of_mem l hx)
    rw [hjoin, physicalLines_append (h l List.mem_cons_self), hrest, List.cons_append]

theorem physicalLines_unlines {ls : List Text} (h : ∀ l ∈ ls, '\n' ∉ l) :
    physicalLines (Text.unlines ls) = ls ++ [[]] := by
  have hall := physicalLines_unlines_append h []
  rwa [List.append_nil] at hall

/-- Whatever follows the slashes is ignored. -/
theorem uncommented_append {code : Text} (h : '/' ∉ code) (comment : Text) :
    uncommented (code ++ '/' :: '/' :: comment) = code := by
  induction code with
  | nil => simp [uncommented]
  | cons c code ih =>
    simp only [List.mem_cons, not_or] at h
    rw [List.cons_append, uncommented, if_neg fun hc => h.1 hc.1.symm, ih h.2]

theorem uncommented_of_notMem {code : Text} (h : '/' ∉ code) : uncommented code = code := by
  induction code with
  | nil => rfl
  | cons c code ih =>
    simp only [List.mem_cons, not_or] at h
    rw [uncommented, if_neg fun hc => h.1 hc.1.symm, ih h.2]

theorem notMem_decimal {c : Char} (hc : c.isDigit = false) (n : Nat) : c ∉ Text.decimal n := by
  intro h
  rw [Text.isDigit_of_mem_decimal h] at hc
  cases hc

theorem notMem_hexWord {c : Char} (hc : Text.isDigitOf 16 c = false) (w : Word) :
    c ∉ Text.hexWord w := by
  intro h
  rw [(Text.denotes_hexWord w).1 c h] at hc
  cases hc

theorem word?_hexWord (w : Word) : word? (Text.hexWord w) = some w := by
  have hw := w.isLt
  simp [word?, Text.natural?_hexWord, Option.filter, hw]

/-! ## Statements -/

theorem dropPrefix?_self_append (start t : Text) : (start ++ t).dropPrefix? start = some t :=
  List.dropPrefix?_append_of_beq t (by simp)

theorem dropPrefix?_cons_of_ne {a b : Char} (h : a ≠ b) (start t : Text) :
    (a :: t).dropPrefix? (b :: start) = none := by
  rw [List.dropPrefix?, if_neg (by simpa using h)]

/-- A text with `stop` behind it is found again up to there. -/
theorem span_append {stop : Char} {t : Text} (h : stop ∉ t) (r : Text) :
    (t ++ stop :: r).takeWhile (· != stop) = t ∧
      (t ++ stop :: r).dropWhile (· != stop) = stop :: r := by
  have hfree : ∀ c ∈ t, (c != stop) = true := by
    intro c hc
    rw [bne_iff_ne]
    rintro rfl
    exact h hc
  rw [List.takeWhile_append_of_pos hfree, List.dropWhile_append_of_pos hfree]
  simp

theorem assignment?_of_trim {code index digits : Text} (hi : ']' ∉ index) (hd : ';' ∉ digits)
    (h : Text.trim code = "rom[".toList ++ (index ++ ("] = 32'h".toList ++ (digits ++ [';'])))) :
    assignment? code = (word? digits).map fun w => (Text.trim index, w) := by
  have hindex := span_append hi (" = 32'h".toList ++ (digits ++ [';']))
  have hdigits := span_append hd []
  have hclose : "] = 32'h".toList ++ (digits ++ [';']) =
      ']' :: (" = 32'h".toList ++ (digits ++ [';'])) := rfl
  rw [assignment?, h, dropPrefix?_self_append, Option.bind_some, hclose, hindex.1, hindex.2,
    ← hclose, dropPrefix?_self_append, Option.bind_some, hdigits.1, hdigits.2]
  exact if_pos rfl

theorem loop?_of_trim {code : Text} {a b : Nat}
    (h : Text.trim code = "for (i = ".toList ++ (Text.decimal a ++ ("; i < ".toList ++
      (Text.decimal b ++ "; i = i + 1) begin".toList)))) : loop? code = some (a, b) := by
  have hfree : ∀ n, ';' ∉ Text.decimal n := notMem_decimal (by decide)
  have hfirst := span_append (hfree a)
    (" i < ".toList ++ (Text.decimal b ++ "; i = i + 1) begin".toList))
  have hlimit := span_append (hfree b) " i = i + 1) begin".toList
  have hclose : "; i < ".toList ++ (Text.decimal b ++ "; i = i + 1) begin".toList) =
      ';' :: (" i < ".toList ++ (Text.decimal b ++ "; i = i + 1) begin".toList)) := rfl
  have hend : "; i = i + 1) begin".toList = ';' :: " i = i + 1) begin".toList := rfl
  rw [loop?, h, dropPrefix?_self_append, Option.bind_some, hclose, hfirst.1, hfirst.2, ← hclose,
    dropPrefix?_self_append, Option.bind_some, hend, hlimit.1, hlimit.2, if_pos rfl,
    Text.natural?_decimal, Text.natural?_decimal]
  rfl

/-! ## What one line adds -/

/-- A line that does nothing. -/
structure IsIdle (code : Text) : Prop where
  noLoop : loop? code = none
  noEnd : isLoopEnd code = false
  noAssignment : assignment? code = none

section
variable {code : Text} (loop : Option (Nat × Nat)) (rest : List Text)

theorem assignments_cons_idle (h : IsIdle code) :
    assignments loop (code :: rest) = assignments loop rest := by
  rw [assignments, h.noLoop]
  simp [h.noEnd, h.noAssignment]

theorem assignments_cons_loop {bounds : Nat × Nat} (h : loop? code = some bounds) :
    assignments loop (code :: rest) = assignments (some bounds) rest := by
  rw [assignments, h]

theorem assignments_cons_end (h : loop? code = none) (hend : isLoopEnd code = true) :
    assignments loop (code :: rest) = assignments none rest := by
  rw [assignments, h]
  simp [hend]

/-- An assignment is no loop and no end of one. -/
theorem assignments_cons_assignment {index digits : Text} {w : Word} (hi : ']' ∉ index)
    (hd : ';' ∉ digits) (hw : word? digits = some w)
    (h : Text.trim code = "rom[".toList ++ (index ++ ("] = 32'h".toList ++ (digits ++ [';'])))) :
    assignments loop (code :: rest) =
      (assignedSlots loop (Text.trim index)).map (·, w) ++ assignments loop rest := by
  have hloop : loop? code = none := by
    rw [loop?, h]
    rfl
  have hend : isLoopEnd code = false := by
    rw [isLoopEnd, h]
    rfl
  rw [assignments, hloop]
  simp [hend, assignment?_of_trim hi hd h, hw]

end

/-- A line is idle if its code starts with letters that no statement of interest starts with. -/
theorem isIdle_of_trim {code t : Text} {c d : Char} (h : Text.trim code = c :: d :: t)
    (hc : c ≠ 'f' ∧ c ≠ 'e') (hd : c = 'r' → d ≠ 'o') : IsIdle code := by
  have hfor : (c :: d :: t).dropPrefix? "for (i = ".toList = none :=
    dropPrefix?_cons_of_ne hc.1 _ _
  have hrom : (c :: d :: t).dropPrefix? "rom[".toList = none := by
    by_cases hr : c = 'r'
    · subst hr
      exact dropPrefix?_cons_of_ne (hd rfl) _ _
    · exact dropPrefix?_cons_of_ne hr _ _
  refine ⟨?_, ?_, ?_⟩
  · rw [loop?, h, hfor, Option.bind_none]
  · rw [isLoopEnd, h]
    exact decide_eq_false fun heq => hc.2 (List.cons.inj heq).1
  · rw [assignment?, h, hrom, Option.bind_none]

end RiscvRom.Rom
