import RiscvRom.Proofs.FirstFault

/-! The grammar of instructions.

A text is a list of tokens with separators around and between them, and its tokens are this list; an
instruction is read from its tokens alone, and from the first one without regard to case. The tokens
are a mnemonic and one operand for each kind that the shape of the mnemonic has, in that order. The
result is the mnemonic with the value of every operand in its place, or the first fault: the
mnemonic, then the number of operands, then the operands from left to right. -/

namespace RiscvRom

/-! ## Tokens and separators -/

namespace Instruction

/-- Separators and nothing else. -/
def AllSeparators (t : Text) : Prop := ∀ c ∈ t, isSeparator c = true

/-- Tokens, each with the separators behind it; only behind the last there may be none. -/
structure IsSpacing (parts : List (Text × Text)) : Prop where
  token : ∀ p ∈ parts, IsToken p.1
  separators : ∀ p ∈ parts, AllSeparators p.2
  between : ∀ p ∈ parts.dropLast, p.2 ≠ []

/-- The text has these tokens, with separators between them and any number of them around. -/
def Spaced (ts : List Text) (t : Text) : Prop :=
  ∃ lead parts, AllSeparators lead ∧ IsSpacing parts ∧
    t = lead ++ parts.flatMap (fun p => p.1 ++ p.2) ∧ ts = parts.map (·.1)

theorem IsSpacing.tail {p : Text × Text} {parts : List (Text × Text)}
    (h : IsSpacing (p :: parts)) : IsSpacing parts where
  token := fun q hq => h.token q (List.mem_cons_of_mem p hq)
  separators := fun q hq => h.separators q (List.mem_cons_of_mem p hq)
  between := by
    intro q hq
    cases parts with
    | nil => cases hq
    | cons p' parts => exact h.between q (List.mem_cons_of_mem p hq)

theorem IsSpacing.cons {t s : Text} {parts : List (Text × Text)} (h : IsSpacing parts)
    (ht : IsToken t) (hs : AllSeparators s) (hne : parts ≠ [] → s ≠ []) :
    IsSpacing ((t, s) :: parts) where
  token := List.forall_mem_cons.2 ⟨ht, h.token⟩
  separators := List.forall_mem_cons.2 ⟨hs, h.separators⟩
  between := by
    cases parts with
    | nil => simp
    | cons p parts => exact List.forall_mem_cons.2 ⟨hne (by simp), h.between⟩

theorem tokens_separators_append {s : Text} (hs : AllSeparators s) (r : Text) :
    tokens (s ++ r) = tokens r := by
  induction s with
  | nil => rfl
  | cons c s ih =>
    obtain ⟨hc, hs⟩ := List.forall_mem_cons.1 hs
    rw [List.cons_append, tokens_cons_separator hc, ih hs]

theorem tokens_flatMap {parts : List (Text × Text)} (h : IsSpacing parts) :
    tokens (parts.flatMap fun p => p.1 ++ p.2) = parts.map (·.1) := by
  induction parts with
  | nil => rfl
  | cons p parts ih =>
    obtain ⟨t, s⟩ := p
    have ht : IsToken t := h.token (t, s) List.mem_cons_self
    have hs : AllSeparators s := h.separators (t, s) List.mem_cons_self
    rw [List.flatMap_cons, List.map_cons, List.append_assoc]
    cases s with
    | nil =>
      -- nothing stands between this token and the next, so that there is no next
      cases parts with
      | nil => simpa using tokens_of_isToken ht
      | cons p parts => exact absurd rfl (h.between (t, []) (by simp))
    | cons c s =>
      obtain ⟨hc, hs⟩ := List.forall_mem_cons.1 hs
      rw [List.cons_append, tokens_append ht hc, tokens_separators_append hs, ih h.tail]

/-- Every text is some tokens with separators around and between them. -/
theorem exists_spacing (t : Text) :
    ∃ lead parts, AllSeparators lead ∧ IsSpacing parts ∧
      t = lead ++ parts.flatMap (fun p => p.1 ++ p.2) := by
  induction t with
  | nil => exact ⟨[], [], by simp [AllSeparators], ⟨by simp, by simp, by simp⟩, rfl⟩
  | cons c r ih =>
    obtain ⟨lead, parts, hlead, hparts, rfl⟩ := ih
    by_cases hc : isSeparator c = true
    · exact ⟨c :: lead, parts, List.forall_mem_cons.2 ⟨hc, hlead⟩, hparts, rfl⟩
    · have hc : isSeparator c = false := Bool.eq_false_iff.2 hc
      have hnone : AllSeparators [] := by simp [AllSeparators]
      have hone : IsToken [c] := ⟨by simp, by simpa using hc⟩
      by_cases hnew : parts ≠ [] → lead ≠ []
      · exact ⟨[], ([c], lead) :: parts, hnone, hparts.cons hone hlead hnew, by simp⟩
      · -- the character stands right before the first token and belongs to it
        obtain ⟨hne, rfl⟩ : parts ≠ [] ∧ lead = [] := by simpa using hnew
        obtain ⟨⟨t, s⟩, parts, rfl⟩ := List.exists_cons_of_ne_nil hne
        have ht : IsToken t := hparts.token (t, s) List.mem_cons_self
        have hs : AllSeparators s := hparts.separators (t, s) List.mem_cons_self
        have htoken : IsToken (c :: t) := ⟨by simp, List.forall_mem_cons.2 ⟨hc, ht.2⟩⟩
        refine ⟨[], (c :: t, s) :: parts, hnone, hparts.tail.cons htoken hs fun hne => ?_, by simp⟩
        obtain ⟨p, parts, rfl⟩ := List.exists_cons_of_ne_nil hne
        exact hparts.between (t, s) (by simp)

theorem tokens_eq_iff_spaced {t : Text} {ts : List Text} : tokens t = ts ↔ Spaced ts t := by
  constructor
  · rintro rfl
    obtain ⟨lead, parts, hlead, hparts, rfl⟩ := exists_spacing t
    refine ⟨lead, parts, hlead, hparts, rfl, ?_⟩
    rw [tokens_separators_append hlead, tokens_flatMap hparts]
  · rintro ⟨lead, parts, hlead, hparts, rfl, rfl⟩
    rw [tokens_separators_append hlead, tokens_flatMap hparts]

/-- The tokens are the same, but for the case of the letters in the first. -/
def SameButCase (ts ts' : List Text) : Prop :=
  ts.head?.map Text.lower = ts'.head?.map Text.lower ∧ ts.tail = ts'.tail

theorem ofTokens_congr {ts ts' : List Text} (h : SameButCase ts ts') :
    ofTokens ts = ofTokens ts' := by
  obtain ⟨hhead, htail⟩ := h
  cases ts with
  | nil =>
    cases ts' with
    | nil => rfl
    | cons name' ops' => cases hhead
  | cons name ops =>
    cases ts' with
    | nil => cases hhead
    | cons name' ops' =>
      obtain rfl : ops = ops' := htail
      have hlower : Text.lower name = Text.lower name' := Option.some.inj hhead
      rw [ofTokens, ofTokens, Mnemonic.ofName?, Mnemonic.ofName?, hlower]

end Instruction

/-! ## Mnemonics -/

namespace Mnemonic

/-- The name of the mnemonic, in either case. -/
def Named (m : Mnemonic) (name : Text) : Prop := Text.lower name = Text.lower m.name

theorem lower_name (m : Mnemonic) : Text.lower m.name = m.name := by cases m <;> rfl

theorem ofName?_eq_some_iff {name : Text} {m : Mnemonic} :
    ofName? name = some m ↔ m.Named name := by
  rw [Named, lower_name]
  constructor
  · intro h
    have hname := List.find?_some (p := fun m : Mnemonic => m.name == Text.lower name) h
    exact (beq_iff_eq.1 hname).symm
  · intro h
    have hself := ofName?_name m
    rw [ofName?, lower_name] at hself
    rw [ofName?, h, hself]

theorem ofName?_eq_none_iff {name : Text} : ofName? name = none ↔ ∀ m, ¬Named m name := by
  simp only [Option.eq_none_iff_forall_ne_some, ne_eq, ofName?_eq_some_iff]

theorem shape_eq_fence {m : Mnemonic} (h : m.shape = .fence) : m = .fence := by
  cases m <;> first | rfl | cases h

end Mnemonic

/-! ## Operands by their kind -/

namespace Operand

/-- What is written at the place of an operand. -/
inductive Kind where
  | register | number | address | target

/-- What is read there; a target is any token. -/
inductive Value where
  | register (r : Register)
  | number (v : Int)
  | address (a : Address)
  | target (t : Text)

def Kind.read : Kind → Text → Except Fault Value
  | .register, t => (Operand.register t).map .register
  | .number, t => (Operand.immediate t).map .number
  | .address, t => (Operand.address t).map .address
  | .target, t => .ok (.target t)

end Operand

open Operand (Kind Value)

/-- The kinds of the operands, in the order in which they are written. -/
def Shape.kinds : Shape → List Kind
  | .register => [.register, .register, .register]
  | .immediate | .jalr => [.register, .register, .number]
  | .load | .store => [.register, .address]
  | .branch => [.register, .register, .target]
  | .upper => [.register, .number]
  | .jal => [.register, .target]
  | .fence => []

/-- The values of the operands, in the order in which they are written. -/
def Operands.values : Operands → List Value
  | .register rd rs1 rs2 => [.register rd, .register rs1, .register rs2]
  | .immediate rd rs1 imm => [.register rd, .register rs1, .number imm]
  | .load rd address => [.register rd, .address address]
  | .store rs2 address => [.register rs2, .address address]
  | .jalr rd rs1 imm => [.register rd, .register rs1, .number imm]
  | .branch rs1 rs2 target => [.register rs1, .register rs2, .target target]
  | .upper rd imm => [.register rd, .number imm]
  | .jal rd target => [.register rd, .target target]
  | .fence => []

/-- Whether instructions of the layout can be written in the shape. -/
def Shape.fits : Shape → Layout → Bool
  | .register, .r | .immediate, .i | .load, .i | .jalr, .i | .store, .s | .branch, .b | .upper, .u
  | .jal, .j | .fence, .fixed _ => true
  | _, _ => false

theorem Mnemonic.shape_fits (m : Mnemonic) : m.shape.fits m.encoding.layout = true := by
  cases m <;> rfl

theorem Operands.eq_of_values {a b : Operands} (hshape : a.shape = b.shape)
    (hvalues : a.values = b.values) : a = b := by
  cases a <;> cases b <;> simp_all [shape, values]

namespace Instruction

/-- The operands are as many as the mnemonic takes; `fence` takes any number. -/
def CountFits (m : Mnemonic) (ops : List Text) : Prop := m = .fence ∨ ops.length = m.shape.arity

/-- The operands as they are written, each with its kind. -/
def written (m : Mnemonic) (ops : List Text) : List (Kind × Text) := m.shape.kinds.zip ops

/-- Reading the operands is reading each of them by its kind, from left to right. -/
theorem map_values_readOperands {m : Mnemonic} {ops : List Text} (h : CountFits m ops) :
    (readOperands m ops).map Operands.values = (written m ops).mapM fun p => p.1.read p.2 := by
  have hlength : m.shape ≠ .fence → ops.length = m.shape.arity := by
    intro hshape
    rcases h with rfl | h
    · exact absurd rfl hshape
    · exact h
  unfold written
  cases hs : m.shape <;> rw [hs] at hlength
  case fence => simp [readOperands, hs, Shape.kinds, Except.map, Operands.values, pure, Except.pure]
  case register | immediate | jalr | branch =>
    obtain ⟨a, b, c, rfl⟩ := List.length_eq_three.1 (hlength (by simp))
    simp only [readOperands, hs, Shape.kinds, List.zip_cons_cons, List.zip_nil_left, mapM_cons_eq,
      Kind.read]
    -- the last operand is a register, a number or a target, which is not read
    cases Operand.register a <;> cases Operand.register b <;> cases Operand.register c <;>
      cases Operand.immediate c <;> rfl
  case load | store | upper | jal =>
    obtain ⟨a, b, rfl⟩ := List.length_eq_two.1 (hlength (by simp))
    simp only [readOperands, hs, Shape.kinds, List.zip_cons_cons, List.zip_nil_left, mapM_cons_eq,
      Kind.read]
    cases Operand.register a <;> cases Operand.address b <;> cases Operand.immediate b <;> rfl

theorem readOperands_of_not_countFits {m : Mnemonic} {ops : List Text} (h : ¬CountFits m ops) :
    readOperands m ops = .error (.operandCount m.name m.shape.arity ops.length) := by
  obtain ⟨hfence, hcount⟩ := not_or.1 h
  unfold readOperands
  split <;> rename_i hs
  case h_9 => exact absurd (Mnemonic.shape_eq_fence hs) hfence
  case h_10 => rfl
  all_goals exact absurd (by rw [hs]; rfl) hcount

/-- What reading some tokens gives. Of several faults it is the first in this order: the mnemonic,
the number of operands, the leftmost operand. -/
inductive Reading : List Text → Except Fault Instruction → Prop
  | empty : Reading [] (.error (.unknownInstruction []))
  | unknown {name : Text} {ops : List Text} (hname : ∀ m, ¬Mnemonic.Named m name) :
      Reading (name :: ops) (.error (.unknownInstruction (Text.lower name)))
  | count {name : Text} {ops : List Text} {m : Mnemonic} (hname : m.Named name)
      (hcount : ¬CountFits m ops) :
      Reading (name :: ops) (.error (.operandCount m.name m.shape.arity ops.length))
  | operand {name : Text} {ops : List Text} {m : Mnemonic} {fault : Fault} {k : Nat} {kind : Kind}
      {token : Text} (hname : m.Named name) (hcount : CountFits m ops)
      (hk : (written m ops)[k]? = some (kind, token)) (hfault : kind.read token = .error fault)
      (hbefore : ∀ j < k, ∀ p, (written m ops)[j]? = some p → ∃ v, p.1.read p.2 = .ok v) :
      Reading (name :: ops) (.error fault)
  | ok {name : Text} {ops : List Text} {m : Mnemonic} {operands : Operands} (hname : m.Named name)
      (hcount : CountFits m ops) (hshape : operands.shape = m.shape)
      (hlayout : operands.shape.fits m.encoding.layout = true)
      (hvalues : (written m ops).map (fun p => p.1.read p.2) = operands.values.map .ok) :
      Reading (name :: ops) (.ok ⟨m, operands⟩)

theorem ofTokens_of_named {name : Text} {m : Mnemonic} (h : m.Named name) (ops : List Text) :
    ofTokens (name :: ops) = (readOperands m ops).map fun operands => ⟨m, operands⟩ := by
  rw [ofTokens, Mnemonic.ofName?_eq_some_iff.2 h]

theorem readOperands_eq_error_iff {m : Mnemonic} {ops : List Text} (h : CountFits m ops)
    {fault : Fault} :
    readOperands m ops = .error fault ↔
      (written m ops).mapM (fun p => p.1.read p.2) = .error fault := by
  rw [← map_values_readOperands h, map_eq_error]

theorem readOperands_eq_ok_iff {m : Mnemonic} {ops : List Text} (h : CountFits m ops)
    {operands : Operands} :
    readOperands m ops = .ok operands ↔
      operands.shape = m.shape ∧
        (written m ops).map (fun p => p.1.read p.2) = operands.values.map .ok := by
  rw [← mapM_eq_ok, ← map_values_readOperands h, map_eq_ok]
  constructor
  · intro hread
    exact ⟨shape_of_readOperands hread, operands, hread, rfl⟩
  · rintro ⟨hshape, operands', hread, hvalues⟩
    rw [hread, Operands.eq_of_values ((shape_of_readOperands hread).trans hshape.symm) hvalues]

theorem ofTokens_of_reading {ts : List Text} {result : Except Fault Instruction}
    (h : Reading ts result) : ofTokens ts = result := by
  cases h with
  | empty => rfl
  | unknown hname => rw [ofTokens, Mnemonic.ofName?_eq_none_iff.2 hname]
  | count hname hcount =>
    rw [ofTokens_of_named hname, readOperands_of_not_countFits hcount]
    rfl
  | operand hname hcount hk hfault hbefore =>
    have hread := (readOperands_eq_error_iff hcount).2 (mapM_eq_error.2 ⟨_, _, hk, hfault, hbefore⟩)
    rw [ofTokens_of_named hname, hread]
    rfl
  | ok hname hcount hshape hlayout hvalues =>
    rw [ofTokens_of_named hname, (readOperands_eq_ok_iff hcount).2 ⟨hshape, hvalues⟩]
    rfl

theorem reading_ofTokens (ts : List Text) : Reading ts (ofTokens ts) := by
  cases ts with
  | nil => exact .empty
  | cons name ops =>
    by_cases hname : ∃ m, Mnemonic.Named m name
    · obtain ⟨m, hname⟩ := hname
      rw [ofTokens_of_named hname]
      by_cases hcount : CountFits m ops
      · cases hread : readOperands m ops with
        | error fault =>
          obtain ⟨k, ⟨kind, token⟩, hk, hfault, hbefore⟩ :=
            mapM_eq_error.1 ((readOperands_eq_error_iff hcount).1 hread)
          exact .operand hname hcount hk hfault hbefore
        | ok operands =>
          obtain ⟨hshape, hvalues⟩ := (readOperands_eq_ok_iff hcount).1 hread
          exact .ok hname hcount hshape (hshape ▸ m.shape_fits) hvalues
      · rw [readOperands_of_not_countFits hcount]
        exact .count hname hcount
    · have hname := not_exists.1 hname
      rw [ofTokens, Mnemonic.ofName?_eq_none_iff.2 hname]
      exact .unknown hname

/-- **An instruction is read by the grammar of its tokens.** The tokens of a text are those that
stand between its separators. Texts with the same tokens are read alike, whatever the case of the
first token. What is read is the mnemonic with the value of every operand, or the first fault. -/
theorem parse_by_grammar :
    (∀ (t : Text) (ts : List Text), tokens t = ts ↔ Spaced ts t) ∧
    (∀ t t' : Text, SameButCase (tokens t) (tokens t') → parse t = parse t') ∧
    ∀ (t : Text) (result : Except Fault Instruction),
      parse t = result ↔ Reading (tokens t) result := by
  refine ⟨fun _ _ => tokens_eq_iff_spaced, fun _ _ h => ofTokens_congr h, fun t result => ?_⟩
  constructor
  · rintro rfl
    exact reading_ofTokens (tokens t)
  · exact ofTokens_of_reading

/-- Two spellings of one instruction, with an ideographic space and commas in a row. -/
theorem parse_by_grammar_spellings :
    SameButCase (tokens ",LW\u3000x1,, 4(sp)".toList) (tokens "lw x1 4(sp) ".toList) ∧
    parse ",LW\u3000x1,, 4(sp)".toList = parse "lw x1 4(sp) ".toList := by
  have h : SameButCase (tokens ",LW\u3000x1,, 4(sp)".toList) (tokens "lw x1 4(sp) ".toList) :=
    ⟨by decide, by decide⟩
  exact ⟨h, parse_by_grammar.2.1 _ _ h⟩

-- an operand that is no register is not looked at where an operand is missing
example : parse "addi q, x1".toList = .error (.operandCount "addi".toList 3 2) := by decide

end Instruction
end RiscvRom
