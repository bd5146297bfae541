import RiscvRom.Proofs.BuildArguments
import RiscvRom.Proofs.Literal
import RiscvRom.Proofs.Utf8RoundTrip

/-! The grammar of the arguments of a build.

Arguments that can be read are clauses, one after the other: a flag, an option with its value, or
the input. A value is whatever argument comes next. The reader takes one clause after the other, so
it accepts exactly the lists of clauses with one input among them, and of each option it keeps the
last value. Clauses about different things do not touch the same part of the result, and can change
places. -/

namespace RiscvRom.Arguments

/-! ## The grammar -/

/-- What can be said by one clause. The values of an output path and of a name are the arguments as
they were given. -/
inductive Clause where
  | verbose
  | output (value : Bytes)
  | moduleName (value : Bytes)
  | depth (words : Nat)
  | format (f : ImageFormat)
  | input (arg : Bytes)
  deriving DecidableEq

/-- An option as it is spelled. -/
def spelled (s : String) : Bytes := Utf8.encode s.toList

/-- A decimal number below 2^64, with a plus sign or none. -/
inductive IsDepth : Text → Nat → Prop
  | bare {ds : Text} {n : Nat} (h : Literal.Digits 10 ds n) (hn : n < 2 ^ 64) : IsDepth ds n
  | plus {ds : Text} {n : Nat} (h : Literal.Digits 10 ds n) (hn : n < 2 ^ 64) :
    IsDepth ('+' :: ds) n

/-- The names of a format in lower case. -/
def formatNames : ImageFormat → List Text
  | .verilog => ["verilog".toList, "v".toList]
  | .hex => ["hex".toList]

namespace Clause

/-- The arguments of a clause. -/
inductive Written : Clause → List Bytes → Prop
  | verbose {arg : Bytes} (h : arg = spelled "-v" ∨ arg = spelled "--verbose") :
    Written .verbose [arg]
  | output {arg : Bytes} (h : arg = spelled "-o" ∨ arg = spelled "--output") (value : Bytes) :
    Written (.output value) [arg, value]
  | moduleName (value : Bytes) : Written (.moduleName value) [spelled "--module", value]
  | depth {value : Bytes} {n : Nat} (h : IsDepth (Utf8.decodeLenient value) n) :
    Written (.depth n) [spelled "--depth", value]
  | format {value : Bytes} {f : ImageFormat}
      (h : Text.lower (Utf8.decodeLenient value) ∈ formatNames f) :
    Written (.format f) [spelled "--format", value]
  | input {arg : Bytes} (h : arg.head? ≠ some 0x2D) : Written (.input arg) [arg]

def output? : Clause → Option Bytes
  | .output value => some value
  | _ => none

def moduleName? : Clause → Option Bytes
  | .moduleName value => some value
  | _ => none

def depth? : Clause → Option Nat
  | .depth n => some n
  | _ => none

def format? : Clause → Option ImageFormat
  | .format f => some f
  | _ => none

def input? : Clause → Option Path
  | .input arg => some arg
  | _ => none

end Clause

/-- Clauses, and their arguments one after the other. -/
inductive Clauses : List Clause → List Bytes → Prop
  | nil : Clauses [] []
  | cons {c : Clause} {cs : List Clause} {args rest : List Bytes} (h : c.Written args)
      (hrest : Clauses cs rest) : Clauses (c :: cs) (args ++ rest)

/-- The last value of each option. An output path is read as text, and so is a name. -/
def settings (cs : List Clause) : BuildSettings where
  output := (cs.filterMap Clause.output?).getLast?.map pathOf
  moduleName := (cs.filterMap Clause.moduleName?).getLast?.map Utf8.decodeLenient
  depth := (cs.filterMap Clause.depth?).getLast?
  format := (cs.filterMap Clause.format?).getLast?.getD .verilog
  verbose := cs.contains .verbose

/-! ## Single arguments -/

theorem decodeLenient_spelled (s : String) : Utf8.decodeLenient (spelled s) = s.toList :=
  Utf8.decodeLenient_encode _

theorem decodeLenient_eq_spelled {arg : Bytes} {s : String}
    (h : s.toList.all fun c => 0 < c.toNat ∧ c.toNat < 0x80) :
    Utf8.decodeLenient arg = s.toList ↔ arg = spelled s :=
  Utf8.decodeLenient_eq_iff (by simpa [Utf8.IsPlain] using h)

theorem head?_eq_dash_iff {arg : Bytes} :
    (Utf8.decodeLenient arg).head? = some '-' ↔ arg.head? = some 0x2D :=
  Utf8.head?_decodeLenient_eq_iff (by unfold Utf8.IsPlain; decide)

theorem takeInput_eq_ok_iff {α : Type} {d d' : Draft α} {arg : Bytes} :
    takeInput d arg = .ok d' ↔
      arg.head? ≠ some 0x2D ∧ d.input = none ∧ d' = { d with input := some arg } := by
  unfold takeInput
  dsimp only
  split_ifs with hdash hinput
  · simp [head?_eq_dash_iff.1 hdash]
  · have hsome : d.input ≠ none := Option.isSome_iff_ne_none.1 hinput
    simp [hsome]
  · have hnone : d.input = none := Option.not_isSome_iff_eq_none.1 hinput
    have hhead : arg.head? ≠ some 0x2D := mt head?_eq_dash_iff.2 hdash
    simpa [hnone, hhead] using eq_comm

theorem isHelp_iff {arg : Bytes} :
    isHelp (Utf8.decodeLenient arg) = true ↔ arg = spelled "-h" ∨ arg = spelled "--help" := by
  rw [isHelp, Bool.or_eq_true, beq_iff_eq, beq_iff_eq, decodeLenient_eq_spelled (by decide),
    decodeLenient_eq_spelled (by decide), or_comm]

theorem not_isHelp_of_head? {arg : Bytes} (h : arg.head? ≠ some 0x2D) :
    ¬isHelp (Utf8.decodeLenient arg) = true := by
  rw [isHelp_iff]
  rintro (rfl | rfl)
  · exact h (by decide)
  · exact h (by decide)

theorem isVerbose_iff {arg : Bytes} :
    isVerbose (Utf8.decodeLenient arg) = true ↔ arg = spelled "-v" ∨ arg = spelled "--verbose" := by
  rw [isVerbose, Bool.or_eq_true, beq_iff_eq, beq_iff_eq, decodeLenient_eq_spelled (by decide),
    decodeLenient_eq_spelled (by decide), or_comm]

/-- The spellings of an option. -/
def Valued.spellings : Valued → List String
  | .output => ["-o", "--output"]
  | .moduleName => ["--module"]
  | .depth => ["--depth"]
  | .format => ["--format"]

theorem exists_spelling {arg : Bytes} {option : Valued}
    (h : Valued.ofText? (Utf8.decodeLenient arg) = some option) :
    ∃ s ∈ option.spellings, arg = spelled s := by
  unfold Valued.ofText? at h
  split_ifs at h with ho hm hd hf <;> cases h
  · rcases ho with ho | ho
    · exact ⟨"-o", by decide, (decodeLenient_eq_spelled (by decide)).1 ho⟩
    · exact ⟨"--output", by decide, (decodeLenient_eq_spelled (by decide)).1 ho⟩
  · exact ⟨"--module", by decide, (decodeLenient_eq_spelled (by decide)).1 hm⟩
  · exact ⟨"--depth", by decide, (decodeLenient_eq_spelled (by decide)).1 hd⟩
  · exact ⟨"--format", by decide, (decodeLenient_eq_spelled (by decide)).1 hf⟩

theorem readBuild_valued (option : Valued) (s : String) (hs : s ∈ option.spellings)
    (d : Draft BuildSettings) (value : Bytes) (rest : List Bytes) :
    readBuild d (spelled s :: value :: rest) =
      ((setValue d.options option (Utf8.decodeLenient value)).mapError .fault).bind fun options =>
        readBuild { d with options } rest := by
  have hflag : isHelp s.toList = false ∧ isVerbose s.toList = false ∧
      Valued.ofText? s.toList = some option := by
    cases option <;> fin_cases hs <;> decide
  obtain ⟨hhelp, hverbose, hoption⟩ := hflag
  rw [readBuild, decodeLenient_spelled]
  simp only [hhelp, hverbose, hoption, Bool.false_eq_true, if_false]
  cases setValue d.options option (Utf8.decodeLenient value) <;> rfl

theorem head?_spelled {option : Valued} {s : String} (hs : s ∈ option.spellings) :
    (spelled s).head? = some 0x2D := by
  cases option <;> fin_cases hs <;> decide

/-- An argument that does not start with a dash is no option, and is taken as the input. -/
theorem readBuild_input {arg : Bytes} (h : arg.head? ≠ some 0x2D) (d : Draft BuildSettings)
    (rest : List Bytes) :
    readBuild d (arg :: rest) =
      ((takeInput d arg).mapError .fault).bind fun d => readBuild d rest := by
  have hhelp := not_isHelp_of_head? h
  have hverbose : ¬isVerbose (Utf8.decodeLenient arg) = true := by
    rw [isVerbose_iff]
    rintro (rfl | rfl) <;> exact h (by decide)
  have hoption : Valued.ofText? (Utf8.decodeLenient arg) = none := by
    refine Option.eq_none_iff_forall_ne_some.2 fun option heq => ?_
    obtain ⟨s, hs, rfl⟩ := exists_spelling heq
    exact h (head?_spelled hs)
  rw [readBuild, if_neg hhelp, if_neg hverbose, hoption]
  cases takeInput d arg <;> rfl

theorem readBuild_verbose {arg : Bytes} (h : arg = spelled "-v" ∨ arg = spelled "--verbose")
    (d : Draft BuildSettings) (rest : List Bytes) :
    readBuild d (arg :: rest) = readBuild { d with options.verbose := true } rest := by
  have hhelp : ¬isHelp (Utf8.decodeLenient arg) = true := by
    rw [isHelp_iff]
    rcases h with rfl | rfl <;> decide
  rw [readBuild, if_neg hhelp, if_pos (isVerbose_iff.2 h)]

/-! ## Values -/

theorem depth?_eq_some_iff {t : Text} {n : Nat} : depth? t = some n ↔ IsDepth t n := by
  have hread : ∀ ds : Text, (Text.natural? 10 ds).filter (· < 0x10000000000000000) = some n ↔
      Literal.Digits 10 ds n ∧ n < 2 ^ 64 := by
    intro ds
    rw [Option.filter_eq_some_iff, Text.natural?_eq_some_iff (by decide), decide_eq_true_eq]
    norm_num
  unfold depth?
  constructor
  · intro h
    split at h
    · obtain ⟨hds, hn⟩ := (hread _).1 h
      exact .plus hds hn
    · obtain ⟨hds, hn⟩ := (hread _).1 h
      exact .bare hds hn
  · intro h
    cases h with
    | plus hds hn => exact (hread _).2 ⟨hds, hn⟩
    | bare hds hn =>
      split
      · -- a plus sign is no digit
        rename_i r
        exact absurd (Text.isDigit_of_digits hds '+' List.mem_cons_self) (by decide)
      · exact (hread _).2 ⟨hds, hn⟩

theorem ofName?_eq_some_iff {t : Text} {f : ImageFormat} :
    ImageFormat.ofName? t = some f ↔ Text.lower t ∈ formatNames f := by
  unfold ImageFormat.ofName?
  split_ifs with hv hh
  · cases f with
    | verilog => simpa [formatNames] using hv
    | hex => rcases hv with hv | hv <;> rw [hv] <;> decide
  · rw [hh]
    cases f <;> decide
  · cases f with
    | verilog => simpa [formatNames] using hv
    | hex => simpa [formatNames] using hh

theorem pathOf_eq_self_iff {value : Bytes} :
    pathOf value = value ↔ ∃ t, value = Utf8.encode t := by
  constructor
  · intro h
    exact ⟨_, h.symm⟩
  · rintro ⟨t, rfl⟩
    rw [pathOf, Utf8.decodeLenient_encode]

/-! ## One clause -/

namespace Clause

/-- What a clause changes in the settings. -/
def set (s : BuildSettings) : Clause → BuildSettings
  | .verbose => { s with verbose := true }
  | .output value => { s with output := some (pathOf value) }
  | .moduleName value => { s with moduleName := some (Utf8.decodeLenient value) }
  | .depth n => { s with depth := some n }
  | .format f => { s with format := f }
  | .input _ => s

/-- There is one input at most. -/
def addInput (input : Option Path) : Option Path → Except Rejection (Option Path)
  | none => .ok input
  | some arg => if input.isSome then .error (.fault .multipleInputs) else .ok (some arg)

def take (d : Draft BuildSettings) (c : Clause) : Except Rejection (Draft BuildSettings) :=
  (addInput d.input c.input?).map fun input => ⟨input, c.set d.options⟩

theorem takeInput_of_head? {arg : Bytes} (h : arg.head? ≠ some 0x2D) (d : Draft BuildSettings) :
    (takeInput d arg).mapError .fault = take d (.input arg) := by
  rw [takeInput, if_neg (mt head?_eq_dash_iff.1 h)]
  dsimp only [take, input?, addInput]
  split <;> rfl

/-- Reading takes a clause as a whole. -/
theorem Written.readBuild_append {c : Clause} {args : List Bytes} (h : c.Written args)
    (d : Draft BuildSettings) (rest : List Bytes) :
    readBuild d (args ++ rest) = (c.take d).bind fun d => readBuild d rest := by
  cases h with
  | verbose h => exact readBuild_verbose h d rest
  | output h value =>
    rcases h with rfl | rfl
    · exact readBuild_valued .output "-o" (by decide) d value rest
    · exact readBuild_valued .output "--output" (by decide) d value rest
  | moduleName value =>
    exact readBuild_valued .moduleName "--module" (by decide) d value rest
  | @depth value n h =>
    refine (readBuild_valued .depth "--depth" (by decide) d value rest).trans ?_
    rw [setValue, depth?_eq_some_iff.2 h]
    rfl
  | @format value f h =>
    refine (readBuild_valued .format "--format" (by decide) d value rest).trans ?_
    rw [setValue, ofName?_eq_some_iff.2 h]
    rfl
  | input h =>
    refine (readBuild_input h d rest).trans ?_
    rw [takeInput_of_head? h]

theorem addInput_eq_ok_iff {x y z : Option Path} :
    addInput x y = .ok z ↔ z.toList = x.toList ++ y.toList := by
  cases x <;> cases y <;> cases z <;> simp [addInput] <;> exact eq_comm

/-- Each clause adds to the inputs and to the settings, as long as there is one input at most. -/
theorem take_eq_ok_iff {d d' : Draft BuildSettings} {c : Clause} :
    c.take d = .ok d' ↔
      d'.input.toList = d.input.toList ++ c.input?.toList ∧ d'.options = c.set d.options := by
  rw [take, map_eq_ok, ← addInput_eq_ok_iff]
  constructor
  · rintro ⟨input, hinput, rfl⟩
    exact ⟨hinput, rfl⟩
  · rintro ⟨hinput, hoptions⟩
    exact ⟨_, hinput, by rw [← hoptions]⟩

end Clause

/-! ## All clauses -/

theorem foldlM_clauses_cons (d : Draft BuildSettings) (c : Clause) (cs : List Clause) :
    (c :: cs).foldlM Clause.take d = (c.take d).bind fun d => cs.foldlM Clause.take d := rfl

theorem filterMap_input?_cons (c : Clause) (cs : List Clause) :
    (c :: cs).filterMap Clause.input? = c.input?.toList ++ cs.filterMap Clause.input? := by
  rw [List.filterMap_cons]
  cases c.input? <;> rfl

/-- One input at most is none or one. -/
theorem exists_toList_iff {α : Type} {l : List α} :
    (∃ x : Option α, x.toList = l) ↔ l.length ≤ 1 := by
  constructor
  · rintro ⟨x, rfl⟩
    cases x <;> simp
  · intro h
    match l, h with
    | [], _ => exact ⟨none, rfl⟩
    | [a], _ => exact ⟨some a, rfl⟩

theorem foldlM_clauses_eq_ok_iff {d d' : Draft BuildSettings} {cs : List Clause} :
    cs.foldlM Clause.take d = .ok d' ↔
      d'.input.toList = d.input.toList ++ cs.filterMap Clause.input? ∧
        d'.options = cs.foldl Clause.set d.options := by
  induction cs generalizing d with
  | nil =>
    obtain ⟨input, options⟩ := d
    obtain ⟨input', options'⟩ := d'
    have hinput : input'.toList = input.toList ↔ input' = input := by
      cases input <;> cases input' <;> simp
    rw [List.filterMap_nil, List.append_nil, hinput]
    exact ⟨fun h => by cases h; exact ⟨rfl, rfl⟩, fun ⟨h, h'⟩ => by cases h; cases h'; rfl⟩
  | cons c cs ih =>
    rw [foldlM_clauses_cons, bind_eq_ok, filterMap_input?_cons, List.foldl_cons,
      ← List.append_assoc]
    simp only [ih, Clause.take_eq_ok_iff]
    constructor
    · rintro ⟨d₁, ⟨hinput, hoptions⟩, hinputs, hrest⟩
      rw [← hinput, ← hoptions]
      exact ⟨hinputs, hrest⟩
    · rintro ⟨hinputs, hrest⟩
      -- no more inputs were read so far than there are in the end
      obtain ⟨input, hinput⟩ :
          ∃ input, Option.toList input = d.input.toList ++ c.input?.toList := by
        have hlength := exists_toList_iff.1 ⟨_, hinputs⟩
        rw [List.length_append] at hlength
        exact exists_toList_iff.2 (Nat.le_of_add_right_le hlength)
      exact ⟨⟨input, c.set d.options⟩, ⟨hinput, rfl⟩, hinput.symm ▸ hinputs, hrest⟩

/-- The settings that clauses lead to are the last ones for each option. -/
theorem foldl_set_eq (cs : List Clause) : cs.foldl Clause.set {} = settings cs := by
  induction cs using List.reverseRecOn with
  | nil => rfl
  | append_singleton cs c ih =>
    rw [List.foldl_append, List.foldl_cons, List.foldl_nil, ih]
    cases c <;> simp [settings, Clause.set, Clause.output?, Clause.moduleName?, Clause.depth?,
      Clause.format?]

/-- Reading takes any number of clauses one after the other. -/
theorem readBuild_clauses {cs : List Clause} {args : List Bytes} (h : Clauses cs args)
    (d : Draft BuildSettings) (rest : List Bytes) :
    readBuild d (args ++ rest) = (cs.foldlM Clause.take d).bind fun d => readBuild d rest := by
  induction h generalizing d with
  | nil => rfl
  | @cons c cs args more hc _ ih =>
    rw [List.append_assoc, hc.readBuild_append, foldlM_clauses_cons]
    cases c.take d with
    | error e => rfl
    | ok d' => exact ih d'

/-! ## Where reading stops -/

/-- An option and a value that can be set make a clause. -/
theorem exists_clause_of_setValue {s s' : BuildSettings} {option : Valued} {arg value : Bytes}
    (hoption : Valued.ofText? (Utf8.decodeLenient arg) = some option)
    (h : setValue s option (Utf8.decodeLenient value) = .ok s') :
    ∃ c : Clause, c.Written [arg, value] ∧ c.input? = none ∧ s' = c.set s := by
  obtain ⟨spelling, hspelling, rfl⟩ := exists_spelling hoption
  rcases setValue_cases h with ⟨rfl, rfl⟩ | ⟨rfl, rfl⟩ | ⟨rfl, n, hn, rfl⟩ | ⟨rfl, f, hf, rfl⟩
  · have hflag : spelling = "-o" ∨ spelling = "--output" := by
      simpa [Valued.spellings] using hspelling
    exact ⟨_, .output (hflag.imp (congrArg spelled) (congrArg spelled)) value, rfl, rfl⟩
  · obtain rfl : spelling = "--module" := by simpa [Valued.spellings] using hspelling
    exact ⟨_, .moduleName value, rfl, rfl⟩
  · obtain rfl : spelling = "--depth" := by simpa [Valued.spellings] using hspelling
    exact ⟨_, .depth (depth?_eq_some_iff.1 hn), rfl, rfl⟩
  · obtain rfl : spelling = "--format" := by simpa [Valued.spellings] using hspelling
    exact ⟨_, .format (ofName?_eq_some_iff.1 hf), rfl, rfl⟩

/-- How reading goes: over clauses, until it is done, is asked for help, or finds a fault. -/
inductive Reading :
    Draft BuildSettings → List Bytes → Except Rejection (Draft BuildSettings) → Prop
  | done (d : Draft BuildSettings) : Reading d [] (.ok d)
  | help {arg : Bytes} (h : arg = spelled "-h" ∨ arg = spelled "--help") (d : Draft BuildSettings)
      (after : List Bytes) : Reading d (arg :: after) (.error .helpAfterCommand)
  | fault (d : Draft BuildSettings) (args : List Bytes) (f : ArgumentFault) :
    Reading d args (.error (.fault f))
  | clause {c : Clause} {args rest : List Bytes} {d d' : Draft BuildSettings}
      {result : Except Rejection (Draft BuildSettings)} (hc : c.Written args)
      (hd : c.take d = .ok d') (h : Reading d' rest result) : Reading d (args ++ rest) result

theorem reading_readBuild (d : Draft BuildSettings) (args : List Bytes) :
    Reading d args (readBuild d args) := by
  fun_induction readBuild d args with
  | case1 d => exact .done d
  | case2 d arg rest t hhelp => exact .help (isHelp_iff.1 hhelp) d rest
  | case3 d arg rest t hhelp hverbose ih =>
    exact .clause (.verbose (isVerbose_iff.1 hverbose)) rfl ih
  | case4 d arg t hhelp hverbose option hoption => exact .fault _ _ _
  | case5 d arg t hhelp hverbose option hoption value rest s hs ih =>
    obtain ⟨c, hc, hinput, rfl⟩ := exists_clause_of_setValue hoption hs
    refine .clause hc ?_ ih
    rw [Clause.take, hinput]
    rfl
  | case6 d arg t hhelp hverbose option hoption value rest f hf => exact .fault _ _ _
  | case7 d arg rest t hhelp hverbose hoption d' hd' ih =>
    have hhead : arg.head? ≠ some 0x2D := (takeInput_eq_ok_iff.1 hd').1
    refine .clause (.input hhead) ?_ ih
    rw [← Clause.takeInput_of_head? hhead, hd']
    rfl
  | case8 d arg rest t hhelp hverbose hoption f hf => exact .fault _ _ _

namespace Reading

theorem clauses_of_ok {d d' : Draft BuildSettings} {args : List Bytes}
    (h : Reading d args (.ok d')) :
    ∃ cs, Clauses cs args ∧ cs.foldlM Clause.take d = .ok d' := by
  generalize hresult : Except.ok d' = result at h
  induction h with
  | done d =>
    cases hresult
    exact ⟨[], .nil, rfl⟩
  | help | fault => cases hresult
  | clause hc hd _ ih =>
    obtain ⟨cs, hcs, hread⟩ := ih hresult
    refine ⟨_ :: cs, .cons hc hcs, ?_⟩
    rw [foldlM_clauses_cons, hd]
    exact hread

theorem clauses_of_help {d : Draft BuildSettings} {args : List Bytes}
    (h : Reading d args (.error .helpAfterCommand)) :
    ∃ cs before arg after d', args = before ++ arg :: after ∧ Clauses cs before ∧
      (arg = spelled "-h" ∨ arg = spelled "--help") ∧ cs.foldlM Clause.take d = .ok d' := by
  generalize hresult : Except.error Rejection.helpAfterCommand = result at h
  induction h with
  | done | fault => cases hresult
  | @help arg harg d after => exact ⟨[], [], arg, after, d, rfl, .nil, harg, rfl⟩
  | clause hc hd _ ih =>
    obtain ⟨cs, before, arg, after, d', rfl, hcs, harg, hread⟩ := ih hresult
    refine ⟨_ :: cs, _ ++ before, arg, after, d', (List.append_assoc _ _ _).symm, .cons hc hcs,
      harg, ?_⟩
    rw [foldlM_clauses_cons, hd]
    exact hread

end Reading

theorem readBuild_eq_ok_iff {d d' : Draft BuildSettings} {args : List Bytes} :
    readBuild d args = .ok d' ↔ ∃ cs, Clauses cs args ∧ cs.foldlM Clause.take d = .ok d' := by
  constructor
  · intro h
    exact (h ▸ reading_readBuild d args).clauses_of_ok
  · rintro ⟨cs, hcs, hread⟩
    have h := readBuild_clauses hcs d []
    rw [List.append_nil, hread] at h
    exact h

theorem readBuild_eq_help_iff {d : Draft BuildSettings} {args : List Bytes} :
    readBuild d args = .error .helpAfterCommand ↔
      ∃ cs before arg after d', args = before ++ arg :: after ∧ Clauses cs before ∧
        (arg = spelled "-h" ∨ arg = spelled "--help") ∧ cs.foldlM Clause.take d = .ok d' := by
  constructor
  · intro h
    exact (h ▸ reading_readBuild d args).clauses_of_help
  · rintro ⟨cs, before, arg, after, d', rfl, hcs, harg, hread⟩
    have hstop : readBuild d' (arg :: after) = .error .helpAfterCommand := by
      rw [readBuild, if_pos (isHelp_iff.2 harg)]
    rw [readBuild_clauses hcs, hread]
    exact hstop

theorem build_eq_ok_iff {args : List Bytes} {o : BuildOptions} :
    build args = .ok o ↔
      ∃ cs, Clauses cs args ∧ cs.filterMap Clause.input? = [o.input] ∧
        o.toBuildSettings = settings cs := by
  have hbuild : build args = .ok o ↔
      readBuild ⟨none, {}⟩ args = .ok ⟨some o.input, o.toBuildSettings⟩ := by
    unfold build
    rcases readBuild ⟨none, {}⟩ args with e | ⟨_ | input, s⟩
    · simp
    · simp
    · obtain ⟨s', input'⟩ := o
      simp [and_comm]
  rw [hbuild, readBuild_eq_ok_iff]
  refine exists_congr fun cs => and_congr_right fun _ => ?_
  rw [foldlM_clauses_eq_ok_iff, foldl_set_eq]
  exact and_congr_left fun _ => eq_comm

/-! ## Clauses that change places -/

/-- What a clause is about: the flag for a listing, an option, or the input. -/
inductive Topic where
  | verbose
  | option (o : Valued)
  | input
  deriving DecidableEq

namespace Clause

def topic : Clause → Topic
  | .verbose => .verbose
  | .output _ => .option .output
  | .moduleName _ => .option .moduleName
  | .depth _ => .option .depth
  | .format _ => .option .format
  | .input _ => .input

variable {c₁ c₂ : Clause} (h : c₁.topic ≠ c₂.topic)
include h

theorem set_comm (s : BuildSettings) : c₂.set (c₁.set s) = c₁.set (c₂.set s) := by
  cases c₁ <;> cases c₂ <;> simp_all [set, topic]

/-- Two inputs are about the same. -/
theorem input?_eq_none_or : c₁.input? = none ∨ c₂.input? = none := by
  cases c₁ with
  | input arg =>
    cases c₂ with
    | input arg' => exact absurd rfl h
    | verbose | output | moduleName | depth | format => exact .inr rfl
  | verbose | output | moduleName | depth | format => exact .inl rfl

/-- A clause that is no input can be taken before or after the other. -/
theorem take_comm_of_input?_eq_none (hnone : c₁.input? = none) (d : Draft BuildSettings) :
    ((c₁.take d).bind fun d => c₂.take d) = (c₂.take d).bind fun d => c₁.take d := by
  have htake : ∀ d, c₁.take d = .ok ⟨d.input, c₁.set d.options⟩ := by
    intro d
    rw [take, hnone]
    rfl
  have hset : c₂.take ⟨d.input, c₁.set d.options⟩ =
      (addInput d.input c₂.input?).map fun input => ⟨input, c₁.set (c₂.set d.options)⟩ := by
    rw [take, set_comm h]
  rw [htake]
  refine hset.trans ?_
  rw [take]
  cases addInput d.input c₂.input? with
  | error e => rfl
  | ok input => exact (htake ⟨input, c₂.set d.options⟩).symm

theorem take_comm (d : Draft BuildSettings) :
    ((c₁.take d).bind fun d => c₂.take d) = (c₂.take d).bind fun d => c₁.take d := by
  rcases input?_eq_none_or h with hnone | hnone
  · exact take_comm_of_input?_eq_none h hnone d
  · exact (take_comm_of_input?_eq_none h.symm hnone d).symm

theorem readBuild_comm {args₁ args₂ : List Bytes} (h₁ : c₁.Written args₁) (h₂ : c₂.Written args₂)
    (d : Draft BuildSettings) (rest : List Bytes) :
    readBuild d (args₁ ++ (args₂ ++ rest)) = readBuild d (args₂ ++ (args₁ ++ rest)) := by
  have hboth : ∀ {c c' : Clause} {args args' : List Bytes}, c.Written args → c'.Written args' →
      readBuild d (args ++ (args' ++ rest)) =
        ((c.take d).bind fun d => c'.take d).bind fun d => readBuild d rest := by
    intro c c' args args' hc hc'
    rw [hc.readBuild_append]
    cases c.take d with
    | error e => rfl
    | ok d' => exact hc'.readBuild_append d' rest
  rw [hboth h₁ h₂, hboth h₂ h₁, take_comm h]

end Clause

/-- **The arguments of a build are read by their grammar.** They give options exactly if they are
clauses with one input among them, and then the input and the last value of each option are what
they give. The output path is its value read as text: the value itself if it is the bytes of a
text, and another path otherwise. Clauses about different things can change places, whatever comes
after them. -/
theorem build_by_grammar (args : List Bytes) :
    (∀ o : BuildOptions, build args = .ok o ↔
      ∃ cs, Clauses cs args ∧ cs.filterMap Clause.input? = [o.input] ∧
        o.toBuildSettings = settings cs) ∧
    (∀ cs : List Clause, (settings cs).output = (cs.filterMap Clause.output?).getLast? ↔
      ∀ value ∈ (cs.filterMap Clause.output?).getLast?, ∃ t, value = Utf8.encode t) ∧
    ∀ (cs : List Clause) (before : List Bytes) (c₁ c₂ : Clause) (args₁ args₂ after : List Bytes),
      args = before ++ (args₁ ++ (args₂ ++ after)) →
      Clauses cs before → c₁.Written args₁ → c₂.Written args₂ → c₁.topic ≠ c₂.topic →
        build args = build (before ++ (args₂ ++ (args₁ ++ after))) := by
  refine ⟨fun _ => build_eq_ok_iff, ?_, ?_⟩
  · intro cs
    rw [settings]
    cases (cs.filterMap Clause.output?).getLast? with
    | none => simp
    | some value => simpa using pathOf_eq_self_iff
  · rintro cs before c₁ c₂ args₁ args₂ after rfl hcs h₁ h₂ htopic
    have hread : readBuild ⟨none, {}⟩ (before ++ (args₁ ++ (args₂ ++ after))) =
        readBuild ⟨none, {}⟩ (before ++ (args₂ ++ (args₁ ++ after))) := by
      rw [readBuild_clauses hcs, readBuild_clauses hcs]
      simp only [Clause.readBuild_comm htopic h₁ h₂]
    rw [build, build, hread]

/-- The input and a depth with a sign change places, behind a path that looks like a flag and in
front of a format in capitals. -/
theorem build_by_grammar_capitals :
    let before := [spelled "-o", spelled "-v"]
    let input := [spelled "p.s"]
    let depth := [spelled "--depth", spelled "+7"]
    let after := [spelled "--format", spelled "HEX"]
    build (before ++ (input ++ (depth ++ after))) =
        .ok ⟨⟨some (spelled "-v"), none, some 7, .hex, false⟩, spelled "p.s"⟩ ∧
      build (before ++ (input ++ (depth ++ after))) =
        build (before ++ (depth ++ (input ++ after))) := by
  intro before input depth after
  have hdepth : IsDepth (Utf8.decodeLenient (spelled "+7")) 7 :=
    depth?_eq_some_iff.1 (by decide +kernel)
  have hformat : Text.lower (Utf8.decodeLenient (spelled "HEX")) ∈ formatNames .hex := by
    decide +kernel
  have hbefore : Clauses [.output (spelled "-v")] before := .cons (.output (.inl rfl) _) .nil
  have hinput : (Clause.input (spelled "p.s")).Written input := .input (by decide +kernel)
  refine ⟨((build_by_grammar _).1 _).2 ⟨_, .cons (.output (.inl rfl) _) (.cons hinput
    (.cons (.depth hdepth) (.cons (.format hformat) .nil))), rfl, ?_⟩, ?_⟩
  · decide +kernel
  · exact (build_by_grammar _).2.2 _ before _ _ input depth after rfl hbefore hinput
      (.depth hdepth) (by decide)

/-- A path that is not the bytes of a text is not the path that is kept. -/
theorem output_value_not_held :
    let args := [spelled "p.s", spelled "-o", [0xFF]]
    Clauses [.input (spelled "p.s"), .output [0xFF]] args ∧
      build args = .ok ⟨{ output := some (Utf8.encode "\uFFFD".toList) }, spelled "p.s"⟩ ∧
      Utf8.encode "\uFFFD".toList ≠ [0xFF] := by
  refine ⟨.cons (.input (by decide +kernel)) (.cons (.output (.inl rfl) _) .nil), ?_, ?_⟩
  · decide +kernel
  · decide +kernel

end RiscvRom.Arguments
