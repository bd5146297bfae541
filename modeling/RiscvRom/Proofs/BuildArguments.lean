import Mathlib
import RiscvRom.Command.Arguments
import RiscvRom.Proofs.Parsing

/-! The arguments of a build as groups.

An option and its value are one group, any other argument is one by itself. Reading the arguments
takes one group after the other. So what a group does says what all of them do: a flag that asks for
a listing makes no other difference wherever it stands, and the output path is the value of the last
group that gives one, read as text. -/

namespace RiscvRom.Arguments

/-- Arguments that are read together. An option at the very end has no value. -/
inductive Group where
  | help
  | verbose
  | missing (option : Valued)
  | valued (option : Valued) (value : Bytes)
  | other (arg : Bytes)
  deriving DecidableEq

/-- Cuts arguments into groups. A value is whatever argument comes next. -/
def groups : List Bytes → List Group
  | [] => []
  | arg :: rest =>
    if isHelp (Utf8.decodeLenient arg) then .help :: groups rest
    else if isVerbose (Utf8.decodeLenient arg) then .verbose :: groups rest
    else
      match Valued.ofText? (Utf8.decodeLenient arg) with
      | some option =>
        match rest with
        | [] => [.missing option]
        | value :: rest => .valued option value :: groups rest
      | none => .other arg :: groups rest

/-- What one group adds to the options. -/
def Group.take (d : Draft BuildSettings) : Group → Except Rejection (Draft BuildSettings)
  | .help => .error .helpAfterCommand
  | .verbose => .ok { d with options.verbose := true }
  | .missing option => .error (.fault (.missingValue option.flag))
  | .valued option value =>
    ((setValue d.options option (Utf8.decodeLenient value)).mapError .fault).map fun options =>
      { d with options }
  | .other arg => (takeInput d arg).mapError .fault

theorem foldlM_take_cons (d : Draft BuildSettings) (g : Group) (gs : List Group) :
    (g :: gs).foldlM Group.take d = (g.take d).bind fun d => gs.foldlM Group.take d := rfl

theorem readBuild_eq (d : Draft BuildSettings) (args : List Bytes) :
    readBuild d args = (groups args).foldlM Group.take d := by
  fun_induction readBuild d args with
  | case1 d => rfl
  | case2 d arg rest t hhelp =>
    rw [groups, if_pos hhelp, foldlM_take_cons]
    rfl
  | case3 d arg rest t hhelp hverbose ih =>
    rw [groups, if_neg hhelp, if_pos hverbose, foldlM_take_cons]
    exact ih
  | case4 d arg t hhelp hverbose option hoption =>
    rw [groups, if_neg hhelp, if_neg hverbose, hoption]
    rfl
  | case5 d arg t hhelp hverbose option hoption value rest s hs ih =>
    rw [groups, if_neg hhelp, if_neg hverbose, hoption]
    dsimp only
    rw [foldlM_take_cons, Group.take, hs]
    exact ih
  | case6 d arg t hhelp hverbose option hoption value rest f hf =>
    rw [groups, if_neg hhelp, if_neg hverbose, hoption]
    dsimp only
    rw [foldlM_take_cons, Group.take, hf]
    rfl
  | case7 d arg rest t hhelp hverbose hoption d' hd' ih =>
    rw [groups, if_neg hhelp, if_neg hverbose, hoption]
    dsimp only
    rw [foldlM_take_cons, Group.take, hd']
    exact ih
  | case8 d arg rest t hhelp hverbose hoption f hf =>
    rw [groups, if_neg hhelp, if_neg hverbose, hoption]
    dsimp only
    rw [foldlM_take_cons, Group.take, hf]
    rfl

/-! ## The flag for a listing -/

/-- The options without the flag. -/
def Draft.quiet (d : Draft BuildSettings) : Draft BuildSettings :=
  { d with options.verbose := false }

theorem setValue_verbose (s : BuildSettings) (b : Bool) (option : Valued) (value : Text) :
    setValue { s with verbose := b } option value =
      (setValue s option value).map fun s => { s with verbose := b } := by
  cases option with
  | output => rfl
  | moduleName => rfl
  | depth =>
    unfold setValue
    cases depth? value <;> rfl
  | format =>
    unfold setValue
    cases ImageFormat.ofName? value <;> rfl

theorem takeInput_quiet (d : Draft BuildSettings) (arg : Bytes) :
    takeInput d.quiet arg = (takeInput d arg).map Draft.quiet := by
  unfold takeInput
  dsimp only
  split
  · rfl
  · unfold Draft.quiet
    dsimp only
    split <;> rfl

/-- No group looks at the flag. -/
theorem take_quiet (d : Draft BuildSettings) (g : Group) :
    (g.take d.quiet).map Draft.quiet = (g.take d).map Draft.quiet := by
  cases g with
  | help => rfl
  | verbose => rfl
  | missing option => rfl
  | valued option value =>
    rw [Group.take, Group.take, Draft.quiet, setValue_verbose]
    cases setValue d.options option (Utf8.decodeLenient value) <;> rfl
  | other arg =>
    rw [Group.take, Group.take, takeInput_quiet]
    cases takeInput d arg <;> rfl

theorem foldlM_take_quiet (d : Draft BuildSettings) (gs : List Group) :
    (gs.foldlM Group.take d.quiet).map Draft.quiet = (gs.foldlM Group.take d).map Draft.quiet := by
  induction gs generalizing d with
  | nil => rfl
  | cons g gs ih =>
    have hstep := take_quiet d g
    rw [foldlM_take_cons, foldlM_take_cons]
    cases hd : g.take d with
    | error e =>
      rw [hd] at hstep
      cases hq : g.take d.quiet with
      | error e' =>
        rw [hq] at hstep
        cases hstep
        rfl
      | ok d' =>
        rw [hq] at hstep
        cases hstep
    | ok d' =>
      rw [hd] at hstep
      obtain ⟨q, hq, hsame⟩ := map_eq_ok.1 hstep
      -- both drafts are the same once the flag is left out
      rw [hq]
      refine (ih q).symm.trans ?_
      rw [hsame]
      exact ih d'

/-- The flag can be left out wherever it stands. -/
theorem foldlM_take_filter (d : Draft BuildSettings) (gs : List Group) :
    ((gs.filter (· ≠ .verbose)).foldlM Group.take d).map Draft.quiet =
      (gs.foldlM Group.take d).map Draft.quiet := by
  induction gs generalizing d with
  | nil => rfl
  | cons g gs ih =>
    by_cases hg : g = .verbose
    · subst hg
      rw [List.filter_cons_of_neg (by simp), ih, foldlM_take_cons]
      exact (foldlM_take_quiet d gs).symm.trans
        (foldlM_take_quiet { d with options.verbose := true } gs)
    · rw [List.filter_cons_of_pos (by simpa using hg), foldlM_take_cons, foldlM_take_cons]
      cases g.take d with
      | error e => rfl
      | ok d' => exact ih d'

/-- Arguments that differ in the flag only give the same options but for it. -/
theorem build_of_groups {args args' : List Bytes}
    (h : (groups args).filter (· ≠ .verbose) = (groups args').filter (· ≠ .verbose)) :
    (build args).map (fun o => { o with verbose := false }) =
      (build args').map fun o => { o with verbose := false } := by
  have hread : (readBuild ⟨none, {}⟩ args).map Draft.quiet =
      (readBuild ⟨none, {}⟩ args').map Draft.quiet := by
    rw [readBuild_eq, readBuild_eq, ← foldlM_take_filter, h, foldlM_take_filter]
  have hbuild : ∀ args, (build args).map (fun o => { o with verbose := false }) =
      ((readBuild ⟨none, {}⟩ args).map Draft.quiet).bind fun d =>
        match d with
        | ⟨none, _⟩ => .error (.fault .missingInput)
        | ⟨some input, s⟩ => .ok ⟨s, input⟩ := by
    intro args
    unfold build
    rcases readBuild ⟨none, {}⟩ args with e | ⟨_ | input, s⟩ <;> rfl
  rw [hbuild, hbuild, hread]

/-! ## The output path -/

/-- The value of a group that gives the output path. -/
def Group.output? : Group → Option Bytes
  | .valued .output value => some value
  | _ => none

/-- The value that the last such group gives. -/
def outputValue? (args : List Bytes) : Option Bytes :=
  ((groups args).filterMap Group.output?).getLast?

/-- A path that was given as an argument, read as text. -/
def pathOf (value : Bytes) : Path := Utf8.encode (Utf8.decodeLenient value)

/-- All that an option and its value can set. -/
theorem setValue_cases {s s' : BuildSettings} {option : Valued} {value : Text}
    (h : setValue s option value = .ok s') :
    (option = .output ∧ s' = { s with output := some (Utf8.encode value) }) ∨
    (option = .moduleName ∧ s' = { s with moduleName := some value }) ∨
    (option = .depth ∧ ∃ n, depth? value = some n ∧ s' = { s with depth := some n }) ∨
    (option = .format ∧ ∃ f, ImageFormat.ofName? value = some f ∧ s' = { s with format := f }) := by
  cases option with
  | output => exact .inl ⟨rfl, (Except.ok.inj h).symm⟩
  | moduleName => exact .inr (.inl ⟨rfl, (Except.ok.inj h).symm⟩)
  | depth =>
    rw [setValue] at h
    split at h
    · rename_i n hn
      exact .inr (.inr (.inl ⟨rfl, n, hn, (Except.ok.inj h).symm⟩))
    · cases h
  | format =>
    rw [setValue] at h
    split at h
    · rename_i f hf
      exact .inr (.inr (.inr ⟨rfl, f, hf, (Except.ok.inj h).symm⟩))
    · cases h

theorem output_of_setValue {s s' : BuildSettings} {option : Valued} {value : Text}
    (h : setValue s option value = .ok s') :
    s'.output = if option = .output then some (Utf8.encode value) else s.output := by
  rcases setValue_cases h with ⟨rfl, rfl⟩ | ⟨rfl, rfl⟩ | ⟨rfl, n, -, rfl⟩ | ⟨rfl, f, -, rfl⟩ <;> rfl

theorem options_of_takeInput {d d' : Draft BuildSettings} {arg : Bytes}
    (h : takeInput d arg = .ok d') : d'.options = d.options := by
  rw [takeInput] at h
  split at h
  · cases h
  · split at h
    · cases h
    · cases h
      rfl

theorem output_of_take {d d' : Draft BuildSettings} {g : Group} (h : g.take d = .ok d') :
    d'.options.output = (g.output?.map pathOf).or d.options.output := by
  cases g with
  | help => cases h
  | verbose =>
    cases h
    rfl
  | missing option => cases h
  | valued option value =>
    obtain ⟨s, hs, rfl⟩ := map_eq_ok.1 h
    refine (output_of_setValue (mapError_eq_ok.1 hs)).trans ?_
    cases option <;> rfl
  | other arg => exact congrArg _ (options_of_takeInput (mapError_eq_ok.1 h))

theorem output_of_foldlM {d d' : Draft BuildSettings} {gs : List Group}
    (h : gs.foldlM Group.take d = .ok d') :
    d'.options.output = ((gs.filterMap Group.output?).getLast?.map pathOf).or d.options.output := by
  induction gs generalizing d with
  | nil =>
    cases h
    rfl
  | cons g gs ih =>
    obtain ⟨d₁, hg, hgs⟩ := bind_eq_ok.1 h
    rw [ih hgs, output_of_take hg]
    cases hout : g.output? with
    | none => rw [List.filterMap_cons_none hout]; simp
    | some value =>
      rw [List.filterMap_cons_some hout, List.getLast?_cons]
      cases (gs.filterMap Group.output?).getLast? <;> simp

theorem output_of_build {args : List Bytes} {o : BuildOptions} (h : build args = .ok o) :
    o.output = (outputValue? args).map pathOf := by
  unfold build at h
  split at h
  · cases h
  · cases h
  · rename_i input s hread
    cases h
    rw [readBuild_eq] at hread
    exact (output_of_foldlM hread).trans Option.or_none

end RiscvRom.Arguments
