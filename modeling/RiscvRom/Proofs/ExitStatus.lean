import RiscvRom.Proofs.ArgumentGrammar
import RiscvRom.Proofs.RunEffects
import RiscvRom.Proofs.SameMemory

/-! What the exit status says.

Every way out of a run that is a failure ends with a message on the error output, and the message
starts a line there. Nothing else does: a line of the listing is an assignment, and a logger keeps
events apart from messages. The usual one puts a bracket in front of an event and indents its
further lines. So the status can be told from the error output, whatever is shown of the log. The one
exception is help that is asked for after the command: it is answered like help that is asked for
first, but the run counts as failed. -/

namespace RiscvRom.Command

/-! ## Lines that report an error -/

/-- Some line of a text starts as messages about errors do. -/
def ReportsError (t : Text) : Prop := ∃ line ∈ Rom.physicalLines t, "error: ".toList <+: line

theorem reportsError_append (t u : Text) :
    ReportsError (t ++ '\n' :: u) ↔ ReportsError t ∨ ReportsError u := by
  unfold ReportsError Rom.physicalLines
  rw [splitWhere_append (by decide)]
  simp only [List.mem_append, or_and_right, exists_or]

theorem not_reportsError_of_head? {t : Text}
    (h : ∀ line ∈ Rom.physicalLines t, line.head? ≠ some 'e') : ¬ReportsError t := by
  rintro ⟨line, hline, rest, rfl⟩
  exact h _ hline rfl

theorem not_reportsError_nil : ¬ReportsError [] :=
  not_reportsError_of_head? (List.forall_mem_singleton.2 nofun)

theorem reportsError_newline (t : Text) : ReportsError (t ++ ['\n']) ↔ ReportsError t := by
  rw [reportsError_append, or_iff_left not_reportsError_nil]

/-- A message starts the first line of its text, even if it goes on over several lines. -/
theorem reportsError_message (message : Text) : ReportsError ("error: ".toList ++ message) := by
  obtain ⟨line, lines, h⟩ : ∃ line lines, Rom.physicalLines message = line :: lines :=
    List.exists_cons_of_ne_nil (splitWhere_ne_nil _ message)
  have hlines : Rom.physicalLines ("error: ".toList ++ message) =
      ("error: ".toList ++ line) :: lines :=
    splitWhere_append_of_forall (beq_eq_false_of_notMem (by decide)) h
  refine ⟨_, ?_, List.prefix_append _ line⟩
  rw [hlines]
  exact List.mem_cons_self

/-! ## Log events -/

/-- All lines of a message but the first are indented. -/
theorem head?_of_mem_indented (start : Text) {c : Char} (hstart : start.head? = some c)
    (hline : '\n' ∉ start) (message : Text) :
    ∀ line ∈ Rom.physicalLines (start ++ Log.indented message),
      line.head? = some c ∨ line.head? = some ' ' := by
  induction message generalizing start c with
  | nil =>
    intro line hmem
    rw [Log.indented, List.flatMap_nil, List.append_nil, Rom.physicalLines_of_notMem hline,
      List.mem_singleton] at hmem
    rw [hmem]
    exact .inl hstart
  | cons x message ih =>
    by_cases hx : x = '\n'
    · subst hx
      -- what comes after the line feed starts with blanks
      have hbreak : start ++ Log.indented ('\n' :: message) =
          start ++ '\n' :: ("    ".toList ++ Log.indented message) := rfl
      rw [hbreak, Rom.physicalLines_append hline]
      intro line hmem
      rcases List.mem_cons.1 hmem with rfl | hmem
      · exact .inl hstart
      · exact .inr (or_self_iff.1 (ih "    ".toList rfl (by decide) line hmem))
    · have hmore : start ++ Log.indented (x :: message) =
          (start ++ [x]) ++ Log.indented message := by
        rw [Log.indented, List.flatMap_cons, if_neg hx, List.append_assoc, Log.indented]
      rw [hmore]
      apply ih
      · rw [List.head?_append, hstart]
        rfl
      · simpa [hline] using Ne.symm hx

/-- What is asked of a logger: no line of an event can pass for a message about an error. Where an
event comes from is a name, on one line. -/
def SetsEventsApart (format : Log.Format) : Prop :=
  ∀ e : Log.Event, '\n' ∉ e.origin → ¬ReportsError (format e)

theorem setsEventsApart_text : SetsEventsApart Log.Event.text := by
  intro e h
  have hname : '\n' ∉ Text.padRight 5 (e.level.name.map Char.toUpper) := by
    cases e.level <;> decide
  have hstart : '\n' ∉ '[' :: Text.padRight 5 (e.level.name.map Char.toUpper) ++
      ' ' :: e.origin ++ "] ".toList := by
    simp [hname, h]
  refine not_reportsError_of_head? fun line hline => ?_
  rcases head?_of_mem_indented _ rfl hstart e.message line hline with hhead | hhead
  · rw [hhead]
    exact nofun
  · rw [hhead]
    exact nofun

theorem newline_notMem_origin (p : Placement) : ∀ e ∈ Log.assembly p, '\n' ∉ e.origin := by
  have hsymbols : '\n' ∉ Log.symbolsOrigin := by decide
  have hassembler : '\n' ∉ Log.assemblerOrigin := by decide
  have hencodings : ∀ (symbols : SymbolTable) (ps : List PlacedInstruction),
      ∀ e ∈ Log.encodings symbols ps, '\n' ∉ e.origin := by
    intro symbols ps
    induction ps with
    | nil => exact List.forall_mem_nil _
    | cons p ps ih =>
      rw [Log.encodings]
      split
      · exact List.forall_mem_cons.2 ⟨hassembler, ih⟩
      · exact List.forall_mem_nil _
  unfold Log.assembly
  simp only [List.forall_mem_append, List.forall_mem_map, List.forall_mem_cons]
  refine ⟨⟨fun _ _ => hsymbols, hsymbols, hencodings _ _⟩, ?_⟩
  split
  · exact List.forall_mem_singleton.2 hassembler
  · exact List.forall_mem_nil _

theorem newline_notMem_origin_load (input : Path) (x : Except StoreError Bytes) :
    ∀ e ∈ (load input x).events, '\n' ∉ e.origin := by
  cases x with
  | error e => exact List.forall_mem_nil _
  | ok content =>
    rw [load]
    split
    · exact List.forall_mem_nil _
    · have hassembler : '\n' ∉ Log.assemblerOrigin := by decide
      exact List.forall_mem_cons.2 ⟨hassembler, newline_notMem_origin _⟩

/-! ## Notices -/

section
variable (format : Log.Format) (v : Log.Verbosity)

/-- The notice does not report an error, whether it is shown or not. -/
def IsQuiet (n : Notice) : Prop := ¬ReportsError (Outcome.noticeText format v n)

theorem isQuiet_assignment {r : Record} (h : '\n' ∉ r.source) :
    IsQuiet format v (.line (Rom.assignment r)) := by
  unfold IsQuiet Outcome.noticeText
  rw [reportsError_newline]
  apply not_reportsError_of_head?
  rw [Rom.physicalLines_of_notMem (Rom.newline_notMem_assignment h)]
  exact List.forall_mem_singleton.2 nofun

theorem not_isQuiet_error (message : Text) : ¬IsQuiet format v (error message) := by
  unfold IsQuiet error Outcome.noticeText
  rw [reportsError_newline, not_not]
  exact reportsError_message message

theorem reportsError_notices (ns : List Notice) :
    ReportsError (ns.flatMap (Outcome.noticeText format v)) ↔ ∃ n ∈ ns, ¬IsQuiet format v n := by
  induction ns with
  | nil => simpa using not_reportsError_nil
  | cons n ns ih =>
    have hnotice : ∀ u, ReportsError (Outcome.noticeText format v n ++ u) ↔
        ¬IsQuiet format v n ∨ ReportsError u := by
      intro u
      unfold IsQuiet
      rw [not_not]
      -- a notice is a text with a line feed behind it, or not shown at all
      rcases n with t | e
      · rw [Outcome.noticeText, reportsError_newline, List.append_assoc]
        exact reportsError_append t u
      · rw [Outcome.noticeText]
        split
        · rw [reportsError_newline, List.append_assoc]
          exact reportsError_append (format e) u
        · exact (or_iff_right not_reportsError_nil).symm
    rw [List.flatMap_cons, hnotice, ih]
    simp

/-! ## Builds and lists -/

/-- The status of an outcome is what its error output says. -/
def IsHonest (o : Outcome) : Prop := o.status ≠ 0 ↔ ReportsError (o.errorOutputIn format v)

theorem isHonest_failure {ns : List Notice} {message : Text} (h : error message ∈ ns) :
    IsHonest format v (.failure ns) := by
  refine iff_of_true Nat.one_ne_zero ?_
  exact (reportsError_notices format v ns).2 ⟨_, h, not_isQuiet_error format v message⟩

theorem isHonest_success (output : Text) {ns : List Notice} (h : ∀ n ∈ ns, IsQuiet format v n) :
    IsHonest format v ⟨0, output, ns⟩ := by
  refine iff_of_false (not_not.2 rfl) fun hreports => ?_
  obtain ⟨n, hn, hloud⟩ := (reportsError_notices format v ns).1 hreports
  exact hloud (h n hn)

variable {format} (hformat : SetsEventsApart format)
include hformat

theorem isQuiet_event {e : Log.Event} (h : '\n' ∉ e.origin) : IsQuiet format v (.event e) := by
  unfold IsQuiet Outcome.noticeText
  dsimp only
  split
  · rw [reportsError_newline]
    exact hformat e h
  · exact not_reportsError_nil

theorem isQuiet_load (input : Path) (x : Except StoreError Bytes) :
    ∀ n ∈ (load input x).notices, IsQuiet format v n :=
  List.forall_mem_map.2 fun e he =>
    isQuiet_event v hformat (newline_notMem_origin_load input x e he)

variable {σ : Type} (store : Store σ)

theorem isHonest_listing (o : ListOptions) (s : σ) :
    IsHonest format v ((Listing.session o).runOn store s).1 := by
  rw [Listing.session, Session.runOn]
  dsimp only
  split
  · exact isHonest_failure format v (List.mem_append_right _ (List.mem_singleton_self _))
  · exact isHonest_success format v _ (isQuiet_load v hformat _ _)

theorem isHonest_build (o : BuildOptions) (s : σ) :
    IsHonest format v ((Build.session o).runOn store s).1 := by
  rw [Build.session, Session.runOn]
  dsimp only
  split
  · exact isHonest_failure format v (List.mem_append_right _ (List.mem_singleton_self _))
  · rename_i records hload
    split
    · exact isHonest_failure format v (List.mem_append_right _ (List.mem_singleton_self _))
    · rw [Session.runOn_write]
      split
      · exact isHonest_failure format v (List.mem_append_right _ (List.mem_singleton_self _))
      · obtain ⟨content, source, -, -, hassembled⟩ := load_eq_ok.1 hload
        have hcommand : '\n' ∉ Log.commandOrigin := by decide
        apply isHonest_success
        refine List.forall_mem_append.2 ⟨isQuiet_load v hformat _ _, List.forall_mem_cons.2
          ⟨isQuiet_event v hformat hcommand, ?_⟩⟩
        unfold Build.listing
        split
        · exact List.forall_mem_map.2 fun r hr =>
            isQuiet_assignment format v (Rom.newline_notMem_source hassembled r hr)
        · exact List.forall_mem_nil _

end

end RiscvRom.Command

/-! ## Help that is asked for after the command -/

namespace RiscvRom.Arguments

theorem build_eq_help_iff {args : List Bytes} :
    build args = .error .helpAfterCommand ↔
      ∃ cs before arg after, args = before ++ arg :: after ∧ Clauses cs before ∧
        (arg = spelled "-h" ∨ arg = spelled "--help") ∧
        (cs.filterMap Clause.input?).length ≤ 1 := by
  have hbuild : build args = .error .helpAfterCommand ↔
      readBuild ⟨none, {}⟩ args = .error .helpAfterCommand := by
    unfold build
    rcases readBuild ⟨none, {}⟩ args with e | ⟨_ | input, s⟩ <;> simp
  have htaken : ∀ cs : List Clause, (∃ d', cs.foldlM Clause.take ⟨none, {}⟩ = .ok d') ↔
      (cs.filterMap Clause.input?).length ≤ 1 := by
    intro cs
    simp only [foldlM_clauses_eq_ok_iff, Option.toList_none, List.nil_append]
    constructor
    · rintro ⟨d', hinput, -⟩
      exact exists_toList_iff.1 ⟨_, hinput⟩
    · intro hlength
      obtain ⟨input, hinput⟩ := exists_toList_iff.2 hlength
      exact ⟨⟨input, _⟩, hinput, rfl⟩
  rw [hbuild, readBuild_eq_help_iff]
  simp only [exists_and_left, htaken]

/-- Arguments of a list: flags and inputs, with one input at most, counting those read before. -/
def ListClauses (input : Option Path) (args : List Bytes) : Prop :=
  (∀ arg ∈ args, arg = spelled "--abi" ∨ arg.head? ≠ some 0x2D) ∧
    (input.toList ++ args.filter (· ≠ spelled "--abi")).length ≤ 1

theorem listClauses_abi {input : Option Path} {args : List Bytes} :
    ListClauses input (spelled "--abi" :: args) ↔ ListClauses input args := by
  unfold ListClauses
  rw [List.filter_cons_of_neg (by simp), List.forall_mem_cons]
  simp

theorem listClauses_input {input : Option Path} {arg : Bytes} {args : List Bytes}
    (h : arg.head? ≠ some 0x2D) :
    ListClauses input (arg :: args) ↔ input = none ∧ ListClauses (some arg) args := by
  have harg : arg ≠ spelled "--abi" := by
    rintro rfl
    exact h (by decide)
  unfold ListClauses
  rw [List.filter_cons_of_pos (by simpa using harg), List.forall_mem_cons]
  cases input <;> simp [h]

theorem readList_abi (d : Draft Register.Naming) (rest : List Bytes) :
    readList d (spelled "--abi" :: rest) = readList { d with options := .abi } rest := by
  rw [readList, decodeLenient_spelled]
  rfl

theorem readList_input {d : Draft Register.Naming} {arg : Bytes} (h : arg.head? ≠ some 0x2D)
    (hd : d.input = none) (rest : List Bytes) :
    readList d (arg :: rest) = readList { d with input := some arg } rest := by
  have hhelp := not_isHelp_of_head? h
  have habi : Utf8.decodeLenient arg ≠ "--abi".toList := by
    rw [Ne, decodeLenient_eq_spelled (by decide)]
    rintro rfl
    exact h (by decide)
  rw [readList, if_neg hhelp, if_neg habi, takeInput_eq_ok_iff.2 ⟨h, hd, rfl⟩]

theorem readList_eq_help_iff {d : Draft Register.Naming} {args : List Bytes} :
    readList d args = .error .helpAfterCommand ↔
      ∃ before arg after, args = before ++ arg :: after ∧ ListClauses d.input before ∧
        (arg = spelled "-h" ∨ arg = spelled "--help") := by
  constructor
  · intro h
    fun_induction readList d args with
    | case1 d => cases h
    | case2 d arg rest t hhelp =>
      refine ⟨[], arg, rest, rfl, ⟨List.forall_mem_nil _, ?_⟩, isHelp_iff.1 hhelp⟩
      exact exists_toList_iff.1 ⟨d.input, (List.append_nil _).symm⟩
    | case3 d arg rest t hhelp habi ih =>
      obtain ⟨before, help, after, rfl, hbefore, hflag⟩ := ih h
      obtain rfl := (decodeLenient_eq_spelled (by decide)).1 habi
      exact ⟨_ :: before, help, after, rfl, listClauses_abi.2 hbefore, hflag⟩
    | case4 d arg rest t hhelp habi d' hd' ih =>
      obtain ⟨hhead, hnone, rfl⟩ := takeInput_eq_ok_iff.1 hd'
      obtain ⟨before, help, after, rfl, hbefore, hflag⟩ := ih h
      exact ⟨_ :: before, help, after, rfl, (listClauses_input hhead).2 ⟨hnone, hbefore⟩, hflag⟩
    | case5 => cases h
  · rintro ⟨before, help, after, rfl, hbefore, hflag⟩
    induction before generalizing d with
    | nil => rw [List.nil_append, readList, if_pos (isHelp_iff.2 hflag)]
    | cons arg before ih =>
      rcases hbefore.1 arg List.mem_cons_self with rfl | hhead
      · rw [List.cons_append, readList_abi]
        exact ih (listClauses_abi.1 hbefore)
      · obtain ⟨hnone, hrest⟩ := (listClauses_input hhead).1 hbefore
        rw [List.cons_append, readList_input hhead hnone]
        exact ih hrest

theorem list_eq_help_iff {args : List Bytes} :
    list args = .error .helpAfterCommand ↔
      ∃ before arg after, args = before ++ arg :: after ∧ ListClauses none before ∧
        (arg = spelled "-h" ∨ arg = spelled "--help") := by
  rw [← readList_eq_help_iff (d := ⟨none, .numeric⟩)]
  unfold list
  rcases readList ⟨none, .numeric⟩ args with e | ⟨_ | input, naming⟩ <;> simp

/-- Help is asked for after a command, and all that stands between the two can be read. -/
inductive AsksHelpLate : List Bytes → Prop
  | build {cs : List Clause} {before : List Bytes} {help : Bytes} (hbefore : Clauses cs before)
      (hinputs : (cs.filterMap Clause.input?).length ≤ 1)
      (h : help = spelled "-h" ∨ help = spelled "--help") (after : List Bytes) :
    AsksHelpLate (spelled "build" :: (before ++ help :: after))
  | list {before : List Bytes} {help : Bytes} (hbefore : ListClauses none before)
      (h : help = spelled "-h" ∨ help = spelled "--help") (after : List Bytes) :
    AsksHelpLate (spelled "list" :: (before ++ help :: after))

theorem request_build (rest : List Bytes) :
    request (spelled "build" :: rest) = (build rest).map .build := by
  rw [request, decodeLenient_spelled]
  rfl

theorem request_list (rest : List Bytes) :
    request (spelled "list" :: rest) = (list rest).map .list := by
  rw [request, decodeLenient_spelled]
  rfl

theorem request_eq_help_iff {args : List Bytes} :
    request args = .error .helpAfterCommand ↔ AsksHelpLate args := by
  constructor
  · intro h
    cases args with
    | nil => cases h
    | cons first rest =>
      unfold request at h
      dsimp only at h
      split_ifs at h with hhelp hbuild hlist
      · obtain rfl := (decodeLenient_eq_spelled (by decide)).1 hbuild
        obtain ⟨cs, before, help, after, rfl, hbefore, hflag, hinputs⟩ :=
          build_eq_help_iff.1 (map_eq_error.1 h)
        exact .build hbefore hinputs hflag after
      · obtain rfl := (decodeLenient_eq_spelled (by decide)).1 hlist
        obtain ⟨before, help, after, rfl, hbefore, hflag⟩ :=
          list_eq_help_iff.1 (map_eq_error.1 h)
        exact .list hbefore hflag after
      · cases h
  · intro h
    cases h with
    | build hbefore hinputs hflag after =>
      rw [request_build, map_eq_error]
      exact build_eq_help_iff.2 ⟨_, _, _, after, rfl, hbefore, hflag, hinputs⟩
    | list hbefore hflag after =>
      rw [request_list, map_eq_error]
      exact list_eq_help_iff.2 ⟨_, _, after, rfl, hbefore, hflag⟩

end RiscvRom.Arguments

namespace RiscvRom.Command

open Arguments (spelled AsksHelpLate)

theorem reportOn_of_run {σ : Type} {store : Store σ} {args : List Bytes} {s s' : σ} {o : Outcome}
    (h : runOn store args s = (o, s')) (format : Log.Format) (v : Log.Verbosity) :
    reportOn store format v args s = ⟨⟨o.status, o.output, s'⟩, o.errorOutputIn format v⟩ := by
  rw [reportOn, h]
  rfl

/-- **The exit status tells errors from success, but for late help.** A run fails exactly if a line
of its error output reports an error, or if it is asked for help after the command; this is so for
every verbosity and every store, with any logger that keeps its events apart from messages, as the
usual one does. Help is answered with the usage and nothing else, and changes no file: the run fails
if it is asked for after the command, and succeeds if it is asked for in its place. -/
theorem status_reports_errors {σ : Type} (store : Store σ) (format : Log.Format)
    (v : Log.Verbosity) (args : List Bytes) (s : σ) :
    (SetsEventsApart format →
      ((reportOn store format v args s).status ≠ 0 ↔
        ReportsError (reportOn store format v args s).errorOutput ∨ AsksHelpLate args)) ∧
    SetsEventsApart Log.Event.text ∧
    (AsksHelpLate args → reportOn store format v args s = ⟨⟨1, usageOutput, s⟩, []⟩) ∧
    ∀ first rest, args = first :: rest → first = spelled "-h" ∨ first = spelled "--help" →
      reportOn store format v args s = ⟨⟨0, usageOutput, s⟩, []⟩ := by
  have hlate : AsksHelpLate args → reportOn store format v args s = ⟨⟨1, usageOutput, s⟩, []⟩ := by
    intro h
    have hrun : runOn store args s = (⟨1, usageOutput, []⟩, s) := by
      rw [runOn, session, Arguments.request_eq_help_iff.2 h]
      rfl
    exact reportOn_of_run hrun format v
  refine ⟨?_, setsEventsApart_text, hlate, ?_⟩
  · intro hformat
    by_cases h : AsksHelpLate args
    · rw [hlate h]
      exact iff_of_true Nat.one_ne_zero (.inr h)
    · rw [or_iff_left h]
      change IsHonest format v (runOn store args s).1
      unfold runOn session
      split
      · exact isHonest_success format v _ (List.forall_mem_nil _)
      · exact isHonest_build v hformat store _ s
      · exact isHonest_listing v hformat store _ s
      · rename_i hrequest
        exact absurd (Arguments.request_eq_help_iff.1 hrequest) h
      · exact isHonest_failure format v List.mem_cons_self
  · rintro first rest rfl hfirst
    have hrun : runOn store (first :: rest) s = (⟨0, usageOutput, []⟩, s) := by
      rw [runOn, session, Arguments.request, if_pos (Arguments.isHelp_iff.2 hfirst)]
      rfl
    exact reportOn_of_run hrun format v

/-- A build is asked for help behind its input, and the first argument asks for it. A run without a
command reports an error. -/
theorem status_reports_errors_help :
    let late := [spelled "build", spelled "p.s", spelled "-h"]
    let early := [spelled "--help", spelled "build"]
    SetsEventsApart Log.Event.text ∧
    (AsksHelpLate late ∧ (report none late []).status ≠ 0 ∧
      report none late [] = ⟨⟨1, usageOutput, []⟩, []⟩) ∧
    report none early [] = ⟨⟨0, usageOutput, []⟩, []⟩ ∧
    ¬AsksHelpLate [] ∧ ReportsError (report none [] []).errorOutput := by
  intro late early
  have hinput : (Arguments.Clause.input (spelled "p.s")).Written [spelled "p.s"] :=
    .input (by decide)
  have hlate : AsksHelpLate late := .build (.cons hinput .nil) (by decide) (.inl rfl) []
  have hnot : ¬AsksHelpLate [] := nofun
  have hstatus : (report none [] []).status ≠ 0 := by decide
  have husual := status_reports_errors Directory.store Log.Event.text none
  have hformat := (husual [] []).2.1
  exact ⟨hformat, ⟨hlate, ((husual late []).1 hformat).2 (.inr hlate), (husual late []).2.2.1 hlate⟩,
    (husual early []).2.2.2 _ _ rfl (.inr rfl), hnot,
    (((husual [] []).1 hformat).1 hstatus).resolve_right hnot⟩

/-- Help after the command is answered with the usage and without an error, but the run fails. -/
theorem late_help_fails :
    let r := report .standard [spelled "build", spelled "--help"] []
    r.output = usageOutput ∧ ¬ReportsError r.errorOutput ∧ r.status = 1 := by
  intro r
  have hrequest : Arguments.request [spelled "build", spelled "--help"] =
      .error .helpAfterCommand := by decide +kernel
  have hrun : run [spelled "build", spelled "--help"] [] = (⟨1, usageOutput, []⟩, []) := by
    rw [run, runOn, session, hrequest]
    rfl
  have hr : r = ⟨⟨1, usageOutput, []⟩, []⟩ := reportOn_of_run hrun _ _
  rw [hr]
  exact ⟨rfl, not_reportsError_nil, rfl⟩

end RiscvRom.Command
