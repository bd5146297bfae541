import RiscvRom.Proofs.FirstFault
import RiscvRom.Proofs.PaddedImage
import RiscvRom.Proofs.RunEffects

/-! Names that are made from other texts.

A name is made in three steps: the characters are replaced, the start is mended, and a reserved word
is lengthened. What a step achieves is kept by the later ones, so the result is an identifier
whatever the text was, and making a name of it again changes nothing. A build that is given no name
makes one of its input, and is therefore never refused for its name. -/

namespace RiscvRom

namespace Identifier

/-- Characters that stay as they are: those of an identifier but for the dollar sign. -/
def isKept (c : Char) : Bool := c.isAlphanum || c == '_'

/-- The text starts as an identifier does. -/
def IsOpen (t : Text) : Prop := t.head?.any isStart = true

theorem isContinuation_of_isStart {c : Char} (h : isStart c = true) : isContinuation c = true := by
  simp only [isStart, Bool.or_eq_true] at h
  simp only [isContinuation, Char.isAlphanum, Bool.or_eq_true]
  tauto

theorem isKept_iff {c : Char} : isKept c = true ↔ isContinuation c = true ∧ c ≠ '$' := by
  by_cases h : c = '$'
  · subst h
    decide
  · simp [isKept, isContinuation, h]

theorem isValid_iff {name : Text} :
    isValid name = true ↔
      IsOpen name ∧ (∀ c ∈ name, isContinuation c = true) ∧ name ∉ reserved := by
  cases name with
  | nil => simp [isValid, IsOpen]
  | cons c r =>
    simp only [isValid, IsOpen, Bool.and_eq_true, List.all_eq_true, Bool.not_eq_true',
      List.contains_eq_mem, decide_eq_false_iff_not, List.head?_cons, Option.any_some,
      List.forall_mem_cons]
    constructor
    · rintro ⟨⟨hc, hr⟩, hname⟩
      exact ⟨hc, ⟨isContinuation_of_isStart hc, hr⟩, hname⟩
    · rintro ⟨hc, ⟨-, hr⟩, hname⟩
      exact ⟨⟨hc, hr⟩, hname⟩

/-! ## The three steps -/

theorem isKept_of_mem_plain {t : Text} : ∀ c ∈ plain t, isKept c = true := by
  intro c hc
  obtain ⟨a, -, rfl⟩ := List.mem_map.1 hc
  split
  · rename_i ha
    rw [isKept, ha, Bool.true_or]
  · rfl

theorem isKept_of_mem_opened {t : Text} (h : ∀ c ∈ t, isKept c = true) :
    ∀ c ∈ opened t, isKept c = true := by
  unfold opened
  split
  · exact h
  · exact List.forall_mem_cons.2 ⟨rfl, h⟩

theorem isOpen_opened (t : Text) : IsOpen (opened t) := by
  unfold opened
  split
  · assumption
  · rfl

theorem isKept_of_mem_unreserved {t : Text} (h : ∀ c ∈ t, isKept c = true) :
    ∀ c ∈ unreserved t, isKept c = true := by
  unfold unreserved
  split
  · exact List.forall_mem_append.2 ⟨h, List.forall_mem_singleton.2 rfl⟩
  · exact h

theorem isOpen_unreserved {t : Text} (h : IsOpen t) : IsOpen (unreserved t) := by
  unfold unreserved
  split
  · cases t with
    | nil => cases h
    | cons c r => exact h
  · exact h

/-- A reserved word with an underscore behind it is none. -/
theorem unreserved_notMem (t : Text) : unreserved t ∉ reserved := by
  have hlast : ∀ word ∈ reserved, word.getLast? ≠ some '_' := by decide +kernel
  unfold unreserved
  split
  · intro hmem
    exact hlast _ hmem (by simp)
  · rename_i h
    simpa using h

/-! ## All steps -/

theorem isKept_of_mem_ofText {t : Text} : ∀ c ∈ ofText t, isKept c = true :=
  isKept_of_mem_unreserved (isKept_of_mem_opened isKept_of_mem_plain)

theorem isValid_ofText (t : Text) : isValid (ofText t) = true := by
  refine isValid_iff.2 ⟨isOpen_unreserved (isOpen_opened _), ?_, unreserved_notMem _⟩
  intro c hc
  exact (isKept_iff.1 (isKept_of_mem_ofText c hc)).1

/-- No step finds anything to do in an identifier without a dollar sign. -/
theorem ofText_of_isValid {name : Text} (h : isValid name = true) (hdollar : '$' ∉ name) :
    ofText name = name := by
  obtain ⟨hopen, hchars, hreserved⟩ := isValid_iff.1 h
  have hplain : plain name = name := by
    refine (List.map_congr_left fun c hc => ?_).trans (List.map_id name)
    have hkept := isKept_iff.2 ⟨hchars c hc, fun h => hdollar (h ▸ hc)⟩
    split
    · rfl
    · rename_i halnum
      -- the underscore is replaced by itself
      rw [isKept, Bool.eq_false_of_not_eq_true halnum, Bool.false_or, beq_iff_eq] at hkept
      exact hkept.symm
  have hopened : opened name = name := if_pos hopen
  have hunreserved : unreserved name = name := if_neg (by simpa using hreserved)
  rw [ofText, hplain, hopened, hunreserved]

theorem ofText_ofText (t : Text) : ofText (ofText t) = ofText t := by
  refine ofText_of_isValid (isValid_ofText t) ?_
  intro hdollar
  exact (isKept_iff.1 (isKept_of_mem_ofText _ hdollar)).2 rfl

end Identifier

/-! ## A build without a name -/

namespace Arguments

theorem moduleName_of_take {d d' : Draft BuildSettings} {g : Group} (h : g.take d = .ok d')
    (hg : ∀ value, g ≠ .valued .moduleName value) :
    d'.options.moduleName = d.options.moduleName := by
  cases g with
  | help => cases h
  | missing option => cases h
  | verbose =>
    cases h
    rfl
  | other arg => exact congrArg _ (options_of_takeInput (mapError_eq_ok.1 h))
  | valued option value =>
    obtain ⟨s, hs, rfl⟩ := map_eq_ok.1 h
    rcases setValue_cases (mapError_eq_ok.1 hs) with
      ⟨rfl, rfl⟩ | ⟨rfl, rfl⟩ | ⟨rfl, n, -, rfl⟩ | ⟨rfl, f, -, rfl⟩
    · rfl
    · exact absurd rfl (hg value)
    · rfl
    · rfl

theorem moduleName_of_foldlM {d d' : Draft BuildSettings} {gs : List Group}
    (h : gs.foldlM Group.take d = .ok d') (hgs : ∀ value, .valued .moduleName value ∉ gs) :
    d'.options.moduleName = d.options.moduleName := by
  induction gs generalizing d with
  | nil =>
    cases h
    rfl
  | cons g gs ih =>
    simp only [List.mem_cons, not_or] at hgs
    obtain ⟨d₁, hg, hrest⟩ := bind_eq_ok.1 h
    rw [ih hrest fun value => (hgs value).2]
    exact moduleName_of_take hg fun value heq => (hgs value).1 heq.symm

theorem moduleName_of_build {args : List Bytes} {o : BuildOptions} (h : build args = .ok o)
    (hargs : ∀ value, .valued .moduleName value ∉ groups args) : o.moduleName = none := by
  unfold build at h
  split at h
  · cases h
  · cases h
  · rename_i input s hread
    cases h
    rw [readBuild_eq] at hread
    exact moduleName_of_foldlM hread hargs

end Arguments

namespace Command

theorem isValid_moduleName {o : BuildOptions} (h : o.moduleName = none) :
    Identifier.isValid (Build.geometry o).moduleName = true := by
  rw [Build.geometry, h]
  exact Identifier.isValid_ofText _

theorem image_ne_invalidModuleName {o : BuildOptions} (h : o.moduleName = none)
    (records : List Record) (name : Text) :
    Build.image o records ≠ .error (.invalidModuleName name) := by
  have hcheck : (Build.geometry o).check records.length ≠ .error (.invalidModuleName name) := by
    simp [Rom.Geometry.check_eq_error_iff]
  unfold Build.image
  split
  · rw [Ne, Rom.verilog_eq_error, isValid_moduleName h]
    simp [hcheck]
  · rwa [Ne, Rom.hex_eq_error]

/-! ## What a build reports -/

/-- A file that gives no records has no text, or a fault on one of its lines. -/
theorem diagnostic_of_load {input : Path} {x : Except StoreError Bytes} {e : Diagnostic}
    (h : (load input x).result = .error e) :
    (∃ detail, e = ⟨.unreadable detail, none⟩) ∨ ∃ fault place, e = ⟨fault, some place⟩ := by
  cases x with
  | error s =>
    cases h
    exact .inl ⟨_, rfl⟩
  | ok content =>
    rw [load] at h
    split at h
    · cases h
      exact .inl ⟨_, rfl⟩
    · obtain ⟨k, p, -, hp, -⟩ := mapM_eq_error.1 h
      obtain ⟨fault, -, rfl⟩ := PlacedInstruction.record_eq_error.1 hp
      exact .inr ⟨_, _, rfl⟩

/-- What can stand on the error output of a build. -/
inductive Build.Reports (o : BuildOptions) : Notice → Prop where
  | event (e : Log.Event) : Reports o (.event e)
  | unreadable (detail : Text) : Reports o (.line (Diagnostic.report ⟨.unreadable detail, none⟩))
  | fault (f : Fault) (p : Place) : Reports o (.line (Diagnostic.report ⟨f, some p⟩))
  | refused {records : List Record} {e : Rom.Refusal} (h : Build.image o records = .error e) :
    Reports o (error e.message)
  | unwritten (detail : Text) : Reports o (error ("failed to write output: ".toList ++ detail))
  | listed (r : Record) : Reports o (.line (Rom.assignment r))

theorem reports_of_build {σ : Type} (store : Store σ) (o : BuildOptions) (s : σ) :
    ∀ n ∈ ((Build.session o).runOn store s).1.notices, Build.Reports o n := by
  have hevents : ∀ l : Loaded, ∀ n ∈ l.notices, Build.Reports o n := by
    intro l
    exact List.forall_mem_map.2 fun e _ => .event e
  rw [Build.session, Session.runOn]
  dsimp only
  split
  · rename_i e he
    refine List.forall_mem_append.2 ⟨hevents _, List.forall_mem_singleton.2 ?_⟩
    obtain ⟨detail, rfl⟩ | ⟨fault, place, rfl⟩ := diagnostic_of_load he
    · exact .unreadable detail
    · exact .fault fault place
  · rename_i records _
    split
    · rename_i e he
      exact List.forall_mem_append.2 ⟨hevents _, List.forall_mem_singleton.2 (.refused he)⟩
    · rw [Session.runOn_write]
      split
      · exact List.forall_mem_append.2 ⟨hevents _, List.forall_mem_singleton.2 (.unwritten _)⟩
      · refine List.forall_mem_append.2 ⟨hevents _, List.forall_mem_cons.2 ⟨.event _, ?_⟩⟩
        unfold Build.listing
        split
        · exact List.forall_mem_map.2 fun r _ => .listed r
        · simp

theorem ne_of_letter {t u : Text} {a b : Char} (k : Nat) (ht : t[k]? = some a)
    (hu : u[k]? = some b) (h : a ≠ b) : t ≠ u := by
  rintro rfl
  exact h (Option.some.inj (ht.symm.trans hu))

/-- Nothing but a refusal for the name is worded like one. -/
theorem reports_ne_invalidModuleName {o : BuildOptions} (h : o.moduleName = none) {n : Notice}
    (hn : Build.Reports o n) (name : Text) :
    n ≠ error (Rom.Refusal.invalidModuleName name).message := by
  intro heq
  cases hn with
  | event e => cases heq
  | unreadable detail =>
    exact ne_of_letter (a := 'I') (b := 'i') 7 rfl rfl (by decide) (Notice.line.inj heq)
  | fault f p =>
    exact ne_of_letter (a := 'l') (b := 'i') 7 rfl rfl (by decide) (Notice.line.inj heq)
  | unwritten detail =>
    exact ne_of_letter (a := 'f') (b := 'i') 7 rfl rfl (by decide) (Notice.line.inj heq)
  | listed r =>
    exact ne_of_letter (a := 'r') (b := 'e') 0 rfl rfl (by decide) (Notice.line.inj heq)
  | @refused records e he =>
    cases e with
    | invalidModuleName name' => exact image_ne_invalidModuleName h records name' he
    | capacityExceeded required capacity =>
      exact ne_of_letter (a := 'p') (b := 'i') 7 rfl rfl (by decide) (Notice.line.inj heq)
    | invalidDepth depth =>
      exact ne_of_letter (a := 'R') (b := 'i') 7 rfl rfl (by decide) (Notice.line.inj heq)

theorem argumentFault_ne_invalidModuleName (f : ArgumentFault) (name : Text) :
    f.message ≠ (Rom.Refusal.invalidModuleName name).message := by
  cases f with
  | missingCommand | missingValue | multipleInputs | missingInput =>
    exact ne_of_letter (a := 'm') (b := 'i') 0 rfl rfl (by decide)
  | unknownCommand | unknownFormat | unknownOption =>
    exact ne_of_letter (a := 'u') (b := 'i') 0 rfl rfl (by decide)
  | invalidDepth => exact ne_of_letter (a := 'd') (b := 'V') 8 rfl rfl (by decide)

/-- **Names that are made are identifiers**, of any text, and making a name again changes nothing;
nor does it change an identifier without a dollar sign. So a build without the option for a name is
never refused for its name, whatever its input is called, and its error output never says so. -/
theorem made_names_are_identifiers :
    (∀ t, Identifier.isValid (Identifier.ofText t) = true) ∧
    (∀ t, Identifier.ofText (Identifier.ofText t) = Identifier.ofText t) ∧
    (∀ name, Identifier.isValid name = true → '$' ∉ name → Identifier.ofText name = name) ∧
    (∀ (o : BuildOptions) (records : List Record) (name : Text), o.moduleName = none →
      Build.image o records ≠ .error (.invalidModuleName name)) ∧
    ∀ (first : Bytes) (rest : List Bytes) (d : Directory) (name : Text),
      Utf8.decodeLenient first = "build".toList →
      (∀ value, .valued .moduleName value ∉ Arguments.groups rest) →
      error (Rom.Refusal.invalidModuleName name).message ∉ (run (first :: rest) d).1.notices := by
  refine ⟨Identifier.isValid_ofText, Identifier.ofText_ofText,
    fun _ => Identifier.ofText_of_isValid, ?_, ?_⟩
  · intro o records name h
    exact image_ne_invalidModuleName h records name
  · intro first rest d name hfirst hrest
    rw [run, run_build_eq hfirst]
    cases hbuild : Arguments.build rest with
    | ok o =>
      intro hmem
      have hnone := Arguments.moduleName_of_build hbuild hrest
      exact reports_ne_invalidModuleName hnone (reports_of_build _ o d _ hmem) name rfl
    | error e =>
      cases e with
      | helpAfterCommand => exact List.not_mem_nil
      | fault f =>
        intro hmem
        rcases List.mem_cons.1 hmem with heq | husage
        · have htext := List.append_cancel_left (Notice.line.inj heq)
          exact argumentFault_ne_invalidModuleName f name htext.symm
        · have htext := Notice.line.inj (List.mem_singleton.1 husage)
          exact ne_of_letter (a := 'e') (b := 'U') 0 rfl rfl (by decide) htext

end Command
end RiscvRom
