import RiscvRom.Command.Session
import RiscvRom.Proofs.BuildArguments
import RiscvRom.Proofs.Utf8RoundTrip
import RiscvRom.Proofs.Writing

/-! What a run leaves behind.

Only a build writes, it writes one file, and it does so as its last step: once that has succeeded,
nothing can fail any more. So a run that fails has changed nothing, in any store where a write that
fails changes nothing; a directory is one. What is shown of the log and of the program on the way
has no part in it. -/

namespace RiscvRom.Command

/-! ## What is seen of a run -/

/-- The result of a run, its error output apart: the directory is as the run leaves it. -/
structure Effect (σ : Type) where
  status : Nat
  output : Text
  directory : σ

structure Report (σ : Type) extends Effect σ where
  errorOutput : Text

def effect {σ : Type} (r : Outcome × σ) : Effect σ := ⟨r.1.status, r.1.output, r.2⟩

/-- A run as it is seen with a verbosity and a logger that prints in the given format. -/
def reportOn {σ : Type} (store : Store σ) (format : Log.Format) (v : Log.Verbosity)
    (args : List Bytes) (s : σ) : Report σ :=
  { effect (runOn store args s) with
    errorOutput := (runOn store args s).1.errorOutputIn format v }

/-- A run on a directory, with the usual logger. -/
def report (v : Log.Verbosity) (args : List Bytes) (d : Directory) : Report Directory :=
  reportOn Directory.store Log.Event.text v args d

/-! ## Reading a program -/

theorem load_eq_ok {input : Path} {x : Except StoreError Bytes} {records : List Record} :
    (load input x).result = .ok records ↔
      ∃ content source, x = .ok content ∧ Utf8.decode? content = some source ∧
        Program.assemble source = .ok records := by
  cases x with
  | error e => simp [load, unreadable]
  | ok content =>
    have hload : ∀ decoded, Utf8.decode? content = decoded →
        ((load input (.ok content)).result = .ok records ↔
          ∃ source, decoded = some source ∧ Program.assemble source = .ok records) := by
      rintro (_ | source) h
      · simp [load, h, unreadable]
      · simp only [load, h, Option.some.injEq, exists_eq_left']
        rfl
    rw [hload _ rfl]
    simp

namespace Build

/-! ## A build -/

/-- What a build makes of what it reads: records, and an image of them under the given name and
depth. -/
structure Prepared (read : Except StoreError Bytes) (o : BuildOptions) (records : List Record)
    (text : Text) : Prop where
  assembled : ∃ content source, read = .ok content ∧
    Utf8.decode? content = some source ∧ Program.assemble source = .ok records
  image : (match o.format with
    | .verilog => Rom.verilog
    | .hex => Rom.hex) ⟨o.moduleName.getD (moduleNameFor o.input), o.depth.getD 256, nopWord⟩
      records = .ok text

/-- All that a build needs: an image of the file as it is, and a write that does not fail. -/
structure Made {σ : Type} (store : Store σ) (s : σ) (o : BuildOptions) (records : List Record)
    (text : Text) : Prop extends Prepared (store.read s o.input) o records text where
  written : (store.write s (outputPath o) (Utf8.encode text)).1 = .ok ()

/-- All that a build needs of a directory: an image of the file as it is, and a place for it that
is no folder. -/
structure Ready (d : Directory) (o : BuildOptions) (records : List Record) (text : Text)
    (l : Location) : Prop extends Prepared (d.read o.input) o records text where
  place : d.follow (outputPath o) (Path.pieces (outputPath o)) = .ok l
  noFolder : (outputPath o).getLast? ≠ some Path.slash ∧ d.node? l ≠ some .folder

theorem image_eq (o : BuildOptions) (records : List Record) :
    image o records = (match o.format with
      | .verilog => Rom.verilog
      | .hex => Rom.hex) ⟨o.moduleName.getD (moduleNameFor o.input), o.depth.getD 256, nopWord⟩
        records := by
  unfold image
  cases o.format <;> rfl

variable {o : BuildOptions} {records : List Record} {text : Text}

theorem prepared_iff {read : Except StoreError Bytes} :
    Prepared read o records text ↔
      (load o.input read).result = .ok records ∧ image o records = .ok text := by
  rw [load_eq_ok, image_eq]
  exact ⟨fun h => ⟨h.assembled, h.image⟩, fun h => ⟨h.1, h.2⟩⟩

section
variable {σ : Type}

/-- A build that has all it needs writes its image and succeeds. -/
theorem effect_of_made {store : Store σ} {s : σ} (h : Made store s o records text) :
    effect ((session o).runOn store s) =
      ⟨0, summary o records, (store.write s (outputPath o) (Utf8.encode text)).2⟩ := by
  obtain ⟨hload, himage⟩ := prepared_iff.1 h.toPrepared
  rw [session, Session.runOn]
  simp only [hload, himage, Session.runOn_write, h.written]
  rfl

/-- A build fails and leaves all files as they are, or it has all it needs. -/
theorem effect_cases (store : AtomicStore σ) (o : BuildOptions) (s : σ) :
    effect ((session o).runOn store.toStore s) = ⟨1, [], s⟩ ∨
      ∃ records text, Made store.toStore s o records text := by
  cases hload : (load o.input (store.read s o.input)).result with
  | error e =>
    refine .inl ?_
    rw [session, Session.runOn]
    simp only [hload]
    rfl
  | ok records =>
    cases himage : image o records with
    | error e =>
      refine .inl ?_
      rw [session, Session.runOn]
      simp only [hload, himage]
      rfl
    | ok text =>
      cases hwrite : (store.write s (outputPath o) (Utf8.encode text)).1 with
      | error e =>
        refine .inl ?_
        rw [session, Session.runOn]
        simp only [hload, himage, Session.runOn_write, hwrite, store.unchanged hwrite]
        rfl
      | ok u => exact .inr ⟨records, text, prepared_iff.2 ⟨hload, himage⟩, hwrite⟩

/-- Asking for a listing makes no difference to what is left behind. -/
theorem effect_quiet (store : AtomicStore σ) (o : BuildOptions) (s : σ) :
    effect ((session { o with verbose := false }).runOn store.toStore s) =
      effect ((session o).runOn store.toStore s) := by
  have hmade : ∀ {records text}, Made store.toStore s { o with verbose := false } records text ↔
      Made store.toStore s o records text :=
    ⟨fun h => ⟨⟨h.assembled, h.image⟩, h.written⟩, fun h => ⟨⟨h.assembled, h.image⟩, h.written⟩⟩
  rcases effect_cases store o s with hfail | ⟨records, text, h⟩
  · rcases effect_cases store { o with verbose := false } s with hfail' | ⟨records, text, h⟩
    · rw [hfail, hfail']
    · rw [effect_of_made h, effect_of_made (hmade.1 h)]
      rfl
  · rw [effect_of_made h, effect_of_made (hmade.2 h)]
    rfl

end

variable {d : Directory} {l : Location}

theorem write_of_ready (h : Ready d o records text l) (content : Bytes) :
    Directory.store.write d (outputPath o) content = (.ok (), d.put l (.file content)) := by
  have hwrite : d.write (outputPath o) content = .ok (d.put l (.file content)) :=
    Directory.write_eq_ok.2 ⟨h.noFolder.1, l, h.place, h.noFolder.2, rfl⟩
  dsimp only [Directory.store]
  rw [hwrite]

theorem made_iff_ready :
    Made Directory.store d o records text ↔ ∃ l, Ready d o records text l := by
  constructor
  · intro h
    obtain ⟨hslash, l, hplace, hfolder, -⟩ :=
      Directory.write_eq_ok.1 (Directory.store_write_eq_ok.1 h.written)
    exact ⟨l, h.toPrepared, hplace, hslash, hfolder⟩
  · rintro ⟨l, h⟩
    exact ⟨h.toPrepared, congrArg Prod.fst (write_of_ready h _)⟩

end Build

/-! ## Any command -/

theorem request_ne_build {first : Bytes} (h : Utf8.decodeLenient first ≠ "build".toList)
    (rest : List Bytes) (o : BuildOptions) :
    Arguments.request (first :: rest) ≠ .ok (.build o) := by
  rw [Arguments.request, if_neg h]
  split
  · simp
  · split
    · cases Arguments.list rest <;> simp [Except.map]
    · simp

theorem request_ne_build_of_command {first : Bytes}
    (h : Arguments.isHelp (Utf8.decodeLenient first) = true ∨
      Utf8.decodeLenient first = "list".toList) (rest : List Bytes) (o : BuildOptions) :
    Arguments.request (first :: rest) ≠ .ok (.build o) := by
  refine request_ne_build (fun hbuild => ?_) rest o
  rw [hbuild] at h
  exact absurd h (by decide)

section
variable {σ : Type}

theorem directory_of_listing (store : Store σ) (o : ListOptions) (s : σ) :
    ((Listing.session o).runOn store s).2 = s := by
  rw [Listing.session, Session.runOn]
  dsimp only
  split <;> rfl

/-- Only a build writes. -/
theorem directory_of_not_build {args : List Bytes}
    (h : ∀ o, Arguments.request args ≠ .ok (.build o)) (store : Store σ) (s : σ) :
    (runOn store args s).2 = s := by
  unfold runOn session
  split
  · rfl
  · rename_i o hrequest
    exact absurd hrequest (h o)
  · rename_i o _
    exact directory_of_listing store o s
  · rfl
  · rfl

theorem run_of_build {args : List Bytes} {o : BuildOptions}
    (h : Arguments.request args = .ok (.build o)) (store : Store σ) (s : σ) :
    runOn store args s = (Build.session o).runOn store s := by
  rw [runOn, session, h]

variable (store : AtomicStore σ) {s : σ}

theorem directory_of_failure {args : List Bytes} (h : (runOn store.toStore args s).1.status ≠ 0) :
    (runOn store.toStore args s).2 = s := by
  by_cases hbuild : ∃ o, Arguments.request args = .ok (.build o)
  · obtain ⟨o, ho⟩ := hbuild
    rw [run_of_build ho] at h ⊢
    rcases Build.effect_cases store o s with hfail | ⟨records, text, hmade⟩
    · exact congrArg Effect.directory hfail
    · exact absurd (congrArg Effect.status (Build.effect_of_made hmade)) h
  · exact directory_of_not_build (fun o ho => hbuild ⟨o, ho⟩) _ s

variable {first : Bytes} {rest : List Bytes} (hfirst : Utf8.decodeLenient first = "build".toList)
include hfirst

/-- A build is known by what its arguments ask for. -/
theorem run_build_eq (store : Store σ) (s : σ) :
    runOn store (first :: rest) s =
      match Arguments.build rest with
      | .ok o => (Build.session o).runOn store s
      | .error .helpAfterCommand => (⟨1, usageOutput, []⟩, s)
      | .error (.fault f) => (.failure [error f.message, .line usage], s) := by
  have hrequest : Arguments.request (first :: rest) = (Arguments.build rest).map .build := by
    rw [Arguments.request, hfirst]
    rfl
  rw [runOn, session, hrequest]
  rcases Arguments.build rest with (_ | f) | o <;> rfl

theorem status_eq_zero_iff :
    (runOn store.toStore (first :: rest) s).1.status = 0 ↔
      ∃ o records text, Arguments.build rest = .ok o ∧
        Build.Made store.toStore s o records text := by
  rw [run_build_eq hfirst]
  cases hbuild : Arguments.build rest with
  | error e => cases e <;> simp [Outcome.failure]
  | ok o =>
    constructor
    · intro h
      rcases Build.effect_cases store o s with hfail | ⟨records, text, hmade⟩
      · have hstatus : (1 : Nat) = 0 := (congrArg Effect.status hfail).symm.trans h
        cases hstatus
      · exact ⟨o, records, text, rfl, hmade⟩
    · rintro ⟨o', records, text, ho, hmade⟩
      cases ho
      exact congrArg Effect.status (Build.effect_of_made hmade)

theorem directory_of_made {store : Store σ} {o : BuildOptions} {records : List Record}
    {text : Text} (ho : Arguments.build rest = .ok o) (h : Build.Made store s o records text) :
    (runOn store (first :: rest) s).2 =
      (store.write s (Build.outputPath o) (Utf8.encode text)).2 := by
  rw [run_build_eq hfirst, ho]
  exact congrArg Effect.directory (Build.effect_of_made h)

/-- Neither does it matter where among the arguments a listing is asked for. -/
theorem effect_of_groups {rest' : List Bytes}
    (h : (Arguments.groups rest').filter (· ≠ .verbose) =
      (Arguments.groups rest).filter (· ≠ .verbose)) :
    effect (runOn store.toStore (first :: rest') s) =
      effect (runOn store.toStore (first :: rest) s) := by
  have hoptions := Arguments.build_of_groups h
  rw [run_build_eq hfirst, run_build_eq hfirst]
  cases hbuild : Arguments.build rest with
  | error e =>
    rw [hbuild] at hoptions
    rw [map_eq_error.1 hoptions]
  | ok o =>
    rw [hbuild] at hoptions
    obtain ⟨o', ho', hsame⟩ := map_eq_ok.1 hoptions
    rw [ho']
    dsimp only
    rw [← Build.effect_quiet store o', ← Build.effect_quiet store o, hsame]

end

/-- What a run may leave behind in a store: nothing if it fails or is no build, and otherwise the
image under every path to the output. A listing makes no difference to it. -/
structure LeavesImageOnly {σ : Type} (store : AtomicStore σ) (args : List Bytes) (s : σ) :
    Prop where
  failure : (runOn store.toStore args s).1.status ≠ 0 → (runOn store.toStore args s).2 = s
  noBuild : ∀ first rest, args = first :: rest →
    Arguments.isHelp (Utf8.decodeLenient first) = true ∨
      Utf8.decodeLenient first = "list".toList →
    (runOn store.toStore args s).2 = s
  success : ∀ first rest, args = first :: rest → Utf8.decodeLenient first = "build".toList →
    ((runOn store.toStore args s).1.status = 0 ↔
      ∃ o records text, Arguments.build rest = .ok o ∧ Build.Made store.toStore s o records text)
  image : ∀ first rest o records text, args = first :: rest →
    Utf8.decodeLenient first = "build".toList → Arguments.build rest = .ok o →
    Build.Made store.toStore s o records text →
    ∀ path, (store.sameFile s (Build.outputPath o) path →
        store.read (runOn store.toStore args s).2 path = .ok (Utf8.encode text)) ∧
      (¬store.sameFile s (Build.outputPath o) path → ∀ content,
        store.read (runOn store.toStore args s).2 path = .ok content ↔
          store.read s path = .ok content)
  listing : ∀ first rest rest', args = first :: rest →
    Utf8.decodeLenient first = "build".toList →
    (Arguments.groups rest').filter (· ≠ .verbose) =
      (Arguments.groups rest).filter (· ≠ .verbose) →
    effect (runOn store.toStore (first :: rest') s) = effect (runOn store.toStore args s)

theorem leavesImageOnly {σ : Type} (store : AtomicStore σ) (args : List Bytes) (s : σ) :
    LeavesImageOnly store args s where
  failure := directory_of_failure store
  noBuild := by
    rintro first rest rfl hcommand
    exact directory_of_not_build (request_ne_build_of_command hcommand rest) _ s
  success := by
    rintro first rest rfl hfirst
    exact status_eq_zero_iff store hfirst
  image := by
    rintro first rest o records text rfl hfirst ho hmade path
    rw [directory_of_made hfirst ho hmade]
    exact ⟨store.stored hmade.written, fun hpath _ => store.kept hmade.written hpath⟩
  listing := by
    rintro first rest rest' rfl hfirst hgroups
    exact effect_of_groups store hfirst hgroups

/-! ## A directory -/

section
variable {first : Bytes} {rest : List Bytes} (hfirst : Utf8.decodeLenient first = "build".toList)
include hfirst

theorem status_eq_zero_iff_ready (d : Directory) :
    (run (first :: rest) d).1.status = 0 ↔
      ∃ o records text l, Arguments.build rest = .ok o ∧ Build.Ready d o records text l := by
  refine (status_eq_zero_iff Directory.atomicStore hfirst).trans ?_
  refine exists_congr fun o => exists_congr fun records => exists_congr fun text => ?_
  rw [exists_and_left]
  exact and_congr_right fun _ => Build.made_iff_ready

theorem directory_of_ready {o : BuildOptions} (ho : Arguments.build rest = .ok o) {d : Directory}
    {records : List Record} {text : Text} {l : Location} (h : Build.Ready d o records text l) :
    (run (first :: rest) d).2 = d.put l (.file (Utf8.encode text)) := by
  rw [run, directory_of_made hfirst ho (Build.made_iff_ready.2 ⟨l, h⟩), Build.write_of_ready h]

end

theorem outputPath_of_build {args : List Bytes} {o : BuildOptions}
    (h : Arguments.build args = .ok o) :
    Build.outputPath o =
      (Arguments.outputValue? args).elim (outputFor o.input o.format) Arguments.pathOf := by
  rw [Build.outputPath, Arguments.output_of_build h]
  cases Arguments.outputValue? args <;> rfl

/-- **A run leaves nothing behind but the image of a build.** A run that fails, that asks for help
or that lists a program changes no file. A build succeeds exactly if it has all it needs: then its
image stands at the output path, and everything else is as it was. The output path is the value
given for it, read as text, which is the value itself if it is the bytes of a text; where none is
given it is the path beside the input. The verbosity changes the error output only, and so does
asking for a listing. All this holds of any store whose writes take effect as a whole, whatever
makes them fail and whichever paths lead to the same file. -/
theorem run_leaves_image_only (v : Log.Verbosity) (args : List Bytes) (d : Directory) :
    ((report v args d).status ≠ 0 → (report v args d).directory = d) ∧
    (∀ first rest, args = first :: rest →
      Arguments.isHelp (Utf8.decodeLenient first) = true ∨
        Utf8.decodeLenient first = "list".toList →
      (report v args d).directory = d) ∧
    (∀ first rest, args = first :: rest → Utf8.decodeLenient first = "build".toList →
      ((report v args d).status = 0 ↔
        ∃ o records text l, Arguments.build rest = .ok o ∧ Build.Ready d o records text l) ∧
      (∀ o records text l, Arguments.build rest = .ok o → Build.Ready d o records text l →
        Build.outputPath o =
          (Arguments.outputValue? rest).elim (outputFor o.input o.format) Arguments.pathOf ∧
        (report v args d).directory.read (Build.outputPath o) = .ok (Utf8.encode text) ∧
        ∀ m, (report v args d).directory.node? m =
          if m = l then some (.file (Utf8.encode text)) else d.node? m) ∧
      ∀ rest', (Arguments.groups rest').filter (· ≠ .verbose) =
          (Arguments.groups rest).filter (· ≠ .verbose) →
        (report v (first :: rest') d).toEffect = (report v args d).toEffect) ∧
    (∀ t, Arguments.pathOf (Utf8.encode t) = Utf8.encode t) ∧
    (∀ v', (report v' args d).toEffect = (report v args d).toEffect) ∧
    ∀ {σ : Type} (store : AtomicStore σ) (s : σ), LeavesImageOnly store args s := by
  have hleaves := leavesImageOnly Directory.atomicStore args d
  refine ⟨hleaves.failure, hleaves.noBuild, ?_, ?_, fun _ => rfl,
    fun store s => leavesImageOnly store args s⟩
  · rintro first rest rfl hfirst
    refine ⟨status_eq_zero_iff_ready hfirst d, ?_,
      fun rest' h => hleaves.listing first rest rest' rfl hfirst h⟩
    intro o records text l ho hready
    have hdirectory : (report v (first :: rest) d).directory = d.put l (.file (Utf8.encode text)) :=
      directory_of_ready hfirst ho hready
    rw [hdirectory]
    exact ⟨outputPath_of_build ho, Directory.read_put hready.noFolder.2 hready.place,
      Directory.node?_put hready.noFolder.2 _⟩
  · intro t
    rw [Arguments.pathOf, Utf8.decodeLenient_encode]

/-- A run without a command, a listing, and a build into a file that is named like the flag, which
is read by way of another path as well. The same build changes nothing where the disk is full. -/
theorem run_leaves_image_only_fence :
    let bytes := fun s : String => Utf8.encode s.toList
    let d : Directory := [(⟨.above 0, [bytes "p.s"]⟩, .file (bytes "fence"))]
    let rest := ["p.s", "--format", "hex", "-v", "--depth", "2", "-o", "-v"].map bytes
    let rest' := ["p.s", "--format", "hex", "--depth", "2", "-o", "-v"].map bytes
    let r := report none (bytes "build" :: rest) d
    let files := Directory.atomicStore
    let full := files.refusing fun _ _ _ => some ⟨"No space left on device".toList, 28⟩
    let onFull := runOn full.toStore (bytes "build" :: rest) d
    ((report none [] d).status ≠ 0 ∧ (report none [] d).directory = d) ∧
    (report none [bytes "list", bytes "p.s"] d).directory = d ∧
    (∃ o records text l, Arguments.build rest = .ok o ∧ Build.Ready d o records text l ∧
      Build.outputPath o = bytes "-v" ∧ r.directory.read (bytes "-v") = .ok (Utf8.encode text) ∧
      (∀ m, r.directory.node? m = if m = l then some (.file (Utf8.encode text)) else d.node? m) ∧
      files.sameFile d (bytes "-v") (bytes "./-v") ∧
      r.directory.read (bytes "./-v") = .ok (Utf8.encode text)) ∧
    (report none (bytes "build" :: rest') d).toEffect = r.toEffect ∧
    onFull.1.status ≠ 0 ∧ onFull.2 = d := by
  intro bytes d rest rest' r files full onFull
  have hfail : (report none [] d).status ≠ 0 := by decide
  have hfirst : Utf8.decodeLenient (bytes "build") = "build".toList := by decide +kernel
  obtain ⟨-, -, hbuild, -, -, hstores⟩ := run_leaves_image_only none (bytes "build" :: rest) d
  obtain ⟨hzero, himage, hlisting⟩ := hbuild _ _ rfl hfirst
  have hstatus : r.status = 0 := by decide +kernel
  have hvalue : Arguments.outputValue? rest = some (bytes "-v") := by decide +kernel
  obtain ⟨o, records, text, l, ho, hready⟩ := hzero.1 hstatus
  obtain ⟨hpath, hread, hnodes⟩ := himage o records text l ho hready
  rw [hvalue] at hpath
  have hname : Build.outputPath o = bytes "-v" :=
    hpath.trans ((run_leaves_image_only none [] d).2.2.2.1 "-v".toList)
  have hmade : Build.Made Directory.store d o records text := Build.made_iff_ready.2 ⟨l, hready⟩
  have halias := ((hstores files d).image _ _ o records text rfl hfirst ho hmade (bytes "./-v")).1
  rw [hname] at hread halias
  have hsame : files.sameFile d (bytes "-v") (bytes "./-v") := by
    change Directory.follow d _ _ = Directory.follow d _ _
    decide +kernel
  have hfull : onFull.1.status ≠ 0 := by decide +kernel
  exact ⟨⟨hfail, (run_leaves_image_only none [] d).1 hfail⟩,
    (run_leaves_image_only none _ d).2.1 _ _ rfl (.inr (by decide +kernel)),
    ⟨o, records, text, l, ho, hready, hname, hread, hnodes, hsame, halias hsame⟩,
    hlisting _ (by decide +kernel), hfull, (hstores full d).failure hfull⟩

/-- A value that is not the bytes of a text is not where the image goes: another file, which is
named by the replacement character, is lost to it. -/
theorem output_value_not_written :
    let replaced := Utf8.encode "\uFFFD".toList
    let rest := ["p.s", "--depth", "2", "--format", "hex", "-o"].map
      (fun s => Utf8.encode s.toList) ++ [[0xFF]]
    let d : Directory :=
      [(⟨.above 0, [Utf8.encode "p.s".toList]⟩, .file (Utf8.encode "fence".toList)),
       (⟨.above 0, [replaced]⟩, .file [])]
    let r := report .standard (Utf8.encode "build".toList :: rest) d
    Arguments.outputValue? rest = some [0xFF] ∧ r.status = 0 ∧
      r.directory.read [0xFF] = .error .notFound ∧ d.read replaced = .ok [] ∧
      r.directory.read replaced = .ok (Utf8.encode "00000013\n00000013\n".toList) := by
  refine ⟨?_, ?_, ?_, ?_, ?_⟩
  · decide +kernel
  · decide +kernel
  · decide +kernel
  · decide +kernel
  · decide +kernel

end RiscvRom.Command
