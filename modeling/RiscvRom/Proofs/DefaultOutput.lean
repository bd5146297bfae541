import RiscvRom.Proofs.FileName
import RiscvRom.Proofs.RunEffects

/-! The default output of a build.

It is a file beside the input, and its name is never the name of the input: behind the stem stands
an underscore where the name of the input ends or has a dot. A name that is no text has a stand-in
for its stem, and is no name that the stand-in could give. So a build without an output path leaves
its input as it is. -/

namespace RiscvRom.Command

/-! ## The name of the output -/

/-- The name of the default output, behind the folder part. -/
def outputName (input : Path) (format : ImageFormat) : Bytes :=
  stemOf input ++ Utf8.encode ("_imem.".toList ++ format.extension)

/-- A name that is no text has a stand-in for its stem. -/
theorem stemOf_of_fileName? {input : Path} {name : Bytes} (h : Path.fileName? input = some name) :
    stemOf input = if (Utf8.decode? (Path.stem name)).isSome then Path.stem name
      else Utf8.encode "out".toList := by
  rw [stemOf, h, Option.map_some, Option.filter_some]
  split <;> rfl

theorem slash_notMem_stemOf (input : Path) : Path.slash ∉ stemOf input := by
  have hout : Path.slash ∉ Utf8.encode "out".toList := by decide
  cases hname : Path.fileName? input with
  | none =>
    rw [stemOf, hname]
    exact hout
  | some name =>
    rw [stemOf_of_fileName? hname]
    split
    · exact Path.slash_notMem_stem (Path.isName_of_fileName? hname).slash_notMem
    · exact hout

theorem isName_outputName (input : Path) (format : ImageFormat) :
    Path.IsName (outputName input format) := by
  have hmark : 0x5F ∈ outputName input format := by
    apply List.mem_append_right
    cases format <;> decide
  have hne : ∀ dots : Bytes, 0x5F ∉ dots → outputName input format ≠ dots := by
    rintro _ hdots rfl
    exact hdots hmark
  refine ⟨?_, ?_, ?_⟩
  · unfold outputName
    rw [List.mem_append, not_or]
    refine ⟨slash_notMem_stemOf input, ?_⟩
    cases format <;> decide
  · simp [Path.isIdle, hne [] (by decide), hne [Path.dot] (by decide)]
  · simp [Path.isParent, hne [Path.dot, Path.dot] (by decide)]

theorem outputName_ne {input : Path} {name : Bytes} (h : Path.fileName? input = some name)
    (format : ImageFormat) : outputName input format ≠ name := by
  obtain ⟨rest, hrest⟩ :
      ∃ rest, Utf8.encode ("_imem.".toList ++ format.extension) = 0x5F :: rest := by
    cases format <;> exact ⟨_, rfl⟩
  unfold outputName
  rw [stemOf_of_fileName? h]
  split
  · rw [hrest]
    intro heq
    rcases Path.stem_cases name with hstem | ⟨ext, hname⟩
    · rw [hstem] at heq
      simp at heq
    · cases List.append_cancel_left (heq.trans hname)
  · rename_i htext
    rintro rfl
    -- the stand-in gives a name with a stem that is a text
    refine htext ?_
    cases format <;> decide +kernel

theorem fileName?_outputFor (input : Path) (format : ImageFormat) :
    Path.fileName? (outputFor input format) = some (outputName input format) := by
  obtain ⟨ps, hfolder⟩ := Path.exists_isFolder_parent input
  exact Path.fileName?_join hfolder (isName_outputName input format)

theorem parent_outputFor (input : Path) (format : ImageFormat) :
    Path.parent (outputFor input format) = Path.parent input := by
  obtain ⟨ps, hfolder⟩ := Path.exists_isFolder_parent input
  exact Path.parent_join hfolder (isName_outputName input format)

theorem output_eq_none_of_build {args : List Bytes} {o : BuildOptions}
    (h : Arguments.build args = .ok o) (hoption : Arguments.outputValue? args = none) :
    Build.outputPath o = outputFor o.input o.format := by
  rw [outputPath_of_build h, hoption]
  rfl

/-- **The default output is a file beside the input, and never the input.** Its file name is not
the one of the input, whatever the format, and both have the same folder part. So a build that
succeeds without the option for the output leaves the bytes of its input as they were. -/
theorem default_output_spares_input :
    (∀ (input : Path) (name : Bytes) (format : ImageFormat), Path.fileName? input = some name →
      (∃ other, Path.fileName? (outputFor input format) = some other ∧ other ≠ name) ∧
        Path.parent (outputFor input format) = Path.parent input) ∧
    ∀ (v : Log.Verbosity) (first : Bytes) (rest : List Bytes) (d : Directory) (o : BuildOptions),
      Utf8.decodeLenient first = "build".toList → Arguments.build rest = .ok o →
      Arguments.outputValue? rest = none → (report v (first :: rest) d).status = 0 →
      ∃ content, d.read o.input = .ok content ∧
        (report v (first :: rest) d).directory.read o.input = .ok content := by
  constructor
  · intro input name format h
    exact ⟨⟨_, fileName?_outputFor input format, outputName_ne h format⟩,
      parent_outputFor input format⟩
  · intro v first rest d o hfirst ho hoption hstatus
    obtain ⟨o', records, text, l, ho', hready⟩ := (status_eq_zero_iff_ready hfirst d).1 hstatus
    obtain rfl := Except.ok.inj (ho'.symm.trans ho)
    obtain ⟨content, -, hread, -⟩ := hready.assembled
    obtain ⟨name, hname⟩ := Directory.exists_fileName?_of_read hread
    have hplace := hready.place
    rw [output_eq_none_of_build ho hoption] at hplace
    refine ⟨content, hread, ?_⟩
    change (run (first :: rest) d).2.read o'.input = .ok content
    rw [directory_of_ready hfirst ho hready]
    exact Directory.read_put_of_fileName?_ne hread hname (fileName?_outputFor _ _)
      (outputName_ne hname _) hplace hready.noFolder.2

/-- The input is named like an output, and the output gets the same ending once more. -/
theorem default_output_spares_input_ending :
    let bytes := fun s : String => Utf8.encode s.toList
    let input := bytes "a_imem.hex"
    let d : Directory := [(⟨.above 0, [input]⟩, .file (bytes "fence"))]
    let rest := [input, bytes "--depth", bytes "2", bytes "--format", bytes "hex"]
    let r := report none (bytes "build" :: rest) d
    (∃ other, Path.fileName? (outputFor input .hex) = some other ∧ other ≠ input) ∧
      Path.parent (outputFor input .hex) = Path.parent input ∧ r.status = 0 ∧
      ∃ content, d.read input = .ok content ∧ r.directory.read input = .ok content := by
  intro bytes input d rest r
  have hname : Path.fileName? input = some input := by decide +kernel
  have hbuild : Arguments.build rest = .ok ⟨{ depth := some 2, format := .hex }, input⟩ := by
    decide +kernel
  have hstatus : r.status = 0 := by decide +kernel
  obtain ⟨hother, hparent⟩ := default_output_spares_input.1 input input .hex hname
  refine ⟨hother, hparent, hstatus, ?_⟩
  exact default_output_spares_input.2 none (bytes "build") rest d _ (by decide +kernel) hbuild
    (by decide +kernel) hstatus

end RiscvRom.Command
