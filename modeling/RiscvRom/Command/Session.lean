import RiscvRom.Command.Arguments
import RiscvRom.Command.Directory
import RiscvRom.Log
import RiscvRom.Rom.Image

/-! What a run of the program does, from its arguments to its exit status.

A run is described by a session: it may ask for a file to be read, then for one to be written, and
ends in an outcome. The same session is carried out on any store of files: on a directory that is a
value, or on real files. Messages and log events share the error output, in the order in which they
arise; a verbosity decides which events are shown and nothing else. -/

namespace RiscvRom

/-- A line of the error output: always written, or only where the verbosity shows the event. -/
inductive Notice where
  | line (t : Text)
  | event (e : Log.Event)
  deriving DecidableEq

structure Outcome where
  status : Nat
  output : Text
  notices : List Notice
  deriving DecidableEq

namespace Outcome

/-- The run ends with the given lines on the error output and nothing on the other. -/
def failure (notices : List Notice) : Outcome := ⟨1, [], notices⟩

def noticeText (format : Log.Format) (v : Log.Verbosity) : Notice → Text
  | .line t => t ++ ['\n']
  | .event e => if v.shows e.level then format e ++ ['\n'] else []

/-- The error output, with a logger that prints in the given format. -/
def errorOutputIn (format : Log.Format) (v : Log.Verbosity) (o : Outcome) : Text :=
  o.notices.flatMap (noticeText format v)

def errorOutput (v : Log.Verbosity) (o : Outcome) : Text := o.errorOutputIn Log.Event.text v

end Outcome

inductive Session where
  | done (o : Outcome)
  | read (p : Path) (next : Except StoreError Bytes → Session)
  | write (p : Path) (content : Bytes) (next : Except StoreError Unit → Session)

/-- Files that can be read and written, in states of the given type. A write also gives the state
that it leads to, even if it fails. -/
structure Store (σ : Type) where
  read : σ → Path → Except StoreError Bytes
  write : σ → Path → Bytes → Except StoreError Unit × σ

def Directory.store : Store Directory where
  read := Directory.read
  write d p content :=
    match d.write p content with
    | .error e => (.error e, d)
    | .ok changed => (.ok (), changed)

/-- Carries a session out on a store. -/
def Session.runOn {σ : Type} (store : Store σ) : Session → σ → Outcome × σ
  | .done o, s => (o, s)
  | .read p next, s => (next (store.read s p)).runOn store s
  | .write p content next, s =>
    match store.write s p content with
    | (written, changed) => (next written).runOn store changed

theorem Session.runOn_write {σ : Type} (store : Store σ) (p : Path) (content : Bytes)
    (next : Except StoreError Unit → Session) (s : σ) :
    (Session.write p content next).runOn store s =
      (next (store.write s p content).1).runOn store (store.write s p content).2 := rfl

namespace Command

def usageLines : List Text :=
  ["Usage: rv32-rom <command> [options]",
   "",
   "Commands:",
   "  build <input> [options]  Assemble source into a ROM image",
   "  list  <input> [--abi]    Print address, word and disassembly per instruction",
   "",
   "Options (build):",
   "  -o, --output <file>      Output file path (default: <stem>_imem.v or .hex)",
   "      --module <name>      Verilog module name (default: <stem>_imem)",
   "      --depth <words>      ROM depth in words, power of two (default: 256)",
   "      --format <fmt>       verilog | hex (default: verilog)",
   "  -v, --verbose            Print listing to stderr",
   "  -h, --help               Show this help message",
   "",
   "Options (list):",
   "      --abi                Disassemble with ABI register names (a0, sp, ...)",
   "",
   "Logging is controlled with RUST_LOG (default: warn).",
   "",
   "Examples:",
   "  rv32-rom build fib.s",
   "  rv32-rom build fib.s --format hex --depth 1024 -o fib.hex",
   "  rv32-rom list fib.s"].map String.toList

def usage : Text := Text.unlines usageLines

/-- The usage is printed as a line of its own, and so has an empty line behind it. -/
def usageOutput : Text := usage ++ ['\n']

def error (message : Text) : Notice := .line ("error: ".toList ++ message)

/-- The stem of the input's name; a name that is no text, or none at all, has a stand-in. -/
def stemOf (input : Path) : Bytes :=
  (((Path.fileName? input).map Path.stem).filter fun stem => (Utf8.decode? stem).isSome).getD
    (Utf8.encode "out".toList)

/-- A file beside the input, named after its stem. -/
def outputFor (input : Path) (format : ImageFormat) : Path :=
  (Path.parent input).join (stemOf input ++ Utf8.encode ("_imem.".toList ++ format.extension))

def moduleNameFor (input : Path) : Text :=
  Identifier.ofText (Utf8.decodeLenient (stemOf input) ++ "_imem".toList)

/-- The outcome of reading and assembling a file, with the events on the way. -/
structure Loaded where
  events : List Log.Event
  result : Except Diagnostic (List Record)

def unreadable (input : Path) (detail : Text) : Loaded :=
  ⟨[], .error ⟨.unreadable ("failed to read ".toList ++ input.display ++ ": ".toList ++ detail),
    none⟩⟩

def load (input : Path) : Except StoreError Bytes → Loaded
  | .error e => unreadable input e.message
  | .ok content =>
    match Utf8.decode? content with
    | none => unreadable input "stream did not contain valid UTF-8".toList
    | some source =>
      let placement := Placement.ofLines (Source.lines source)
      ⟨Log.started input.display :: Log.assembly placement, Program.assemblePlaced placement⟩

def Loaded.notices (l : Loaded) : List Notice := l.events.map .event

namespace Build

def geometry (o : BuildOptions) : Rom.Geometry where
  moduleName := o.moduleName.getD (moduleNameFor o.input)
  depth := o.depth.getD Rom.standardDepth
  fill := nopWord

def image (o : BuildOptions) (records : List Record) : Except Rom.Refusal Text :=
  match o.format with
  | .verilog => Rom.verilog (geometry o) records
  | .hex => Rom.hex (geometry o) records

def outputPath (o : BuildOptions) : Path := o.output.getD (outputFor o.input o.format)

def summary (o : BuildOptions) (records : List Record) : Text :=
  "Assembled ".toList ++ o.input.display ++ " (".toList ++ Text.decimal records.length ++
    " instructions) -> ".toList ++ (outputPath o).display ++ ['\n']

def listing (o : BuildOptions) (records : List Record) : List Notice :=
  if o.verbose then records.map fun r => .line (Rom.assignment r) else []

def session (o : BuildOptions) : Session :=
  .read o.input fun content =>
    let loaded := load o.input content
    match loaded.result with
    | .error d => .done (.failure (loaded.notices ++ [.line d.report]))
    | .ok records =>
      match image o records with
      | .error e => .done (.failure (loaded.notices ++ [error e.message]))
      | .ok text =>
        .write (outputPath o) (Utf8.encode text) fun written =>
          match written with
          | .error e =>
            .done (.failure
              (loaded.notices ++ [error ("failed to write output: ".toList ++ e.message)]))
          | .ok () =>
            .done
              { status := 0
                output := summary o records
                notices := loaded.notices ++
                  .event (Log.written (geometry o).depth (outputPath o).display) ::
                  listing o records }

end Build

namespace Listing

def disassembly (naming : Register.Naming) (w : Word) : Text :=
  match Decoded.ofWord? w with
  | some d => d.text naming
  | none => "<unknown>".toList

def line (naming : Register.Naming) (r : Record) : Text :=
  Text.padLeft 4 (Text.decimal r.slot) ++ "  ".toList ++ Text.hexWord r.word ++ "  ".toList ++
    Text.padRight 28 (disassembly naming r.word) ++ " ; ".toList ++
    Text.padLeft 4 (Text.decimal r.line) ++ ": ".toList ++ r.source

def session (o : ListOptions) : Session :=
  .read o.input fun content =>
    let loaded := load o.input content
    match loaded.result with
    | .error d => .done (.failure (loaded.notices ++ [.line d.report]))
    | .ok records =>
      .done ⟨0, Text.unlines (records.map (line o.naming)), loaded.notices⟩

end Listing

def session (args : List Bytes) : Session :=
  match Arguments.request args with
  | .ok .help => .done ⟨0, usageOutput, []⟩
  | .ok (.build o) => Build.session o
  | .ok (.list o) => Listing.session o
  | .error .helpAfterCommand => .done ⟨1, usageOutput, []⟩
  | .error (.fault f) => .done (.failure [error f.message, .line usage])

/-- A whole run on a store. -/
def runOn {σ : Type} (store : Store σ) (args : List Bytes) (s : σ) : Outcome × σ :=
  (session args).runOn store s

def run (args : List Bytes) (d : Directory) : Outcome × Directory := runOn Directory.store args d

end Command
end RiscvRom
