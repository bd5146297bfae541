import RiscvRom.Program

/-! The log of an assembly.

An event has a level, the part of the program it comes from, and a message. A verbosity shows the
events of its own level and of all more severe ones. How an event is printed is up to the logger,
and the program has no part in it. -/

namespace RiscvRom.Log

inductive Level where
  | error | warn | info | debug | trace
  deriving DecidableEq

namespace Level

def all : List Level := [.error, .warn, .info, .debug, .trace]

/-- Lower ranks are more severe. -/
def rank : Level → Nat
  | .error => 1
  | .warn => 2
  | .info => 3
  | .debug => 4
  | .trace => 5

def name : Level → Text
  | .error => "error".toList
  | .warn => "warn".toList
  | .info => "info".toList
  | .debug => "debug".toList
  | .trace => "trace".toList

end Level

/-- The least severe level to be shown; `none` shows nothing. -/
abbrev Verbosity := Option Level

namespace Verbosity

def standard : Verbosity := some .warn

def shows (v : Verbosity) (l : Level) : Bool := v.any fun least => l.rank ≤ least.rank

/-- A level by its name, in either case; any other word shows nothing. -/
def ofName (t : Text) : Verbosity := Level.all.find? fun l => l.name == Text.lower t

end Verbosity

structure Event where
  level : Level
  origin : Text
  message : Text
  deriving DecidableEq

/-- How a logger prints an event. -/
abbrev Format := Event → Text

/-- Puts four blanks in front of every line but the first. -/
def indented (t : Text) : Text := t.flatMap fun c => if c = '\n' then "\n    ".toList else [c]

/-- The usual format: the level in a column of five, and the further lines of a message indented,
so that no line of it can pass for an event. -/
def Event.text (e : Event) : Text :=
  '[' :: Text.padRight 5 (e.level.name.map Char.toUpper) ++ ' ' :: e.origin ++ "] ".toList ++
    indented e.message

def symbolsOrigin : Text := "rv32_asm::symbols".toList
def assemblerOrigin : Text := "rv32_asm::assembler".toList
def commandOrigin : Text := "rv32_rom".toList

def address (n : Nat) : Text := "0x".toList ++ Text.hexWordCapital (BitVec.ofNat 32 n)

def started (path : Text) : Event := ⟨.debug, assemblerOrigin, "assembling ".toList ++ path⟩

def redefined (r : Redefinition) : Event :=
  ⟨.warn, symbolsOrigin,
   "line ".toList ++ Text.decimal r.line ++ ": label '".toList ++ r.label ++
     "' redefined (previously line ".toList ++ Text.decimal r.previous ++
     "), later definition wins".toList⟩

def placed (p : Placement) : Event :=
  ⟨.debug, symbolsOrigin,
   "pass 1: ".toList ++ Text.decimal p.instructions.length ++ " instruction(s), ".toList ++
     Text.decimal p.symbols.length ++ " label(s), end address ".toList ++ address p.endAddress⟩

def encoded (p : PlacedInstruction) (w : Word) : Event :=
  ⟨.trace, assemblerOrigin,
   address p.address ++ ": ".toList ++ Text.hexWordCapital w ++ ' ' :: p.instruction ++
     " (line ".toList ++ Text.decimal p.line ++ ")".toList⟩

def completed (records : List Record) : Event :=
  ⟨.debug, assemblerOrigin,
   "pass 2: encoded ".toList ++ Text.decimal records.length ++ " instruction(s)".toList⟩

def written (depth : Nat) (path : Text) : Event :=
  ⟨.info, commandOrigin,
   "wrote ".toList ++ Text.decimal depth ++ " word ROM to ".toList ++ path⟩

/-- One event for each instruction before the first one in error. -/
def encodings (symbols : SymbolTable) : List PlacedInstruction → List Event
  | [] => []
  | p :: ps =>
    match p.word symbols with
    | .ok w => encoded p w :: encodings symbols ps
    | .error _ => []

/-- Everything that is logged while a program is assembled, in order. -/
def assembly (p : Placement) : List Event :=
  p.redefinitions.map redefined ++ placed p :: encodings p.symbols p.instructions ++
    (match Program.assemblePlaced p with
     | .ok records => [completed records]
     | .error _ => [])

end RiscvRom.Log
