import RiscvRom.Command.Path
import RiscvRom.Register

/-! Command line arguments.

The first argument names the command; options and the one input path follow in any order, and of a
repeated option the last value counts. An option's value is whatever argument comes next, even one
that looks like an option. Values are read as text, while the input path keeps its bytes. Asking for
help after a command name is answered with the usage, but the run counts as failed. -/

namespace RiscvRom

inductive ImageFormat where
  | verilog
  | hex
  deriving DecidableEq

namespace ImageFormat

def extension : ImageFormat → Text
  | .verilog => "v".toList
  | .hex => "hex".toList

/-- Names are read in either case. -/
def ofName? (t : Text) : Option ImageFormat :=
  if Text.lower t = "verilog".toList ∨ Text.lower t = "v".toList then some .verilog
  else if Text.lower t = "hex".toList then some .hex
  else none

end ImageFormat

inductive ArgumentFault where
  | missingCommand
  | unknownCommand (name : Text)
  | missingValue (option : Text)
  | invalidDepth (value : Text)
  | unknownFormat (value : Text)
  | unknownOption (option : Text)
  | multipleInputs
  | missingInput
  deriving DecidableEq

def ArgumentFault.message : ArgumentFault → Text
  | .missingCommand => "missing command".toList
  | .unknownCommand name => "unknown command: ".toList ++ name
  | .missingValue option => "missing value for ".toList ++ option
  | .invalidDepth value => "invalid depth: ".toList ++ value
  | .unknownFormat value =>
    "unknown format: ".toList ++ Text.lower value ++ " (expected verilog or hex)".toList
  | .unknownOption option => "unknown option: ".toList ++ option
  | .multipleInputs => "multiple input paths provided".toList
  | .missingInput => "missing input path".toList

/-- Why the arguments give no request. -/
inductive Rejection where
  | helpAfterCommand
  | fault (f : ArgumentFault)
  deriving DecidableEq

/-- Options of a build apart from its input. -/
structure BuildSettings where
  output : Option Path := none
  moduleName : Option Text := none
  depth : Option Nat := none
  format : ImageFormat := .verilog
  verbose : Bool := false
  deriving DecidableEq

structure BuildOptions extends BuildSettings where
  input : Path
  deriving DecidableEq

structure ListOptions where
  input : Path
  naming : Register.Naming := .numeric
  deriving DecidableEq

inductive Request where
  | help
  | build (options : BuildOptions)
  | list (options : ListOptions)
  deriving DecidableEq

namespace Arguments

def isHelp (t : Text) : Bool := t == "--help".toList || t == "-h".toList

def isVerbose (t : Text) : Bool := t == "--verbose".toList || t == "-v".toList

/-- Options that are followed by a value. -/
inductive Valued where
  | output | moduleName | depth | format
  deriving DecidableEq

namespace Valued

def ofText? (t : Text) : Option Valued :=
  if t = "-o".toList ∨ t = "--output".toList then some .output
  else if t = "--module".toList then some .moduleName
  else if t = "--depth".toList then some .depth
  else if t = "--format".toList then some .format
  else none

/-- The spelling used in messages. -/
def flag : Valued → Text
  | .output => "-o".toList
  | .moduleName => "--module".toList
  | .depth => "--depth".toList
  | .format => "--format".toList

end Valued

/-- A depth is decimal, with a plus sign or none, and below 2^64. -/
def depth? (t : Text) : Option Nat :=
  let digits := match t with
    | '+' :: r => r
    | t => t
  (Text.natural? 10 digits).filter (· < 0x10000000000000000)

/-- What has been read of the options of a command so far. -/
structure Draft (α : Type) where
  input : Option Path
  options : α
  deriving DecidableEq

def setValue (s : BuildSettings) (option : Valued) (value : Text) :
    Except ArgumentFault BuildSettings :=
  match option with
  | .output => .ok { s with output := some (Utf8.encode value) }
  | .moduleName => .ok { s with moduleName := some value }
  | .depth =>
    match depth? value with
    | some n => .ok { s with depth := some n }
    | none => .error (.invalidDepth value)
  | .format =>
    match ImageFormat.ofName? value with
    | some f => .ok { s with format := f }
    | none => .error (.unknownFormat value)

/-- Takes an argument that is no known option: an unknown option, or the input path. -/
def takeInput {α : Type} (d : Draft α) (arg : Bytes) : Except ArgumentFault (Draft α) :=
  let t := Utf8.decodeLenient arg
  if t.head? = some '-' then .error (.unknownOption t)
  else if d.input.isSome then .error .multipleInputs
  else .ok { d with input := some arg }

def readBuild (d : Draft BuildSettings) : List Bytes → Except Rejection (Draft BuildSettings)
  | [] => .ok d
  | arg :: rest =>
    let t := Utf8.decodeLenient arg
    if isHelp t then .error .helpAfterCommand
    else if isVerbose t then readBuild { d with options.verbose := true } rest
    else
      match Valued.ofText? t with
      | some option =>
        match rest with
        | [] => .error (.fault (.missingValue option.flag))
        | value :: rest =>
          match setValue d.options option (Utf8.decodeLenient value) with
          | .ok options => readBuild { d with options } rest
          | .error f => .error (.fault f)
      | none =>
        match takeInput d arg with
        | .ok d => readBuild d rest
        | .error f => .error (.fault f)

def readList (d : Draft Register.Naming) : List Bytes → Except Rejection (Draft Register.Naming)
  | [] => .ok d
  | arg :: rest =>
    let t := Utf8.decodeLenient arg
    if isHelp t then .error .helpAfterCommand
    else if t = "--abi".toList then readList { d with options := .abi } rest
    else
      match takeInput d arg with
      | .ok d => readList d rest
      | .error f => .error (.fault f)

def build (args : List Bytes) : Except Rejection BuildOptions :=
  match readBuild ⟨none, {}⟩ args with
  | .error e => .error e
  | .ok ⟨none, _⟩ => .error (.fault .missingInput)
  | .ok ⟨some input, s⟩ => .ok ⟨s, input⟩

def list (args : List Bytes) : Except Rejection ListOptions :=
  match readList ⟨none, .numeric⟩ args with
  | .error e => .error e
  | .ok ⟨none, _⟩ => .error (.fault .missingInput)
  | .ok ⟨some input, naming⟩ => .ok ⟨input, naming⟩

def request : List Bytes → Except Rejection Request
  | [] => .error (.fault .missingCommand)
  | first :: rest =>
    let t := Utf8.decodeLenient first
    if isHelp t then .ok .help
    else if t = "build".toList then (build rest).map .build
    else if t = "list".toList then (list rest).map .list
    else .error (.fault (.unknownCommand t))

end Arguments
end RiscvRom
