import RiscvRom.Register

/-! What can be wrong with a source program, and how it is reported.

A fault says what is wrong; a diagnostic adds the line it was found on, if there is one. The
wording of every fault is in `Fault.message`. -/

namespace RiscvRom

inductive Fault where
  | unknownRegister (name : Text)
  | invalidImmediate (token : Text)
  | invalidAddress (token : Text)
  | unknownInstruction (name : Text)
  | operandCount (mnemonic : Text) (expected found : Nat)
  | unreadable (detail : Text)
  deriving DecidableEq

namespace Fault

def message : Fault → Text
  | .unknownRegister name => "unknown register: ".toList ++ name
  | .invalidImmediate token => "invalid immediate: ".toList ++ token
  | .invalidAddress token => "invalid memory operand: ".toList ++ token
  | .unknownInstruction name => "unknown instruction: ".toList ++ name
  | .operandCount mnemonic expected found =>
    mnemonic ++ " expects ".toList ++ Text.decimal expected ++ " operand(s), found ".toList ++
      Text.decimal found
  | .unreadable detail => "I/O error: ".toList ++ detail

/-- A register number that is too large is reported as the numeric name it would have. -/
def ofUnresolved : Register.Unresolved → Fault
  | .unknown name => .unknownRegister name
  | .outOfRange index => .unknownRegister ('x' :: Text.decimal index)

end Fault

/-- A line of the source, as it is quoted in a report. -/
structure Place where
  number : Nat
  text : Text
  deriving DecidableEq

structure Diagnostic where
  fault : Fault
  place : Option Place := none
  deriving DecidableEq

namespace Diagnostic

/-- The same fault on the given line, whatever line it had before. -/
def onLine (d : Diagnostic) (number : Nat) (text : Text) : Diagnostic :=
  ⟨d.fault, some ⟨number, text⟩⟩

def message (d : Diagnostic) : Text :=
  match d.place with
  | none => d.fault.message
  | some p =>
    "line ".toList ++ Text.decimal p.number ++ ": ".toList ++ d.fault.message ++ " (in '".toList ++
      p.text ++ "')".toList

/-- The message as it is written to the error output. -/
def report (d : Diagnostic) : Text := "error: ".toList ++ d.message

end Diagnostic
end RiscvRom
