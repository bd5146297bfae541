import RiscvRom.Diagnostic

/-! Reading one operand: a register, a number, or an address.

A number is an optional sign and then decimal digits, `0x` and hexadecimal digits, or `0b` and
binary digits. An address is a decimal offset, with a minus sign or none, and a base register in
parentheses. Values have to lie in the signed 64-bit range. -/

namespace RiscvRom

/-- An offset from the address in a base register. -/
structure Address where
  offset : Int
  base : Register
  deriving DecidableEq

namespace Operand

def isSigned64 (v : Int) : Bool := -0x8000000000000000 ≤ v && v < 0x8000000000000000

def register (token : Text) : Except Fault Register :=
  match Register.ofName token with
  | .ok r => .ok r
  | .error e => .error (.ofUnresolved e)

/-- Whether there is a minus sign, and the text after the sign. -/
def splitSign : Text → Bool × Text
  | '-' :: r => (true, r)
  | '+' :: r => (false, r)
  | t => (false, t)

/-- The base and the digits after its mark. -/
def splitBase : Text → Nat × Text
  | '0' :: 'x' :: r => (16, r)
  | '0' :: 'X' :: r => (16, r)
  | '0' :: 'b' :: r => (2, r)
  | '0' :: 'B' :: r => (2, r)
  | t => (10, t)

/-- The number with its sign, if it is in range. -/
def signed? (negative : Bool) (magnitude : Nat) : Option Int :=
  let v : Int := if negative then -magnitude else magnitude
  if isSigned64 v then some v else none

def immediate? (token : Text) : Option Int :=
  let (negative, unsigned) := splitSign token
  let (base, digits) := splitBase unsigned
  (Text.natural? base digits).bind (signed? negative)

def immediate (token : Text) : Except Fault Int :=
  match immediate? token with
  | some v => .ok v
  | none => .error (.invalidImmediate token)

/-- The texts before the first opening parenthesis and between it and a closing one at the end. -/
def splitAddress? (token : Text) : Option (Text × Text) :=
  if token.getLast? = some ')' then
    match token.dropLast.dropWhile (· != '(') with
    | [] => none
    | _ :: base => some (token.dropLast.takeWhile (· != '('), base)
  else none

def offset? : Text → Option Int
  | '-' :: digits => (Text.natural? 10 digits).bind (signed? true)
  | digits => (Text.natural? 10 digits).bind (signed? false)

def isBaseText (base : Text) : Bool := base ≠ [] && !base.contains '(' && !base.contains ')'

def address (token : Text) : Except Fault Address :=
  match splitAddress? token with
  | none => .error (.invalidAddress token)
  | some (offsetText, base) =>
    match offset? offsetText, isBaseText base with
    | some offset, true => (register base).map fun r => ⟨offset, r⟩
    | _, _ => .error (.invalidAddress token)

end Operand
end RiscvRom
