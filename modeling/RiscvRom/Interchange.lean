import RiscvRom.Instruction.Decoded

/-! Instructions as structured data, for exchange with other tools.

A decoded instruction becomes a record of its table row and its operand values. Registers are plain
indices, mnemonics and layouts are tags: a tag without content is its name, or a record of the name
with nothing in it, and a tag with content is a record of the name with that content. -/

namespace RiscvRom

/-- Structured data. Of a number that is not written as an integer nothing is kept, as no reader
here accepts one. -/
inductive Datum where
  | null
  | truth (b : Bool)
  | integer (n : Int)
  | fraction
  | text (t : Text)
  | list (items : List Datum)
  | record (fields : List (Text × Datum))
  deriving Inhabited

namespace Datum

def ofNat (n : Nat) : Datum := .integer n

def ofOption : Option Datum → Datum
  | none => .null
  | some d => d

/-- A natural number below a bound. -/
def natBelow? (bound : Nat) : Datum → Option Nat
  | .integer (.ofNat n) => if n < bound then some n else none
  | _ => none

/-- The name of a tag without content. -/
def tag? : Datum → Option Text
  | .text t => some t
  | .record [(t, .null)] => some t
  | _ => none

end Datum

def Register.toDatum (r : Register) : Datum := .ofNat r.index.toNat

/-- Accepts a byte that is the index of a register. -/
def Register.ofDatum? (d : Datum) : Option Register :=
  (d.natBelow? 256).bind Register.ofIndex?

def Mnemonic.toDatum (m : Mnemonic) : Datum := .text m.title

def Mnemonic.ofDatum? (d : Datum) : Option Mnemonic :=
  d.tag?.bind fun t => Mnemonic.all.find? (·.title == t)

namespace Layout

/-- The name of the layout, without the word of a fixed one. -/
def tag : Layout → Text
  | .r => ['R']
  | .i => ['I']
  | .s => ['S']
  | .b => ['B']
  | .u => ['U']
  | .j => ['J']
  | .fixed _ => "Fixed".toList

def toDatum : Layout → Datum
  | .fixed w => .record [("Fixed".toList, .ofNat w.toNat)]
  | layout => .text layout.tag

/-- The layouts without content. -/
def lettered : List Layout := [.r, .i, .s, .b, .u, .j]

def ofTag? (t : Text) : Option Layout := lettered.find? (·.tag == t)

def ofDatum? : Datum → Option Layout
  | .record [(t, d)] =>
    if t = "Fixed".toList then (d.natBelow? 0x100000000).map fun n => .fixed (BitVec.ofNat 32 n)
    else (Datum.tag? (.record [(t, d)])).bind ofTag?
  | d => d.tag?.bind ofTag?

end Layout

def Encoding.toDatum (e : Encoding) : Datum :=
  .record
    [("name".toList, .text e.mnemonic.name),
     ("mnemonic".toList, e.mnemonic.toDatum),
     ("format".toList, e.layout.toDatum),
     ("opcode".toList, .ofNat e.opcode.toNat),
     ("funct3".toList, .ofOption (e.funct3.map fun f => .ofNat f.toNat)),
     ("funct7".toList, .ofOption (e.funct7.map fun f => .ofNat f.toNat))]

def Decoded.toDatum (d : Decoded) : Datum :=
  .record
    [("descriptor".toList, d.encoding.toDatum),
     ("rd".toList, d.fields.rd.toDatum),
     ("rs1".toList, d.fields.rs1.toDatum),
     ("rs2".toList, d.fields.rs2.toDatum),
     ("imm".toList, .integer d.fields.imm.toInt)]

theorem Mnemonic.ofDatum?_toDatum (m : Mnemonic) : Mnemonic.ofDatum? m.toDatum = some m := by
  cases m <;> decide

theorem Register.ofDatum?_toDatum (r : Register) : Register.ofDatum? r.toDatum = some r := by
  have h : r.index.toNat < 256 := Nat.lt_of_lt_of_le r.index_lt (by decide)
  show (if r.index.toNat < 256 then some r.index.toNat else none).bind ofIndex? = some r
  rw [if_pos h]
  exact ofIndex?_index r

end RiscvRom
