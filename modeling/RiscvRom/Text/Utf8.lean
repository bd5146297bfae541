import RiscvRom.Text.Basic

/-! Bytes and the text they encode in UTF-8.

Reading goes over the bytes once and yields units: a character for each well-formed sequence, and
an ill-formed unit for each longest stretch that starts a sequence but cannot be continued to one.
Strict reading refuses a text with an ill-formed unit; lenient reading shows each of them as
U+FFFD. -/

namespace RiscvRom

abbrev Bytes := List UInt8

namespace Utf8

/-- A sequence whose first bytes have been read: how many more it needs, the bits so far, and the
range in which the next byte has to lie. -/
structure Pending where
  missing : Nat
  bits : Nat
  low : Nat
  high : Nat

/-- What a byte at the start of a sequence gives: a whole character, a sequence to be continued, or
nothing that UTF-8 knows. The ranges for the second byte keep out overlong forms, surrogates and
values beyond the last code point. -/
inductive Start where
  | char (c : Char)
  | more (p : Pending)
  | ill

def start (b : Nat) : Start :=
  if b < 0x80 then .char (Char.ofNat b)
  else if b < 0xC2 then .ill
  else if b < 0xE0 then .more ⟨1, b - 0xC0, 0x80, 0xBF⟩
  else if b = 0xE0 then .more ⟨2, 0, 0xA0, 0xBF⟩
  else if b = 0xED then .more ⟨2, 0xD, 0x80, 0x9F⟩
  else if b < 0xF0 then .more ⟨2, b - 0xE0, 0x80, 0xBF⟩
  else if b = 0xF0 then .more ⟨3, 0, 0x90, 0xBF⟩
  else if b < 0xF4 then .more ⟨3, b - 0xF0, 0x80, 0xBF⟩
  else if b = 0xF4 then .more ⟨3, 4, 0x80, 0x8F⟩
  else .ill

/-- The units found so far, the latest first, and the sequence that is still open. -/
structure Scan where
  units : List (Option Char)
  pending : Option Pending

namespace Scan

def begin (s : Scan) (b : Nat) : Scan :=
  match start b with
  | .char c => ⟨some c :: s.units, none⟩
  | .more p => ⟨s.units, some p⟩
  | .ill => ⟨none :: s.units, none⟩

/-- One more byte: it continues the open sequence, or ends it as ill-formed and starts anew. -/
def step (s : Scan) (b : Nat) : Scan :=
  match s.pending with
  | none => s.begin b
  | some p =>
    if p.low ≤ b ∧ b ≤ p.high then
      let bits := 64 * p.bits + (b - 0x80)
      if p.missing ≤ 1 then ⟨some (Char.ofNat bits) :: s.units, none⟩
      else ⟨s.units, some ⟨p.missing - 1, bits, 0x80, 0xBF⟩⟩
    else begin ⟨none :: s.units, none⟩ b

/-- A sequence left open at the end is ill-formed. -/
def finish (s : Scan) : List (Option Char) :=
  match s.pending with
  | none => s.units.reverse
  | some _ => (none :: s.units).reverse

end Scan

def units (bs : Bytes) : List (Option Char) :=
  (bs.foldl (fun (s : Scan) b => s.step b.toNat) ⟨[], none⟩).finish

/-- The text, if every unit is well formed. -/
def decode? (bs : Bytes) : Option Text := (units bs).mapM id

/-- The text with U+FFFD for each ill-formed unit. -/
def decodeLenient (bs : Bytes) : Text := (units bs).map (·.getD (Char.ofNat 0xFFFD))

def encode (t : Text) : Bytes := t.flatMap String.utf8EncodeChar

end Utf8
end RiscvRom
