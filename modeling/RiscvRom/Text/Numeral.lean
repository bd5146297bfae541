import RiscvRom.Text.Basic

/-! Writing and reading numbers.

Numbers are written in decimal with a minus sign where they are negative, or in hexadecimal with
lower case digits. Columns are filled with blanks on either side; a machine word is always written
with eight hexadecimal digits, high half first. A digit string is read in any base up to sixteen,
with digits of either case. -/

namespace RiscvRom.Text

def decimal (n : Nat) : Text := Nat.toDigits 10 n

def signedDecimal : Int → Text
  | .ofNat n => decimal n
  | .negSucc n => '-' :: decimal (n + 1)

def hexadecimal (n : Nat) : Text := Nat.toDigits 16 n

/-- Eight digits, the most significant first. -/
def hexWord (w : BitVec 32) : Text :=
  [7, 6, 5, 4, 3, 2, 1, 0].map fun k => Nat.digitChar (w.toNat >>> (4 * k) % 16)

/-- The same digits with capital letters. -/
def hexWordCapital (w : BitVec 32) : Text := (hexWord w).map Char.toUpper

/-- Blanks on the left up to the width; a longer text stays as it is. -/
def padLeft (width : Nat) (t : Text) : Text := List.replicate (width - t.length) ' ' ++ t

/-- Blanks on the right up to the width; a longer text stays as it is. -/
def padRight (width : Nat) (t : Text) : Text := t ++ List.replicate (width - t.length) ' '

def digitValue? (c : Char) : Option Nat :=
  if '0' ≤ c ∧ c ≤ '9' then some (c.toNat - '0'.toNat)
  else if 'a' ≤ c ∧ c ≤ 'f' then some (c.toNat - 'a'.toNat + 10)
  else if 'A' ≤ c ∧ c ≤ 'F' then some (c.toNat - 'A'.toNat + 10)
  else none

def isDigitOf (base : Nat) (c : Char) : Bool := (digitValue? c).any (· < base)

/-- The number that a digit string denotes, the most significant digit first. -/
def digitsValue (base : Nat) (ds : Text) : Nat :=
  ds.foldl (fun n c => base * n + (digitValue? c).getD 0) 0

/-- Reads a non-empty text that consists of digits of the base. -/
def natural? (base : Nat) (ds : Text) : Option Nat :=
  if ds ≠ [] ∧ ds.all (isDigitOf base) then some (digitsValue base ds) else none

theorem length_hexWord (w : BitVec 32) : (hexWord w).length = 8 := rfl

theorem digitsValue_append (base : Nat) (ds : Text) (c : Char) :
    digitsValue base (ds ++ [c]) = base * digitsValue base ds + (digitValue? c).getD 0 := by
  simp [digitsValue]

end RiscvRom.Text
