import RiscvRom.Text.Numeral

/-! The thirty-two integer registers and their names.

A register has a numeric name and one or two names of the calling convention; all of them are
accepted wherever a register is read, in exactly this spelling. Register 8 is both `s0` and `fp`.
-/

namespace RiscvRom

structure Register where
  index : BitVec 5
  deriving DecidableEq

namespace Register

/-- How registers are spelled in a listing. -/
inductive Naming where
  | numeric
  | abi
  deriving DecidableEq

/-- Why a name or a number denotes no register. -/
inductive Unresolved where
  | unknown (name : Text)
  | outOfRange (index : Nat)
  deriving DecidableEq

def Unresolved.message : Unresolved → Text
  | .unknown name => "unknown register: ".toList ++ name
  | .outOfRange index => "register index out of range: ".toList ++ Text.decimal index

def count : Nat := 32

/-- The register that always reads as zero. -/
def zero : Register := ⟨0⟩

def all : List Register := (List.range count).map fun i => ⟨BitVec.ofNat 5 i⟩

def ofIndex? (i : Nat) : Option Register :=
  if i < count then some ⟨BitVec.ofNat 5 i⟩ else none

def ofIndex (i : Nat) : Except Unresolved Register :=
  match ofIndex? i with
  | some r => .ok r
  | none => .error (.outOfRange i)

/-- The low five bits of a word. -/
def ofField (w : BitVec 32) : Register := ⟨w.setWidth 5⟩

/-- Names of the calling convention by index, the preferred one first. -/
def conventionNames : List (List Text) :=
  [["zero".toList], ["ra".toList], ["sp".toList], ["gp".toList], ["tp".toList], ["t0".toList],
   ["t1".toList], ["t2".toList], ["s0".toList, "fp".toList], ["s1".toList], ["a0".toList],
   ["a1".toList], ["a2".toList], ["a3".toList], ["a4".toList], ["a5".toList], ["a6".toList],
   ["a7".toList], ["s2".toList], ["s3".toList], ["s4".toList], ["s5".toList], ["s6".toList],
   ["s7".toList], ["s8".toList], ["s9".toList], ["s10".toList], ["s11".toList], ["t3".toList],
   ["t4".toList], ["t5".toList], ["t6".toList]]

def abiNames (r : Register) : List Text := conventionNames.getD r.index.toNat []

def abiName (r : Register) : Text := r.abiNames.headD []

def numericName (r : Register) : Text := 'x' :: Text.decimal r.index.toNat

def name : Naming → Register → Text
  | .numeric, r => r.numericName
  | .abi, r => r.abiName

/-- Every accepted spelling with its register, by index, the numeric name first. -/
def spellings : List (Text × Register) :=
  all.flatMap fun r => (r.numericName :: r.abiNames).map fun n => (n, r)

def ofName (n : Text) : Except Unresolved Register :=
  match spellings.find? (·.1 == n) with
  | some (_, r) => .ok r
  | none => .error (.unknown n)

theorem index_lt (r : Register) : r.index.toNat < count := r.index.isLt

theorem ofIndex?_index (r : Register) : ofIndex? r.index.toNat = some r := by
  simp [ofIndex?, r.index_lt]

end Register
end RiscvRom
