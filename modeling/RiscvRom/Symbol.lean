import RiscvRom.Text.Order

/-! Labels and the addresses they stand for. A table has one symbol for each name; defining a name
again replaces the earlier symbol. -/

namespace RiscvRom

/-- A label, its byte address, and the number of the line that defines it. -/
structure Symbol where
  name : Text
  address : Nat
  line : Nat
  deriving DecidableEq

abbrev SymbolTable := List Symbol

namespace SymbolTable

def find? (table : SymbolTable) (name : Text) : Option Symbol :=
  List.find? (·.name == name) table

def define (table : SymbolTable) (s : Symbol) : SymbolTable :=
  s :: List.filter (·.name != s.name) table

/-- Every definition in turn, so that the last one of a name stays. -/
def ofDefinitions (definitions : List Symbol) : SymbolTable := definitions.foldl define []

/-- The symbols by name, in the order of code points. -/
def sorted (table : SymbolTable) : List Symbol :=
  table.mergeSort fun a b => lexLe Char.toNat a.name b.name

theorem find?_define_self (table : SymbolTable) (s : Symbol) :
    (define table s).find? s.name = some s := by
  simp [define, find?]

theorem find?_define_of_ne (table : SymbolTable) (s : Symbol) {name : Text} (h : name ≠ s.name) :
    (define table s).find? name = table.find? name := by
  unfold define find?
  rw [List.find?_cons_of_neg (by simpa using fun e => h e.symm)]
  induction table with
  | nil => rfl
  | cons a table ih =>
    by_cases ha : a.name = s.name
    · have hn : (a.name == name) = false := by simpa [ha] using fun e => h e.symm
      simp [ha, ih]
      simp [hn]
    · by_cases hn : a.name = name <;> simp_all

end SymbolTable
end RiscvRom
