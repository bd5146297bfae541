import RiscvRom.Text.Basic

/-! The order in which names are listed: by the first place where two lists differ, and a list
before its continuations. Texts are compared by code point, which is also the order of their
bytes. -/

namespace RiscvRom

/-- Whether `a` comes before `b` or is equal to it, elements being compared by their numbers. -/
def lexLe {α : Type} [BEq α] (number : α → Nat) (a b : List α) : Bool :=
  !b.lex a fun x y => number x < number y

end RiscvRom
