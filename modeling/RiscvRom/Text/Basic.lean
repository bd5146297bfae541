/-! Text as lists of characters, and the ASCII case map.

Everything the assembler reads and writes is a `Text`; it becomes a `String` only where it leaves
the program. Case and digit classes of `Char` know ASCII only, and so does every rule here. -/

namespace RiscvRom

abbrev Text := List Char

namespace Text

/-- Only the ASCII capitals change. -/
def lower (t : Text) : Text := t.map Char.toLower

/-- An empty text counts as an absent one. -/
def nonEmpty? (t : Text) : Option Text := if t = [] then none else some t

theorem nonEmpty?_eq_some {t u : Text} : nonEmpty? t = some u ↔ t = u ∧ u ≠ [] := by
  unfold nonEmpty?
  split <;> grind

end Text
end RiscvRom
