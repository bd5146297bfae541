import RiscvRom.Text.Split

/-! The lines of a text.

A line ends at a line feed, and one carriage return directly before that line feed belongs to the
line end. A last line without a line feed keeps its carriage return; nothing stands after a final
line feed. -/

namespace RiscvRom.Text

/-- Removes one carriage return at the end. -/
def dropReturn (t : Text) : Text := if t.getLast? = some '\r' then t.dropLast else t

def lines (t : Text) : List Text :=
  let parts := splitWhere (· == '\n') t
  parts.dropLast.map dropReturn ++ parts.getLast?.toList.filter (· ≠ [])

/-- Each text followed by a line feed. -/
def unlines (ls : List Text) : Text := ls.flatMap (· ++ ['\n'])

theorem dropReturn_sublist (t : Text) : (dropReturn t).Sublist t := by
  unfold dropReturn
  split
  · exact List.dropLast_sublist t
  · exact List.Sublist.refl t

/-- A line never holds a line feed. -/
theorem newline_not_mem_of_mem_lines (t : Text) : ∀ l ∈ lines t, '\n' ∉ l := by
  intro l hl hn
  have key := not_of_mem_splitWhere (fun c : Char => c == '\n') t
  simp only [lines, List.mem_append, List.mem_map, List.mem_filter, Option.mem_toList] at hl
  rcases hl with ⟨part, hp, rfl⟩ | ⟨hp, -⟩
  · have hpart := key part ((List.dropLast_sublist _).subset hp)
    have := hpart '\n' ((dropReturn_sublist part).subset hn)
    simp at this
  · have := key l (List.mem_of_getLast? hp) '\n' hn
    simp at this

end RiscvRom.Text
