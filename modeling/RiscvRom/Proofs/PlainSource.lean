import Mathlib
import RiscvRom.Proofs.LineCode
import RiscvRom.Proofs.Parsing
import RiscvRom.Proofs.Position

/-! Sources in which every line is an instruction and nothing else.

A text is plain if it has no blanks around it and no character in it ends a line, a label or the
code before a comment. Plain texts that are put on lines of their own come back as the instructions
of the program, one for each, and no line defines a label. -/

namespace RiscvRom

namespace Text

/-! ## Lines that are put together -/

theorem lines_intercalate {ls : List Text}
    (h : ∀ l ∈ ls, l ≠ [] ∧ '\n' ∉ l ∧ l.getLast? ≠ some '\r') :
    lines (['\n'].intercalate ls) = ls := by
  rcases ls.eq_nil_or_concat with rfl | ⟨before, l, rfl⟩
  · rfl
  · rw [List.concat_eq_append] at h ⊢
    have hsplit := splitWhere_intercalate (by simp) fun l hl => (h l hl).2.1
    have hreturn : before.map dropReturn = before := by
      refine (List.map_congr_left fun x hx => ?_).trans (List.map_id before)
      exact if_neg (h x (List.mem_append_left [l] hx)).2.2
    have hl := (h l (by simp)).1
    simp [lines, hsplit, hreturn, hl]

end Text

namespace Source

/-- Whether a character may end a line, a label, or the code on a line. -/
def isMark (c : Char) : Bool := ['\n', ':', '#', '/'].contains c

/-- A text that is an instruction as it stands. -/
structure IsPlain (t : Text) : Prop where
  ne_nil : t ≠ []
  unmarked : ∀ c ∈ t, isMark c = false
  first : ∀ c ∈ t.head?, Text.isBlank c = false
  last : ∀ c ∈ t.getLast?, Text.isBlank c = false

theorem IsPlain.join {a b : Text} (ha : IsPlain a) (hb : IsPlain b) {separator : Text}
    (hs : separator.any isMark = false) : IsPlain (a ++ separator ++ b) where
  ne_nil := by simp [ha.ne_nil]
  unmarked := by
    intro c hc
    rcases List.mem_append.1 hc with hc | hc
    · rcases List.mem_append.1 hc with hc | hc
      · exact ha.unmarked c hc
      · exact Bool.eq_false_iff.2 (List.any_eq_false.1 hs c hc)
    · exact hb.unmarked c hc
  first := by
    rw [List.append_assoc, List.head?_append_of_ne_nil _ ha.ne_nil]
    exact ha.first
  last := by
    rw [List.getLast?_append_of_ne_nil _ hb.ne_nil]
    exact hb.last

/-! ## One line -/

theorem withoutComment_of_unmarked {t : Text} (h : ∀ c ∈ t, isMark c = false) :
    withoutComment t = t := by
  refine withoutComment_of_notMem ?_ ?_
  · intro hslash
    exact absurd (h '/' hslash) (by decide)
  · intro hhash
    exact absurd (h '#' hhash) (by decide)

theorem splitAtColon_of_unmarked {t : Text} (h : ∀ c ∈ t, isMark c = false) :
    splitAtColon t = (none, t) := by
  refine splitAtColon_of_notMem ?_
  intro hcolon
  exact absurd (h ':' hcolon) (by decide)

theorem statement?_of_isPlain {t : Text} (h : IsPlain t) : statement? t = some ⟨none, some t⟩ := by
  have htrim := Text.trim_of_ends h.first h.last
  rw [statement?, code, htrim, withoutComment_of_unmarked h.unmarked, htrim]
  simp [Text.nonEmpty?, h.ne_nil, splitAtColon_of_unmarked h.unmarked]

/-! ## A source of plain lines -/

section
variable {ts : List Text} (h : ∀ t ∈ ts, IsPlain t)
include h

theorem textLines_of_isPlain : Text.lines (['\n'].intercalate ts) = ts := by
  refine Text.lines_intercalate fun t ht => ⟨(h t ht).ne_nil, ?_, ?_⟩
  · intro hn
    exact absurd ((h t ht).unmarked '\n' hn) (by decide)
  · intro hr
    exact absurd ((h t ht).last '\r' hr) (by decide)

theorem statement?_of_mem_lines :
    ∀ l ∈ lines (['\n'].intercalate ts), l.statement? = some ⟨none, some l.text⟩ := by
  rw [lines, textLines_of_isPlain h]
  intro l hl
  obtain ⟨⟨t, i⟩, hmem, rfl⟩ := List.mem_map.1 hl
  exact statement?_of_isPlain (h t (List.fst_mem_of_mem_zipIdx hmem))

/-- No name is that of a label. -/
theorem find?_symbols_of_isPlain (name : Text) :
    (Placement.ofLines (lines (['\n'].intercalate ts))).symbols.find? name = none := by
  refine Placement.find?_symbols_none fun l hl => ?_
  simp [Line.label?, statement?_of_mem_lines h l hl]

/-- Each of the texts is the instruction of the line with its number. -/
theorem instructionLines_of_isPlain :
    instructionLines (lines (['\n'].intercalate ts)) =
      ts.mapIdx fun k t => (⟨t, k + 1⟩, t) := by
  have hcode : ∀ l ∈ lines (['\n'].intercalate ts),
      (l.instruction?.map fun t => (l, t)) = some (l, l.text) := by
    intro l hl
    simp [Line.instruction?, statement?_of_mem_lines h l hl]
  rw [instructionLines, List.filterMap_eq_map_iff_forall_eq_some.2 hcode, lines,
    textLines_of_isPlain h, List.mapIdx_eq_zipIdx_map, List.map_map]
  rfl

end

end Source
end RiscvRom
