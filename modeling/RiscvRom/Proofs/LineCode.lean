import Mathlib
import RiscvRom.Source

/-! The code on a line.

White space at the ends of a text is trimmed away however much of it there is, and a comment ends
at the end of the line, whatever it holds. So the code of a line is the part before its comment with
the white space around it removed; the white space around the whole line plays no part in it. -/

namespace RiscvRom

namespace Text

/-- White space and nothing else. -/
def AllBlank (t : Text) : Prop := ∀ c ∈ t, isBlank c = true

instance (t : Text) : Decidable (AllBlank t) :=
  decidable_of_iff (t.all isBlank = true) List.all_eq_true

/-! ## Trimming -/

section
variable {b : Text} (hb : AllBlank b)
include hb

theorem trimStart_blank_append (t : Text) : trimStart (b ++ t) = trimStart t :=
  List.dropWhile_append_of_pos hb

theorem trimEnd_append_blank (t : Text) : trimEnd (t ++ b) = trimEnd t := by
  have hb' : ∀ c ∈ b.reverse, isBlank c = true := fun c hc => hb c (List.mem_reverse.1 hc)
  rw [trimEnd, List.reverse_append, List.dropWhile_append_of_pos hb', trimEnd]

theorem trim_blank_append (t : Text) : trim (b ++ t) = trim t := by
  rw [trim, trimStart_blank_append hb, trim]

theorem trim_append_blank (t : Text) : trim (t ++ b) = trim t := by
  have hstart : trimStart b = [] := by
    rw [trimStart, List.dropWhile_eq_nil_iff]
    exact hb
  rw [trim, trimStart, List.dropWhile_append]
  by_cases ht : (t.dropWhile isBlank).isEmpty = true
  · rw [if_pos ht]
    rw [trim, trimStart, List.isEmpty_iff.1 ht]
    exact congrArg trimEnd hstart
  · rw [if_neg ht, trimEnd_append_blank hb]
    rfl

end

theorem trimEnd_cons {c : Char} (hc : isBlank c = false) (r : Text) :
    trimEnd (c :: r) = c :: trimEnd r := by
  rw [trimEnd, trimEnd, List.reverse_cons, List.dropWhile_append]
  split
  · rename_i hr
    rw [List.isEmpty_iff.1 hr]
    simp [hc]
  · simp

theorem trim_cons {c : Char} (hc : isBlank c = false) (r : Text) :
    trim (c :: r) = c :: trimEnd r := by
  rw [trim, trimStart, List.dropWhile_cons_of_neg (by simp [hc]), trimEnd_cons hc]

/-- What is trimmed away is white space. -/
theorem exists_trim (t : Text) : ∃ a b, AllBlank a ∧ AllBlank b ∧ t = a ++ (trim t ++ b) := by
  refine ⟨t.takeWhile isBlank, ((trimStart t).reverse.takeWhile isBlank).reverse, ?_, ?_, ?_⟩
  · exact fun c hc => List.mem_takeWhile_imp hc
  · exact fun c hc => List.mem_takeWhile_imp (List.mem_reverse.1 hc)
  · have hend : trimStart t = trim t ++ ((trimStart t).reverse.takeWhile isBlank).reverse := by
      rw [trim, trimEnd, ← List.reverse_append, List.takeWhile_append_dropWhile,
        List.reverse_reverse]
    rw [← hend, trimStart, List.takeWhile_append_dropWhile]

theorem trim_of_ends {t : Text} (hfirst : ∀ c ∈ t.head?, isBlank c = false)
    (hlast : ∀ c ∈ t.getLast?, isBlank c = false) : trim t = t := by
  have hstart : trimStart t = t := by
    cases t with
    | nil => rfl
    | cons c r => simp [trimStart, hfirst c rfl]
  have hend : trimEnd t = t := by
    cases hr : t.reverse with
    | nil => simp [trimEnd, List.reverse_eq_nil_iff.1 hr]
    | cons c r =>
      have hc := hlast c (by rw [List.getLast?_eq_head?_reverse, hr]; rfl)
      rw [trimEnd, hr, List.dropWhile_cons_of_neg (by simp [hc]), ← hr, List.reverse_reverse]
  rw [trim, hstart, hend]

end Text

namespace Source

open Text (AllBlank)

/-! ## Comments -/

theorem startsComment_append {c : Char} {r b : Text}
    (h : r = [] → c = '/' → b.head? ≠ some '/') :
    commentMarks.any (·.isPrefixOf (c :: (r ++ b))) = commentMarks.any (·.isPrefixOf (c :: r)) := by
  cases r with
  | cons d r => simp [commentMarks, List.isPrefixOf]
  | nil =>
    cases b with
    | nil => rfl
    | cons d b =>
      by_cases hc : c = '/'
      · have hd : '/' ≠ d := fun e => h rfl hc (congrArg some e.symm)
        simp [commentMarks, List.isPrefixOf, hd]
      · simp [commentMarks, List.isPrefixOf, Ne.symm hc]

/-- A text that follows another is cut at its own first comment, unless the other text has one
already. The two must not make up a marker where they meet. -/
theorem withoutComment_append {l b : Text} (h : l.getLast? = some '/' → b.head? ≠ some '/') :
    withoutComment (l ++ b) =
      withoutComment l ++ if withoutComment l = l then withoutComment b else [] := by
  induction l with
  | nil => simp [withoutComment]
  | cons c r ih =>
    have htest := startsComment_append (c := c) (r := r) (b := b) (by
      rintro rfl rfl
      exact h rfl)
    have hrest := ih (by
      intro hr
      cases r with
      | nil => cases hr
      | cons d r => exact h (by rwa [List.getLast?_cons_cons]))
    rw [List.cons_append, withoutComment, htest, withoutComment]
    split
    · simp
    · rw [hrest]
      simp

theorem withoutComment_of_notMem {t : Text} (hslash : '/' ∉ t) (hhash : '#' ∉ t) :
    withoutComment t = t := by
  induction t with
  | nil => rfl
  | cons c r ih =>
    simp only [List.mem_cons, not_or] at hslash hhash
    have hmarks : commentMarks.any (·.isPrefixOf (c :: r)) = false := by
      simp [commentMarks, List.isPrefixOf, hslash.1, hhash.1]
    rw [withoutComment, hmarks, ih hslash.2 hhash.2]
    rfl

theorem withoutComment_of_allBlank {b : Text} (hb : AllBlank b) : withoutComment b = b := by
  refine withoutComment_of_notMem ?_ ?_
  · intro h
    exact absurd (hb '/' h) (by decide)
  · intro h
    exact absurd (hb '#' h) (by decide)

/-! ## White space around the code -/

section
variable {b : Text} (hb : AllBlank b) (t : Text)
include hb

theorem withoutComment_blank_append : withoutComment (b ++ t) = b ++ withoutComment t := by
  rw [withoutComment_append, withoutComment_of_allBlank hb, if_pos rfl]
  intro hlast
  exact absurd (hb '/' (List.mem_of_getLast? hlast)) (by decide)

theorem trim_withoutComment_append_blank :
    Text.trim (withoutComment (t ++ b)) = Text.trim (withoutComment t) := by
  rw [withoutComment_append]
  · split
    · rw [withoutComment_of_allBlank hb, Text.trim_append_blank hb]
    · rw [List.append_nil]
  · intro _ hhead
    exact absurd (hb '/' (List.mem_of_mem_head? hhead)) (by decide)

end

/-- The white space around a line need not be trimmed before its comment is cut off. -/
theorem code_eq (t : Text) : code t = Text.trim (withoutComment t) := by
  obtain ⟨a, b, ha, hb, ht⟩ := Text.exists_trim t
  rw [code]
  conv_rhs => rw [ht]
  rw [withoutComment_blank_append ha, Text.trim_blank_append ha,
    trim_withoutComment_append_blank hb]

/-! ## Lines without a label -/

theorem splitAtColon_of_notMem {t : Text} (h : ':' ∉ t) : splitAtColon t = (none, t) := by
  have hcolon : t.dropWhile (· != ':') = [] := by
    rw [List.dropWhile_eq_nil_iff]
    intro c hc
    rw [bne_iff_ne]
    rintro rfl
    exact h hc
  rw [splitAtColon, hcolon]

end Source
end RiscvRom
