import RiscvRom.Proofs.LineCode

/-! Statements in their plainest form.

The code of a line is the part before its first comment, and no white space stands around it and no
comment in it; so it is its own code. A label and an instruction that were found on a line are texts
of this kind too. Written on a line with a colon between them they are found again, and so every
statement has a line of its own that says nothing else. -/

namespace RiscvRom

namespace Text

/-! ## Texts without white space around them -/

/-- The text neither starts nor ends with white space. -/
def IsTrimmed (t : Text) : Prop :=
  (∀ c ∈ t.head?, isBlank c = false) ∧ ∀ c ∈ t.getLast?, isBlank c = false

theorem head?_trimStart (t : Text) : ∀ c ∈ (trimStart t).head?, isBlank c = false := by
  intro c hc
  have hhead := List.head?_dropWhile_not isBlank t
  rw [← trimStart, Option.mem_def.1 hc] at hhead
  simpa using hhead

theorem getLast?_trimEnd (t : Text) : ∀ c ∈ (trimEnd t).getLast?, isBlank c = false := by
  intro c hc
  rw [trimEnd, List.getLast?_reverse] at hc
  exact head?_trimStart t.reverse c hc

theorem trimEnd_isPrefix (t : Text) : trimEnd t <+: t := by
  have hsuffix := List.dropWhile_suffix isBlank (l := t.reverse)
  rwa [← List.reverse_prefix, List.reverse_reverse] at hsuffix

theorem isTrimmed_trim (t : Text) : IsTrimmed (trim t) := by
  refine ⟨fun c hc => ?_, getLast?_trimEnd (trimStart t)⟩
  -- the first character is still the first one before the end was trimmed
  obtain ⟨rest, hrest⟩ := trimEnd_isPrefix (trimStart t)
  refine head?_trimStart t c ?_
  rw [← hrest]
  exact List.mem_head?_append_of_mem_head? hc

theorem IsTrimmed.trim_eq {t : Text} (h : IsTrimmed t) : trim t = t := trim_of_ends h.1 h.2

theorem trim_isInfix (t : Text) : trim t <:+: t := by
  obtain ⟨a, b, -, -, ht⟩ := exists_trim t
  exact ⟨a, b, by rw [List.append_assoc, ← ht]⟩

theorem trim_trimStart (t : Text) : trim (trimStart t) = trim t := by
  have hblank : AllBlank (t.takeWhile isBlank) := fun c hc => List.mem_takeWhile_imp hc
  conv_rhs => rw [← List.takeWhile_append_dropWhile (p := isBlank) (l := t)]
  rw [trim_blank_append hblank, trimStart]

theorem trim_trimEnd (t : Text) : trim (trimEnd t) = trim t := by
  have hblank : AllBlank (t.reverse.takeWhile isBlank).reverse :=
    fun c hc => List.mem_takeWhile_imp (List.mem_reverse.1 hc)
  have ht : trimEnd t ++ (t.reverse.takeWhile isBlank).reverse = t := by
    rw [trimEnd, ← List.reverse_append, List.takeWhile_append_dropWhile, List.reverse_reverse]
  conv_rhs => rw [← ht]
  rw [trim_append_blank hblank]

/-- Trimming does not get past a character that is no white space. -/
theorem trim_append_cons {c : Char} (hc : isBlank c = false) (a r : Text) :
    trim (a ++ c :: r) = trimStart a ++ c :: trimEnd r := by
  have hstart : trimStart (a ++ c :: r) = trimStart a ++ c :: r := by
    rw [trimStart, trimStart, List.dropWhile_append, List.dropWhile_cons_of_neg (by simp [hc])]
    split
    · rename_i hempty
      rw [List.isEmpty_iff.1 hempty, List.nil_append]
    · rfl
  have hend : ∀ x : Text, trimEnd (x ++ c :: r) = x ++ trimEnd (c :: r) := by
    intro x
    have hne : ((c :: r).reverse.dropWhile isBlank).isEmpty = false := by
      rw [← Bool.not_eq_true, List.isEmpty_iff, List.dropWhile_eq_nil_iff]
      intro hall
      have hblank := hall c (by simp)
      rw [hc] at hblank
      cases hblank
    rw [trimEnd, List.reverse_append, List.dropWhile_append, hne, trimEnd]
    simp
  rw [trim, hstart, hend, trimEnd_cons hc]

end Text

namespace Source

open Text (IsTrimmed)

/-! ## Comments -/

/-- A comment starts at place `k` of the line. -/
def CommentAt (line : Text) (k : Nat) : Prop :=
  ['#'] <+: line.drop k ∨ ['/', '/'] <+: line.drop k

/-- No comment starts anywhere in the text. -/
def CommentFree (t : Text) : Prop := '#' ∉ t ∧ ¬['/', '/'] <:+: t

theorem commentMarks_iff {t : Text} :
    commentMarks.any (·.isPrefixOf t) = true ↔ CommentAt t 0 := by
  simp [commentMarks, CommentAt, or_comm]

theorem withoutComment_isPrefix (t : Text) : withoutComment t <+: t := by
  induction t with
  | nil => exact List.prefix_rfl
  | cons c r ih =>
    rw [withoutComment]
    split
    · exact List.nil_prefix
    · exact List.prefix_cons_inj c |>.2 ih

/-- The cut is at the first place where a comment starts, or at the end of the line. -/
theorem withoutComment_eq_take (line : Text) :
    ∃ k ≤ line.length, (∀ j < k, ¬CommentAt line j) ∧ (k < line.length → CommentAt line k) ∧
      withoutComment line = line.take k := by
  induction line with
  | nil => exact ⟨0, Nat.le_refl 0, by simp, by simp, rfl⟩
  | cons c r ih =>
    by_cases hc : commentMarks.any (·.isPrefixOf (c :: r)) = true
    · refine ⟨0, Nat.zero_le _, by simp, fun _ => commentMarks_iff.1 hc, ?_⟩
      rw [withoutComment, if_pos hc, List.take_zero]
    · obtain ⟨k, hk, hbefore, hcut, htake⟩ := ih
      refine ⟨k + 1, by simpa using hk, fun j hj => ?_, fun hlt => ?_, ?_⟩
      · cases j with
        | zero => exact fun h => hc (commentMarks_iff.2 h)
        | succ j => exact hbefore j (by omega)
      · exact hcut (by simpa using hlt)
      · rw [withoutComment, if_neg hc, htake, List.take_succ_cons]

theorem commentFree_withoutComment (t : Text) : CommentFree (withoutComment t) := by
  induction t with
  | nil => exact ⟨by simp [withoutComment], by simp [withoutComment]⟩
  | cons c r ih =>
    by_cases hc : commentMarks.any (·.isPrefixOf (c :: r)) = true
    · rw [withoutComment, if_pos hc]
      exact ⟨by simp, by simp⟩
    · rw [withoutComment, if_neg hc]
      rw [commentMarks_iff, CommentAt, List.drop_zero, not_or] at hc
      constructor
      · rw [List.mem_cons, not_or]
        refine ⟨fun h => hc.1 ?_, ih.1⟩
        rw [← h]
        exact (List.prefix_cons_inj _).2 List.nil_prefix
      · intro hwithin
        rcases List.infix_cons_iff.1 hwithin with hstarts | hwithin
        -- two slashes at the start would be at the start of the text before it was cut, too
        · exact hc.2 (hstarts.trans ((List.prefix_cons_inj c).2 (withoutComment_isPrefix r)))
        · exact ih.2 hwithin

theorem withoutComment_of_commentFree {t : Text} (h : CommentFree t) : withoutComment t = t := by
  obtain ⟨k, hk, -, hcut, htake⟩ := withoutComment_eq_take t
  rw [htake, List.take_eq_self_iff]
  by_contra hlt
  rcases hcut (by omega) with hmark | hmark
  · exact h.1 ((List.drop_subset k t) (hmark.subset (by simp)))
  · exact h.2 (hmark.isInfix.trans (List.drop_suffix k t).isInfix)

theorem CommentFree.of_isInfix {t u : Text} (h : CommentFree t) (hu : u <:+: t) : CommentFree u :=
  ⟨fun hmem => h.1 (hu.subset hmem), fun hwithin => h.2 (hwithin.trans hu)⟩

/-! ## The code of a line -/

theorem isTrimmed_code (line : Text) : IsTrimmed (code line) := Text.isTrimmed_trim _

theorem commentFree_code (line : Text) : CommentFree (code line) := by
  rw [code_eq]
  exact (commentFree_withoutComment line).of_isInfix (Text.trim_isInfix _)

theorem code_of_commentFree {t : Text} (h : CommentFree t) : code t = Text.trim t := by
  rw [code_eq, withoutComment_of_commentFree h]

theorem code_code (line : Text) : code (code line) = code line := by
  rw [code_of_commentFree (commentFree_code line), (isTrimmed_code line).trim_eq]

/-! ## Statements -/

theorem splitAtColon_append {a : Text} (ha : ':' ∉ a) (r : Text) :
    splitAtColon (a ++ ':' :: r) = (Text.nonEmpty? (Text.trim a), Text.trim r) := by
  have hfree : ∀ c ∈ a, (c != ':') = true := by
    intro c hc
    rw [bne_iff_ne]
    rintro rfl
    exact ha hc
  rw [splitAtColon, List.dropWhile_append_of_pos hfree, List.takeWhile_append_of_pos hfree]
  simp

theorem statement?_of_code {line : Text} (h : code line ≠ []) :
    statement? line =
      some ⟨(splitAtColon (code line)).1, Text.nonEmpty? (splitAtColon (code line)).2⟩ := by
  simp [statement?, Text.nonEmpty?, h]

end Source

namespace Statement

open Text (IsTrimmed)
open Source

/-- The parts of the statement are texts as they stand, and the label has no colon. -/
structure Canonical (s : Statement) : Prop where
  label : ∀ l ∈ s.label, l ≠ [] ∧ IsTrimmed l ∧ ':' ∉ l ∧ CommentFree l
  instruction : ∀ t ∈ s.instruction, t ≠ [] ∧ IsTrimmed t ∧ CommentFree t

/-- The statement on a line of its own; a part that is missing is empty. -/
def text (s : Statement) : Text := s.label.getD [] ++ ": ".toList ++ s.instruction.getD []

theorem mem_nonEmpty?_trim {t u : Text} (h : u ∈ Text.nonEmpty? (Text.trim t)) :
    u ≠ [] ∧ IsTrimmed u ∧ u <:+: t := by
  obtain ⟨rfl, hne⟩ := Text.nonEmpty?_eq_some.1 h
  exact ⟨hne, Text.isTrimmed_trim t, Text.trim_isInfix t⟩

theorem canonical_of_statement? {line : Text} {s : Statement} (h : statement? line = some s) :
    s.Canonical := by
  have hcode : code line ≠ [] := by
    intro hnil
    rw [statement?, hnil] at h
    cases h
  have hfree := commentFree_code line
  rw [statement?_of_code hcode] at h
  obtain rfl := Option.some.inj h
  by_cases hcolon : ':' ∈ code line
  · obtain ⟨a, r, hsplit, ha⟩ := List.eq_append_cons_of_mem hcolon
    rw [hsplit] at hfree ⊢
    rw [splitAtColon_append ha]
    constructor
    · intro l hl
      obtain ⟨hne, htrim, hwithin⟩ := mem_nonEmpty?_trim hl
      have hwithin' : l <:+: a ++ ':' :: r := hwithin.trans (List.prefix_append a _).isInfix
      exact ⟨hne, htrim, fun hmem => ha (hwithin.subset hmem), hfree.of_isInfix hwithin'⟩
    · intro t ht
      obtain ⟨hne, htrim, hwithin⟩ := mem_nonEmpty?_trim ht
      have hwithin' : t <:+: a ++ ':' :: r :=
        (hwithin.trans (List.suffix_cons ':' r).isInfix).trans (List.suffix_append a _).isInfix
      exact ⟨hne, htrim, hfree.of_isInfix hwithin'⟩
  · rw [splitAtColon_of_notMem hcolon]
    constructor
    · intro l hl
      cases hl
    · intro t ht
      obtain ⟨rfl, hne⟩ := Text.nonEmpty?_eq_some.1 ht
      exact ⟨hne, isTrimmed_code line, hfree⟩

/-! ## The text of a statement -/

/-- A part that is not empty comes out of its own text, and so does one that is missing. -/
theorem nonEmpty?_trim_getD {part : Option Text} (h : ∀ t ∈ part, t ≠ [] ∧ IsTrimmed t) :
    Text.nonEmpty? (Text.trim (part.getD [])) = part := by
  cases hp : part with
  | none => rfl
  | some t =>
    obtain ⟨hne, htrim⟩ := h t hp
    exact Text.nonEmpty?_eq_some.2 ⟨htrim.trim_eq, hne⟩

theorem withoutComment_getD {part : Option Text} (h : ∀ t ∈ part, CommentFree t) :
    withoutComment (part.getD []) = part.getD [] := by
  cases hp : part with
  | none => rfl
  | some t => exact withoutComment_of_commentFree (h t hp)

section
variable {s : Statement} (h : s.Canonical)
include h

theorem withoutComment_text : withoutComment s.text = s.text := by
  have hlabel := withoutComment_getD fun l hl => (h.label l hl).2.2.2
  have hinstruction := withoutComment_getD fun t ht => (h.instruction t ht).2.2
  -- the colon and the blank keep a slash before them from one behind them
  rw [text, List.append_assoc, withoutComment_append (by simp), hlabel, if_pos rfl,
    withoutComment_append (by simp), hinstruction]
  rfl

/-- A statement is what its own text states. -/
theorem statement?_text : statement? s.text = some s := by
  have hlabel := nonEmpty?_trim_getD fun l hl => ⟨(h.label l hl).1, (h.label l hl).2.1⟩
  have hinstruction :=
    nonEmpty?_trim_getD fun t ht => ⟨(h.instruction t ht).1, (h.instruction t ht).2.1⟩
  have hcolon : ':' ∉ Text.trimStart (s.label.getD []) := by
    intro hmem
    have hmem' := (Text.trimStart_sublist _).subset hmem
    cases hl : s.label with
    | none => simp [hl] at hmem'
    | some l => exact (h.label l hl).2.2.1 (by simpa [hl] using hmem')
  have htext : s.text = s.label.getD [] ++ ':' :: ([' '] ++ s.instruction.getD []) := by
    simp [text]
  have hcode : code s.text =
      Text.trimStart (s.label.getD []) ++ ':' :: Text.trimEnd ([' '] ++ s.instruction.getD []) := by
    rw [code_eq, withoutComment_text h, htext, Text.trim_append_cons (by decide)]
  have hblank : Text.AllBlank [' '] := by decide
  rw [statement?_of_code (by simp [hcode]), hcode, splitAtColon_append hcolon, Text.trim_trimStart,
    Text.trim_trimEnd, Text.trim_blank_append hblank, hlabel, hinstruction]

end

end Statement

namespace Source

/-- **Lines have a normal form.** The code of a line is the part before the place where the first
comment starts, without the white space around it; it has no comment in it and is its own code. A
label and an instruction that are found on a line are not empty, have no white space around them and
no comment in them, and the label has no colon; written on a line of their own they are found
again. -/
theorem code_and_statement_canonical :
    (∀ line : Text,
      (∃ k ≤ line.length, (∀ j < k, ¬CommentAt line j) ∧ (k < line.length → CommentAt line k) ∧
        code line = Text.trim (line.take k)) ∧
      Text.IsTrimmed (code line) ∧ CommentFree (code line) ∧ code (code line) = code line) ∧
    ∀ (line : Text) (s : Statement), statement? line = some s →
      s.Canonical ∧ statement? s.text = some s := by
  refine ⟨fun line => ⟨?_, isTrimmed_code line, commentFree_code line, code_code line⟩, ?_⟩
  · obtain ⟨k, hk, hbefore, hcut, htake⟩ := withoutComment_eq_take line
    exact ⟨k, hk, hbefore, hcut, by rw [code_eq, htake]⟩
  · intro line s h
    have hs := Statement.canonical_of_statement? h
    exact ⟨hs, Statement.statement?_text hs⟩

/-- A label that ends in a slash before an instruction that starts with one, a second colon, and one
comment inside another. -/
theorem code_and_statement_canonical_slashes :
    statement? " a/\t:\t/b : c # d // e".toList =
      some ⟨some "a/".toList, some "/b : c".toList⟩ ∧
    Statement.Canonical ⟨some "a/".toList, some "/b : c".toList⟩ ∧
    statement? "a/: /b : c".toList = some ⟨some "a/".toList, some "/b : c".toList⟩ := by
  have h : statement? " a/\t:\t/b : c # d // e".toList =
      some ⟨some "a/".toList, some "/b : c".toList⟩ := by decide
  exact ⟨h, code_and_statement_canonical.2 _ _ h⟩

end Source
end RiscvRom
