import RiscvRom.Instruction.Decoded
import RiscvRom.Proofs.Numeral
import RiscvRom.Proofs.PlainSource

/-! How the parts of an instruction are spelled in a listing.

Mnemonics, registers, numbers and addresses are written with letters, digits, minus signs and
parentheses only. So a mnemonic and operands with commas and blanks between them are a plain text,
the tokens of which are these parts again. Each reader of operands takes the spelling of a value
for the value. -/

namespace RiscvRom

namespace Text

def isSpelling (c : Char) : Bool := c.isAlphanum || ['-', '(', ')'].contains c

/-- A part of an instruction as a listing writes it. -/
def IsSpelled (t : Text) : Prop := t ≠ [] ∧ ∀ c ∈ t, isSpelling c = true

instance (t : Text) : Decidable (IsSpelled t) :=
  decidable_of_iff ((!t.isEmpty && t.all isSpelling) = true) (by simp [IsSpelled])

/-! ## Characters -/

theorem toNat_of_isSpelling {c : Char} (h : isSpelling c = true) : c.toNat < 128 := by
  simp only [isSpelling, Char.isAlphanum, Char.isAlpha, Char.isUpper, Char.isLower, Char.isDigit,
    Bool.or_eq_true, Bool.and_eq_true, decide_eq_true_eq, UInt32.le_iff_toNat_le,
    List.contains_iff_mem] at h
  rcases h with ((⟨-, h⟩ | ⟨-, h⟩) | ⟨-, h⟩) | h
  · exact Nat.lt_of_le_of_lt h (by decide)
  · exact Nat.lt_of_le_of_lt h (by decide)
  · exact Nat.lt_of_le_of_lt h (by decide)
  · simp only [List.mem_cons, List.not_mem_nil, or_false] at h
    rcases h with rfl | rfl | rfl <;> decide

/-- Nothing that cuts a source apart is used in a spelling. -/
theorem not_cut_of_isSpelling {c : Char} (h : isSpelling c = true) :
    isBlank c = false ∧ Instruction.isSeparator c = false ∧ Source.isMark c = false := by
  have key : ∀ n : Fin 128, isSpelling (Char.ofNat n) = true →
      isBlank (Char.ofNat n) = false ∧ Instruction.isSeparator (Char.ofNat n) = false ∧
        Source.isMark (Char.ofNat n) = false := by decide +kernel
  have hc := key ⟨c.toNat, toNat_of_isSpelling h⟩
  rw [Char.ofNat_toNat] at hc
  exact hc h

theorem IsSpelled.isToken {t : Text} (h : IsSpelled t) : Instruction.IsToken t :=
  ⟨h.1, fun c hc => (not_cut_of_isSpelling (h.2 c hc)).2.1⟩

theorem IsSpelled.isPlain {t : Text} (h : IsSpelled t) : Source.IsPlain t where
  ne_nil := h.1
  unmarked := fun c hc => (not_cut_of_isSpelling (h.2 c hc)).2.2
  first := fun c hc => (not_cut_of_isSpelling (h.2 c (List.mem_of_mem_head? hc))).1
  last := fun c hc => (not_cut_of_isSpelling (h.2 c (List.mem_of_getLast? hc))).1

/-! ## Numbers -/

theorem isSpelling_of_isDigitOf {base : Nat} {c : Char} (h : isDigitOf base c = true) :
    isSpelling c = true := by
  have halnum : c.isAlphanum = true := by
    unfold isDigitOf digitValue? at h
    simp only [Char.isAlphanum, Char.isAlpha, Char.isUpper, Char.isLower, Char.isDigit,
      Bool.or_eq_true, Bool.and_eq_true, decide_eq_true_eq]
    split at h
    · exact Or.inr ‹_›
    · split at h
      · rename_i hc
        exact Or.inl (Or.inr ⟨hc.1, UInt32.le_trans hc.2 (by decide)⟩)
      · split at h
        · rename_i hc
          exact Or.inl (Or.inl ⟨hc.1, UInt32.le_trans hc.2 (by decide)⟩)
        · cases h
  rw [isSpelling, halnum, Bool.true_or]

theorem isSpelled_toDigits {base : Nat} (hb : 1 < base) (hb' : base ≤ 16) (n : Nat) :
    IsSpelled (Nat.toDigits base n) :=
  ⟨Nat.toDigits_ne_nil, fun c hc =>
    isSpelling_of_isDigitOf ((denotes_toDigits hb hb' n).1 c hc)⟩

theorem IsSpelled.cons {c : Char} {t : Text} (hc : isSpelling c = true) (ht : IsSpelled t) :
    IsSpelled (c :: t) :=
  ⟨by simp, List.forall_mem_cons.2 ⟨hc, ht.2⟩⟩

theorem isSpelled_signedDecimal (v : Int) : IsSpelled (signedDecimal v) := by
  cases v with
  | ofNat n => exact isSpelled_toDigits (by decide) (by decide) n
  | negSucc n => exact (isSpelled_toDigits (by decide) (by decide) (n + 1)).cons (by decide)

theorem isSpelled_hexadecimal (n : Nat) : IsSpelled ("0x".toList ++ hexadecimal n) :=
  ((isSpelled_toDigits (by decide) (by decide) n).cons (by decide)).cons (by decide)

end Text

theorem Mnemonic.isSpelled_name (m : Mnemonic) : m.name.IsSpelled := by
  cases m <;> decide

/-! ## Registers and addresses -/

theorem Register.isSpelled_name (naming : Naming) (r : Register) : (r.name naming).IsSpelled := by
  obtain ⟨i⟩ := r
  cases naming <;> (revert i; decide +kernel)

namespace Operand

open Decoded

theorem register_name (naming : Register.Naming) (r : Register) :
    register (r.name naming) = .ok r := by
  have hname : Register.ofName (r.name naming) = .ok r := by
    obtain ⟨i⟩ := r
    cases naming <;> (revert i; decide +kernel)
  rw [register, hname]

theorem isBaseText_name (naming : Register.Naming) (r : Register) :
    isBaseText (r.name naming) = true := by
  obtain ⟨i⟩ := r
  cases naming <;> (revert i; decide +kernel)

theorem splitAddress?_append {a : Text} (ha : '(' ∉ a) (b : Text) :
    splitAddress? (a ++ '(' :: b ++ [')']) = some (a, b) := by
  have hfree : ∀ c ∈ a, (c != '(') = true := by
    intro c hc
    rw [bne_iff_ne]
    rintro rfl
    exact ha hc
  rw [splitAddress?, List.getLast?_concat, if_pos rfl, List.dropLast_concat,
    List.dropWhile_append_of_pos hfree, List.takeWhile_append_of_pos hfree]
  simp

theorem address_addressed {v : Int} (hv : isSigned64 v = true) (naming : Register.Naming)
    (r : Register) : address (addressed v (r.name naming)) = .ok ⟨v, r⟩ := by
  have hfree : '(' ∉ Text.signedDecimal v := by
    cases v with
    | ofNat n =>
      intro h
      exact absurd (Text.isDigit_of_mem_decimal h) (by decide)
    | negSucc n =>
      intro h
      rcases List.mem_cons.1 h with h | h
      · cases h
      · exact absurd (Text.isDigit_of_mem_decimal h) (by decide)
  rw [address, addressed, splitAddress?_append hfree]
  simp only [offset?_signedDecimal hv, isBaseText_name, register_name]
  rfl

theorem isSpelled_addressed (v : Int) (naming : Register.Naming) (r : Register) :
    (addressed v (r.name naming)).IsSpelled := by
  refine ⟨by simp [addressed], ?_⟩
  have hv := (Text.isSpelled_signedDecimal v).2
  have hr := (Register.isSpelled_name naming r).2
  simp only [addressed, List.forall_mem_append, List.forall_mem_cons]
  exact ⟨⟨hv, by decide, hr⟩, by decide, by simp⟩

end Operand

/-! ## Whole instructions -/

namespace Decoded

theorem listed_cons_cons (a b : Text) (ts : List Text) :
    listed (a :: b :: ts) = a ++ ", ".toList ++ listed (b :: ts) :=
  List.intercalate_cons_cons

theorem isPlain_listed {ts : List Text} (hne : ts ≠ []) (h : ∀ t ∈ ts, t.IsSpelled) :
    Source.IsPlain (listed ts) := by
  induction ts with
  | nil => exact absurd rfl hne
  | cons a ts ih =>
    have ha := (h a List.mem_cons_self).isPlain
    cases ts with
    | nil => simpa [listed] using ha
    | cons b ts =>
      rw [listed_cons_cons]
      exact ha.join (ih (by simp) fun t ht => h t (List.mem_cons_of_mem a ht)) (by decide)

theorem tokens_listed {ts : List Text} (h : ∀ t ∈ ts, t.IsSpelled) :
    Instruction.tokens (listed ts) = ts := by
  induction ts with
  | nil => rfl
  | cons a ts ih =>
    have ha := (h a List.mem_cons_self).isToken
    cases ts with
    | nil => simpa [listed] using Instruction.tokens_of_isToken ha
    | cons b ts =>
      have hrest := ih fun t ht => h t (List.mem_cons_of_mem a ht)
      rw [listed_cons_cons, List.append_assoc]
      show Instruction.tokens (a ++ ',' :: ' ' :: listed (b :: ts)) = _
      rw [Instruction.tokens_append ha (by decide), Instruction.tokens_cons_separator (by decide),
        hrest]

end Decoded
end RiscvRom
