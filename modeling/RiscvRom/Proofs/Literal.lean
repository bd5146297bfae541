import Mathlib
import RiscvRom.Proofs.Numeral

/-! Which texts are numbers.

A number is written as an optional sign and an unsigned number: digits of base ten, or a mark for
the base and digits of that base. The grammar gives every such text the value that its digits add up
to. The reader of operands accepts exactly the texts of the grammar whose value is in the signed
64-bit range, and reads that value; it refuses every other text, and the fault names the text. -/

namespace RiscvRom

/-! ## The grammar -/

namespace Literal

/-- `c` stands for `d` among the digits of a base, a letter in either case. -/
def IsDigit (base : Nat) (c : Char) (d : Nat) : Prop :=
  d < base ∧ (c = d.digitChar ∨ c = d.digitChar.toUpper)

/-- One or more digits, and the number that they denote in the base: the last has weight one. -/
def Digits (base : Nat) (ds : Text) (n : Nat) : Prop :=
  ds ≠ [] ∧ ∃ values, List.Forall₂ (IsDigit base) ds values ∧ n = Nat.ofDigits base values.reverse

inductive Unsigned : Text → Nat → Prop
  | decimal {ds : Text} {n : Nat} (h : Digits 10 ds n) : Unsigned ds n
  | hexadecimal {mark : Char} {ds : Text} {n : Nat} (hm : mark = 'x' ∨ mark = 'X')
      (h : Digits 16 ds n) : Unsigned ('0' :: mark :: ds) n
  | binary {mark : Char} {ds : Text} {n : Nat} (hm : mark = 'b' ∨ mark = 'B')
      (h : Digits 2 ds n) : Unsigned ('0' :: mark :: ds) n

end Literal

/-- The text of a number, and its value. -/
inductive Literal : Text → Int → Prop
  | bare {t : Text} {n : Nat} (h : Literal.Unsigned t n) : Literal t n
  | plus {t : Text} {n : Nat} (h : Literal.Unsigned t n) : Literal ('+' :: t) n
  | minus {t : Text} {n : Nat} (h : Literal.Unsigned t n) : Literal ('-' :: t) (-n)

namespace Text

open Literal (IsDigit Digits)

/-! ## Digits -/

theorem toNat_of_digitValue? {c : Char} {d : Nat} (h : digitValue? c = some d) :
    c.toNat < 128 := by
  simp only [digitValue?, Char.le_def, UInt32.le_iff_toNat_le] at h
  split at h
  · exact Nat.lt_of_le_of_lt (‹_ ∧ _›).2 (by decide)
  · split at h
    · exact Nat.lt_of_le_of_lt (‹_ ∧ _›).2 (by decide)
    · split at h
      · exact Nat.lt_of_le_of_lt (‹_ ∧ _›).2 (by decide)
      · cases h

theorem digitValue?_eq_some_iff {base : Nat} (hb : base ≤ 16) {c : Char} {d : Nat} :
    digitValue? c = some d ∧ d < base ↔ IsDigit base c d := by
  constructor
  · rintro ⟨h, hd⟩
    have key : ∀ n : Fin 128, ∀ e : Fin 16, digitValue? (Char.ofNat n) = some e.val →
        Char.ofNat n = Nat.digitChar e ∨ Char.ofNat n = (Nat.digitChar e).toUpper := by
      decide +kernel
    have hc := key ⟨c.toNat, toNat_of_digitValue? h⟩ ⟨d, by omega⟩
    rw [Char.ofNat_toNat] at hc
    exact ⟨hd, hc h⟩
  · have key : ∀ e : Fin 16, digitValue? (Nat.digitChar e).toUpper = some e.val := by decide
    rintro ⟨hd, rfl | rfl⟩
    · exact ⟨digitValue?_digitChar (by omega), hd⟩
    · exact ⟨key ⟨d, by omega⟩, hd⟩

theorem isDigitOf_iff {base : Nat} (hb : base ≤ 16) {c : Char} :
    isDigitOf base c = true ↔ ∃ d, IsDigit base c d := by
  simp only [← digitValue?_eq_some_iff hb, isDigitOf, Option.any_eq_true, decide_eq_true_eq]

theorem forall_isDigitOf_iff {base : Nat} (hb : base ≤ 16) {ds : Text} :
    (∀ c ∈ ds, isDigitOf base c = true) ↔ ∃ values, List.Forall₂ (IsDigit base) ds values := by
  induction ds with
  | nil => simp
  | cons c ds ih =>
    rw [List.forall_mem_cons, ih, isDigitOf_iff hb]
    constructor
    · rintro ⟨⟨d, hd⟩, values, hvalues⟩
      exact ⟨d :: values, .cons hd hvalues⟩
    · rintro ⟨values, hvalues⟩
      cases hvalues with
      | cons hd hvalues => exact ⟨⟨_, hd⟩, _, hvalues⟩

/-- Digits behind a number `a` leave it with the weight that their count gives it. -/
theorem foldl_digits {base : Nat} (hb : base ≤ 16) {ds : Text} {values : List Nat}
    (h : List.Forall₂ (IsDigit base) ds values) (a : Nat) :
    ds.foldl (fun n c => base * n + (digitValue? c).getD 0) a =
      Nat.ofDigits base (values.reverse ++ [a]) := by
  induction h generalizing a with
  | nil => simp
  | @cons c d ds values hd _ ih =>
    have hvalue := ((digitValue?_eq_some_iff hb).2 hd).1
    have hpair : Nat.ofDigits base [d, a] = Nat.ofDigits base [base * a + d] := by
      simp [Nat.ofDigits_cons, Nat.add_comm]
    rw [List.foldl_cons, hvalue, Option.getD_some, ih, List.reverse_cons, List.append_assoc,
      List.singleton_append, Nat.ofDigits_append, Nat.ofDigits_append, hpair]

theorem digitsValue_eq_ofDigits {base : Nat} (hb : base ≤ 16) {ds : Text} {values : List Nat}
    (h : List.Forall₂ (IsDigit base) ds values) :
    digitsValue base ds = Nat.ofDigits base values.reverse := by
  rw [digitsValue, foldl_digits hb h, Nat.ofDigits_append, Nat.ofDigits_singleton, Nat.mul_zero,
    Nat.add_zero]

theorem natural?_eq_some_iff {base : Nat} (hb : base ≤ 16) {ds : Text} {n : Nat} :
    natural? base ds = some n ↔ Digits base ds n := by
  have hdigits : (∀ c ∈ ds, isDigitOf base c = true) ↔
      ∃ values, List.Forall₂ (IsDigit base) ds values := forall_isDigitOf_iff hb
  constructor
  · intro h
    rw [natural?] at h
    split at h
    · obtain ⟨hne, hall⟩ := ‹_ ∧ _›
      obtain ⟨values, hvalues⟩ := hdigits.1 (List.all_eq_true.1 hall)
      rw [digitsValue_eq_ofDigits hb hvalues] at h
      exact ⟨hne, values, hvalues, (Option.some.inj h).symm⟩
    · cases h
  · rintro ⟨hne, values, hvalues, rfl⟩
    rw [natural?, if_pos ⟨hne, List.all_eq_true.2 (hdigits.2 ⟨values, hvalues⟩)⟩,
      digitsValue_eq_ofDigits hb hvalues]

theorem isDigit_of_digits {ds : Text} {n : Nat} (h : Digits 10 ds n) :
    ∀ c ∈ ds, c.isDigit = true := by
  obtain ⟨-, values, hvalues, -⟩ := h
  have key : ∀ d : Fin 10, (Nat.digitChar d).isDigit = true ∧
      (Nat.digitChar d).toUpper.isDigit = true := by decide
  intro c hc
  obtain ⟨d, hd, rfl | rfl⟩ :=
    (isDigitOf_iff (by decide)).1 ((forall_isDigitOf_iff (by decide)).2 ⟨values, hvalues⟩ c hc)
  · exact (key ⟨d, hd⟩).1
  · exact (key ⟨d, hd⟩).2

end Text

namespace Operand

open Text (natural? natural?_eq_some_iff isDigit_of_digits)
open Literal (Unsigned)

/-! ## The base and its mark -/

/-- The number that stands behind a sign. -/
def unsigned? (t : Text) : Option Nat := natural? (splitBase t).1 (splitBase t).2

theorem unsigned_of_unsigned? {t : Text} {n : Nat} (h : unsigned? t = some n) : Unsigned t n := by
  unfold unsigned? splitBase at h
  split at h
  · exact .hexadecimal (.inl rfl) ((natural?_eq_some_iff (by decide)).1 h)
  · exact .hexadecimal (.inr rfl) ((natural?_eq_some_iff (by decide)).1 h)
  · exact .binary (.inl rfl) ((natural?_eq_some_iff (by decide)).1 h)
  · exact .binary (.inr rfl) ((natural?_eq_some_iff (by decide)).1 h)
  · exact .decimal ((natural?_eq_some_iff (by decide)).1 h)

theorem unsigned?_of_unsigned {t : Text} {n : Nat} (h : Unsigned t n) : unsigned? t = some n := by
  cases h with
  | decimal h =>
    have hread : natural? 10 t = some n := (natural?_eq_some_iff (by decide)).2 h
    rw [unsigned?, splitBase_of_isDigit (isDigit_of_digits h)]
    exact hread
  | @hexadecimal mark ds _ hm h =>
    have hread : natural? 16 ds = some n := (natural?_eq_some_iff (by decide)).2 h
    rcases hm with rfl | rfl <;> exact hread
  | @binary mark ds _ hm h =>
    have hread : natural? 2 ds = some n := (natural?_eq_some_iff (by decide)).2 h
    rcases hm with rfl | rfl <;> exact hread

/-! ## The sign -/

/-- An unsigned number starts with a digit, whichever base it has. -/
theorem splitSign_of_unsigned {t : Text} {n : Nat} (h : Unsigned t n) :
    splitSign t = (false, t) := by
  cases h with
  | decimal h => exact splitSign_of_isDigit (isDigit_of_digits h)
  | hexadecimal => rfl
  | binary => rfl

theorem of_signed?_eq_some {negative : Bool} {magnitude : Nat} {v : Int}
    (h : signed? negative magnitude = some v) :
    v = (if negative then -(magnitude : Int) else magnitude) ∧ isSigned64 v = true := by
  rw [signed?] at h
  generalize (if negative then -(magnitude : Int) else magnitude) = u at h ⊢
  by_cases hu : isSigned64 u = true
  · rw [if_pos hu] at h
    obtain rfl := Option.some.inj h
    exact ⟨rfl, hu⟩
  · rw [if_neg hu] at h
    cases h

theorem literal_of_immediate? {token : Text} {v : Int} (h : immediate? token = some v) :
    Literal token v ∧ isSigned64 v = true := by
  have hsplit : (unsigned? (splitSign token).2).bind (signed? (splitSign token).1) = some v := h
  obtain ⟨n, hn, hv⟩ := Option.bind_eq_some_iff.1 hsplit
  obtain ⟨rfl, hrange⟩ := of_signed?_eq_some hv
  refine ⟨?_, hrange⟩
  have hu := unsigned_of_unsigned? hn
  unfold splitSign at hu ⊢
  split at hu
  · exact .minus hu
  · exact .plus hu
  · exact .bare hu

theorem immediate?_of_literal {token : Text} {v : Int} (h : Literal token v)
    (hrange : isSigned64 v = true) : immediate? token = some v := by
  show (unsigned? (splitSign token).2).bind (signed? (splitSign token).1) = some v
  cases h with
  | bare h =>
    rw [splitSign_of_unsigned h, unsigned?_of_unsigned h, Option.bind_some]
    exact signed?_eq_some rfl hrange
  | @plus t n h =>
    rw [show splitSign ('+' :: t) = (false, t) from rfl, unsigned?_of_unsigned h, Option.bind_some]
    exact signed?_eq_some rfl hrange
  | @minus t n h =>
    rw [show splitSign ('-' :: t) = (true, t) from rfl, unsigned?_of_unsigned h, Option.bind_some]
    exact signed?_eq_some rfl hrange

theorem immediate?_eq_some_iff {token : Text} {v : Int} :
    immediate? token = some v ↔ Literal token v ∧ isSigned64 v = true :=
  ⟨literal_of_immediate?, fun h => immediate?_of_literal h.1 h.2⟩

theorem isSigned64_iff {v : Int} : isSigned64 v = true ↔ -2 ^ 63 ≤ v ∧ v ≤ 2 ^ 63 - 1 := by
  simp only [isSigned64, Bool.and_eq_true, decide_eq_true_eq]
  omega

theorem immediate_eq_ok_iff {token : Text} {v : Int} :
    immediate token = .ok v ↔ immediate? token = some v := by
  unfold immediate
  cases immediate? token <;> simp

theorem immediate_eq_error_iff {token : Text} {fault : Fault} :
    immediate token = .error fault ↔ fault = .invalidImmediate token ∧ immediate? token = none := by
  unfold immediate
  cases immediate? token <;> simp [eq_comm]

/-- **The reader of numbers accepts exactly the grammar.** A text is read as the number `v` if it
is a text of `v` and `v` is a signed 64-bit number; every text without such a number is refused, and
the fault holds the text. In particular each signed 64-bit number is read from its decimal text. -/
theorem immediate_reads_literals :
    (∀ (token : Text) (v : Int),
      immediate token = .ok v ↔ Literal token v ∧ -2 ^ 63 ≤ v ∧ v ≤ 2 ^ 63 - 1) ∧
    (∀ (token : Text) (fault : Fault),
      immediate token = .error fault ↔
        fault = .invalidImmediate token ∧
          ¬∃ v, Literal token v ∧ -2 ^ 63 ≤ v ∧ v ≤ 2 ^ 63 - 1) ∧
    ∀ v : Int64, immediate (Text.signedDecimal v.toInt) = .ok v.toInt := by
  refine ⟨fun token v => ?_, fun token fault => ?_, fun v => ?_⟩
  · rw [immediate_eq_ok_iff, immediate?_eq_some_iff, isSigned64_iff]
  · simp only [immediate_eq_error_iff, Option.eq_none_iff_forall_ne_some, ne_eq,
      immediate?_eq_some_iff, isSigned64_iff, not_exists]
  · rw [immediate_eq_ok_iff]
    exact immediate?_signedDecimal (isSigned64_iff.2 ⟨v.le_toInt, by have := v.toInt_lt; omega⟩)

example : immediate "-0x8000000000000000".toList = .ok (-2 ^ 63) := by decide
example : immediate "+0b+1".toList = .error (.invalidImmediate "+0b+1".toList) := by decide

end Operand
end RiscvRom
