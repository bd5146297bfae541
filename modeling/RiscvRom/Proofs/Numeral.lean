import RiscvRom.Operand

/-! Numbers that are written and read again.

A number is written with the digits of its base and without a mark where the base is ten. Every
reader of numbers takes such a text for the number it was written from, as long as the number is in
the signed 64-bit range. -/

namespace RiscvRom

namespace Text

theorem digitValue?_digitChar {d : Nat} (h : d < 16) : digitValue? d.digitChar = some d := by
  have key : ∀ d : Fin 16, digitValue? (Nat.digitChar d) = some d.val := by decide
  exact key ⟨d, h⟩

/-- A digit string and the number it denotes. -/
def Denotes (base : Nat) (ds : Text) (n : Nat) : Prop :=
  (∀ c ∈ ds, isDigitOf base c = true) ∧ digitsValue base ds = n

theorem denotes_digitChar {base d : Nat} (hb : base ≤ 16) (hd : d < base) :
    Denotes base [d.digitChar] d := by
  have h := digitValue?_digitChar (Nat.lt_of_lt_of_le hd hb)
  exact ⟨by simp [isDigitOf, h, hd], by simp [digitsValue, h]⟩

theorem Denotes.snoc {base n d : Nat} {ds : Text} (hn : Denotes base ds n) (hb : base ≤ 16)
    (hd : d < base) : Denotes base (ds ++ [d.digitChar]) (base * n + d) := by
  have h := digitValue?_digitChar (Nat.lt_of_lt_of_le hd hb)
  constructor
  · intro c hc
    rcases List.mem_append.1 hc with hc | hc
    · exact hn.1 c hc
    · exact (denotes_digitChar hb hd).1 c hc
  · rw [digitsValue_append, hn.2, h, Option.getD_some]

theorem denotes_toDigits {base : Nat} (hb : 1 < base) (hb' : base ≤ 16) (n : Nat) :
    Denotes base (Nat.toDigits base n) n := by
  induction n using Nat.strongRecOn with
  | ind n ih =>
    by_cases h : n < base
    · rw [Nat.toDigits_of_lt_base h]
      exact denotes_digitChar hb' h
    · have hq := (ih (n / base) (Nat.div_lt_self (by omega) hb)).snoc hb'
        (Nat.mod_lt n (by omega : 0 < base))
      rw [Nat.toDigits_of_base_le hb (by omega)]
      rwa [Nat.div_add_mod] at hq

theorem natural?_of_denotes {base n : Nat} {ds : Text} (h : Denotes base ds n) (hne : ds ≠ []) :
    natural? base ds = some n := by
  rw [natural?, if_pos ⟨hne, List.all_eq_true.2 h.1⟩, h.2]

theorem natural?_decimal (n : Nat) : natural? 10 (decimal n) = some n :=
  natural?_of_denotes (denotes_toDigits (by decide) (by decide) n) Nat.toDigits_ne_nil

theorem natural?_hexadecimal (n : Nat) : natural? 16 (hexadecimal n) = some n :=
  natural?_of_denotes (denotes_toDigits (by decide) (by decide) n) Nat.toDigits_ne_nil

/-- One hexadecimal digit more, taken from the bits of a number. -/
theorem Denotes.snoc_shift {n k : Nat} {ds : Text} (h : Denotes 16 ds (n >>> (4 * (k + 1)))) :
    Denotes 16 (ds ++ [Nat.digitChar (n >>> (4 * k) % 16)]) (n >>> (4 * k)) := by
  have hdigit := h.snoc (Nat.le_refl 16) (Nat.mod_lt (n >>> (4 * k)) (by decide))
  rw [Nat.mul_succ, Nat.shiftRight_add] at hdigit
  rwa [Nat.shiftRight_eq_div_pow (n >>> (4 * k)), Nat.div_add_mod] at hdigit

theorem denotes_hexWord (w : BitVec 32) : Denotes 16 (hexWord w) w.toNat := by
  have hnone : Denotes 16 [] (w.toNat >>> (4 * 8)) := by
    have hw : w.toNat >>> 32 = 0 := Nat.shiftRight_eq_zero _ _ w.isLt
    exact ⟨by simp, hw.symm⟩
  exact (((((((hnone.snoc_shift (k := 7)).snoc_shift (k := 6)).snoc_shift (k := 5)).snoc_shift
    (k := 4)).snoc_shift (k := 3)).snoc_shift (k := 2)).snoc_shift (k := 1)).snoc_shift (k := 0)

theorem natural?_hexWord (w : BitVec 32) : natural? 16 (hexWord w) = some w.toNat :=
  natural?_of_denotes (denotes_hexWord w) (by simp [hexWord])

theorem isDigit_of_mem_decimal {n : Nat} {c : Char} (h : c ∈ decimal n) : c.isDigit = true :=
  Nat.isDigit_of_mem_toDigits (by decide) (by decide) h

end Text

namespace Operand

open Text

/-! ## Marks that a decimal number does not have -/

theorem splitSign_of_isDigit {t : Text} (h : ∀ c ∈ t, c.isDigit = true) :
    splitSign t = (false, t) := by
  unfold splitSign
  split
  · exact absurd (h '-' (by simp)) (by decide)
  · exact absurd (h '+' (by simp)) (by decide)
  · rfl

theorem splitBase_of_isDigit {t : Text} (h : ∀ c ∈ t, c.isDigit = true) :
    splitBase t = (10, t) := by
  unfold splitBase
  split
  · exact absurd (h 'x' (by simp)) (by decide)
  · exact absurd (h 'X' (by simp)) (by decide)
  · exact absurd (h 'b' (by simp)) (by decide)
  · exact absurd (h 'B' (by simp)) (by decide)
  · rfl

/-! ## Reading back -/

theorem signed?_eq_some {negative : Bool} {magnitude : Nat} {v : Int}
    (hv : (if negative then -(magnitude : Int) else magnitude) = v) (h : isSigned64 v = true) :
    signed? negative magnitude = some v := by
  rw [signed?, hv, if_pos h]

theorem immediate?_of_split {token unsigned digits : Text} {negative : Bool} {base : Nat}
    (hs : splitSign token = (negative, unsigned)) (hb : splitBase unsigned = (base, digits)) :
    immediate? token = (natural? base digits).bind (signed? negative) := by
  rw [immediate?, hs]
  dsimp only
  rw [hb]

theorem immediate?_signedDecimal {v : Int} (h : isSigned64 v = true) :
    immediate? (signedDecimal v) = some v := by
  cases v with
  | ofNat n =>
    have hdigit : ∀ c ∈ decimal n, c.isDigit = true := fun _ => isDigit_of_mem_decimal
    rw [signedDecimal, immediate?_of_split (splitSign_of_isDigit hdigit)
      (splitBase_of_isDigit hdigit), natural?_decimal, Option.bind_some]
    exact signed?_eq_some rfl h
  | negSucc n =>
    have hdigit : ∀ c ∈ decimal (n + 1), c.isDigit = true := fun _ => isDigit_of_mem_decimal
    have hsign : splitSign ('-' :: decimal (n + 1)) = (true, decimal (n + 1)) := rfl
    rw [signedDecimal, immediate?_of_split hsign (splitBase_of_isDigit hdigit), natural?_decimal,
      Option.bind_some]
    exact signed?_eq_some rfl h

theorem immediate?_hexadecimal {n : Nat} (h : isSigned64 n = true) :
    immediate? ("0x".toList ++ hexadecimal n) = some (n : Int) := by
  show (natural? 16 (hexadecimal n)).bind (signed? false) = _
  rw [natural?_hexadecimal, Option.bind_some]
  exact signed?_eq_some rfl h

theorem offset?_signedDecimal {v : Int} (h : isSigned64 v = true) :
    offset? (signedDecimal v) = some v := by
  cases v with
  | ofNat n =>
    rw [signedDecimal]
    unfold offset?
    split
    · rename_i digits hd
      exact absurd (isDigit_of_mem_decimal (hd ▸ List.mem_cons_self)) (by decide)
    · rw [natural?_decimal, Option.bind_some]
      exact signed?_eq_some rfl h
  | negSucc n =>
    rw [signedDecimal, offset?, natural?_decimal, Option.bind_some]
    exact signed?_eq_some rfl h

end Operand
end RiscvRom
