import Mathlib
import RiscvRom.Text.Utf8

/-! Text that is written as bytes and read again.

The bytes of a character take a scan that stands between characters to the next such place, with
that character as the one new unit. So a text is read from its bytes as it was written. Bytes beyond
ASCII never give an ASCII character, not even where they are ill-formed: a text of such characters
is read from its own bytes only. -/

namespace RiscvRom.Utf8

/-! ## First bytes -/

theorem start_two {n : Nat} (hlow : 2 ≤ n) (hhigh : n < 32) :
    start (n + 192) = .more ⟨1, n, 0x80, 0xBF⟩ := by
  interval_cases n <;> rfl

theorem start_three {n : Nat} (h : n < 16) :
    start (n + 224) =
      .more ⟨2, n, if n = 0 then 0xA0 else 0x80, if n = 13 then 0x9F else 0xBF⟩ := by
  interval_cases n <;> rfl

theorem start_four {n : Nat} (h : n ≤ 4) :
    start (n + 240) =
      .more ⟨3, n, if n = 0 then 0x90 else 0x80, if n = 4 then 0x8F else 0xBF⟩ := by
  interval_cases n <;> rfl

/-! ## One byte -/

namespace Scan

theorem step_of_start {b : Nat} {p : Pending} (h : start b = .more p) (us : List (Option Char)) :
    step ⟨us, none⟩ b = ⟨us, some p⟩ := by
  simp [step, begin, h]

section
variable (us : List (Option Char)) (missing bits low high n : Nat)

/-- A byte in the range adds six bits. -/
theorem step_more (hlow : low ≤ n + 128) (hhigh : n + 128 ≤ high) :
    step ⟨us, some ⟨missing + 2, bits, low, high⟩⟩ (n + 128) =
      ⟨us, some ⟨missing + 1, 64 * bits + n, 0x80, 0xBF⟩⟩ := by
  simp [step, hlow, hhigh]

theorem step_last (hlow : low ≤ n + 128) (hhigh : n + 128 ≤ high) :
    step ⟨us, some ⟨1, bits, low, high⟩⟩ (n + 128) =
      ⟨some (Char.ofNat (64 * bits + n)) :: us, none⟩ := by
  simp [step, hlow, hhigh]

end

/-- The state after some bytes. -/
def after (s : Scan) (bs : Bytes) : Scan := bs.foldl (fun s b => s.step b.toNat) s

theorem after_append (s : Scan) (bs cs : Bytes) : s.after (bs ++ cs) = (s.after bs).after cs :=
  List.foldl_append

theorem after_cons {n : Nat} (h : n < 256) (s : Scan) (bs : Bytes) :
    s.after (UInt8.ofNat n :: bs) = (s.step n).after bs := by
  rw [after, List.foldl_cons, UInt8.toNat_ofNat_of_lt' h, after]

/-! ## One character -/

section
variable (us : List (Option Char)) {a b c d : Nat}

theorem after_one (ha : a < 128) :
    after ⟨us, none⟩ [UInt8.ofNat a] = ⟨some (Char.ofNat a) :: us, none⟩ := by
  rw [after_cons (by omega)]
  simp [after, step, begin, start, ha]

theorem after_two (hlow : 2 ≤ a) (ha : a < 32) (hb : b < 64) :
    after ⟨us, none⟩ [UInt8.ofNat (a + 192), UInt8.ofNat (b + 128)] =
      ⟨some (Char.ofNat (64 * a + b)) :: us, none⟩ := by
  rw [after_cons (by omega), step_of_start (start_two hlow ha), after_cons (by omega),
    step_last _ _ _ _ _ (by omega) (by omega)]
  rfl

/-- The second byte is high enough for a sequence of three bytes to be needed, and below the
surrogates where the first byte could lead to them. -/
theorem after_three (ha : a < 16) (hb : b < 64) (hc : c < 64) (hlow : a = 0 → 32 ≤ b)
    (hhigh : a = 13 → b < 32) :
    after ⟨us, none⟩ [UInt8.ofNat (a + 224), UInt8.ofNat (b + 128), UInt8.ofNat (c + 128)] =
      ⟨some (Char.ofNat (64 * (64 * a + b) + c)) :: us, none⟩ := by
  rw [after_cons (by omega), step_of_start (start_three ha), after_cons (by omega),
    step_more _ 0 _ _ _ _ (by split <;> omega) (by split <;> omega), after_cons (by omega),
    step_last _ _ _ _ _ (by omega) (by omega)]
  rfl

/-- The second byte is high enough for a sequence of four bytes to be needed, and low enough for
the last code point. -/
theorem after_four (ha : a ≤ 4) (hb : b < 64) (hc : c < 64) (hd : d < 64)
    (hlow : a = 0 → 16 ≤ b) (hhigh : a = 4 → b < 16) :
    after ⟨us, none⟩ [UInt8.ofNat (a + 240), UInt8.ofNat (b + 128), UInt8.ofNat (c + 128),
        UInt8.ofNat (d + 128)] =
      ⟨some (Char.ofNat (64 * (64 * (64 * a + b) + c) + d)) :: us, none⟩ := by
  rw [after_cons (by omega), step_of_start (start_four ha), after_cons (by omega),
    step_more _ 1 _ _ _ _ (by split <;> omega) (by split <;> omega), after_cons (by omega),
    step_more _ 0 _ _ _ _ (by omega) (by omega), after_cons (by omega),
    step_last _ _ _ _ _ (by omega) (by omega)]
  rfl

theorem after_char (x : Char) :
    after ⟨us, none⟩ (String.utf8EncodeChar x) = ⟨some x :: us, none⟩ := by
  have hvalid : x.val.toNat < 0xD800 ∨ 0xDFFF < x.val.toNat ∧ x.val.toNat < 0x110000 := x.valid
  have hx : Char.ofNat x.val.toNat = x := Char.ofNat_toNat x
  unfold String.utf8EncodeChar
  generalize x.val.toNat = v at hvalid hx
  dsimp only
  split_ifs with h1 h2 h3
  · rw [after_one us (by omega), hx]
  · have hv : 64 * (v / 64 % 32) + v % 64 = v := by omega
    rw [after_two us (by omega) (by omega) (by omega), hv, hx]
  · have hv : 64 * (64 * (v / 4096 % 16) + v / 64 % 64) + v % 64 = v := by omega
    rw [after_three us (by omega) (by omega) (by omega) (by omega) (by omega), hv, hx]
  · have hv : 64 * (64 * (64 * (v / 262144 % 8) + v / 4096 % 64) + v / 64 % 64) + v % 64 = v := by
      omega
    rw [after_four us (by omega) (by omega) (by omega) (by omega) (by omega) (by omega), hv, hx]

theorem after_encode (t : Text) :
    after ⟨us, none⟩ (encode t) = ⟨(t.map some).reverse ++ us, none⟩ := by
  induction t generalizing us with
  | nil => rfl
  | cons x t ih =>
    rw [encode, List.flatMap_cons, after_append, after_char]
    refine (ih (some x :: us)).trans ?_
    simp

end
end Scan

/-! ## Whole texts -/

theorem units_encode (t : Text) : units (encode t) = t.map some := by
  have h : units (encode t) = (Scan.after ⟨[], none⟩ (encode t)).finish := rfl
  rw [h, Scan.after_encode, List.append_nil]
  exact List.reverse_reverse _

theorem decodeLenient_encode (t : Text) : decodeLenient (encode t) = t := by
  simp [decodeLenient, units_encode]

/-! ## Plain characters -/

/-- An ASCII character other than NUL. -/
def IsPlain (c : Char) : Prop := 0 < c.toNat ∧ c.toNat < 0x80

theorem not_isPlain_ofNat {n : Nat} (h : 0x80 ≤ n) : ¬IsPlain (Char.ofNat n) := by
  -- a number that is no code point gives NUL
  by_cases hn : n.isValidChar
  · rw [IsPlain, Char.toNat_ofNat, if_pos hn]
    omega
  · rw [IsPlain, Char.toNat_ofNat, if_neg hn]
    omega

/-- The least number that an open sequence can end in is no plain character. -/
def Pending.IsWide (p : Pending) : Prop :=
  0x80 ≤ p.low ∧ 0x80 ≤ (64 * p.bits + (p.low - 0x80)) * 64 ^ (p.missing - 1)

theorem lt_of_start {b : Nat} {c : Char} (h : start b = .char c) : b < 0x80 := by
  grind [start]

theorem isWide_of_start {b : Nat} {p : Pending} (h : start b = .more p) : p.IsWide := by
  unfold start at h
  split_ifs at h <;> cases h <;> refine ⟨by simp, ?_⟩ <;> dsimp only <;> omega

namespace Scan

theorem begin_units_append (us vs : List (Option Char)) (p : Option Pending) (b : Nat) :
    begin ⟨us ++ vs, p⟩ b = ⟨(begin ⟨us, p⟩ b).units ++ vs, (begin ⟨us, p⟩ b).pending⟩ := by
  unfold begin
  cases start b <;> rfl

/-- Units that were found before are only carried along. -/
theorem step_units_append (us vs : List (Option Char)) (p : Option Pending) (b : Nat) :
    step ⟨us ++ vs, p⟩ b = ⟨(step ⟨us, p⟩ b).units ++ vs, (step ⟨us, p⟩ b).pending⟩ := by
  cases p with
  | none => exact begin_units_append us vs none b
  | some p =>
    unfold step
    dsimp only
    split_ifs
    · rfl
    · rfl
    · exact begin_units_append (none :: us) vs none b

theorem after_units_append (us vs : List (Option Char)) (p : Option Pending) (bs : Bytes) :
    after ⟨us ++ vs, p⟩ bs = ⟨(after ⟨us, p⟩ bs).units ++ vs, (after ⟨us, p⟩ bs).pending⟩ := by
  induction bs generalizing us p with
  | nil => rfl
  | cons b bs ih =>
    rw [after, List.foldl_cons, step_units_append]
    exact ih _ _

theorem finish_after (us : List (Option Char)) (p : Option Pending) (bs : Bytes) :
    (after ⟨us, p⟩ bs).finish = us.reverse ++ (after ⟨[], p⟩ bs).finish := by
  have h := after_units_append [] us p bs
  rw [List.nil_append] at h
  rw [h, finish, finish]
  cases (after ⟨[], p⟩ bs).pending <;> simp

/-- What comes of an open sequence is no plain character, whether it is completed or not. -/
theorem finish_of_pending {p : Pending} (h : p.IsWide) (bs : Bytes) :
    ∃ u us, (after ⟨[], some p⟩ bs).finish = u :: us ∧ ∀ c ∈ u, ¬IsPlain c := by
  induction bs generalizing p with
  | nil => exact ⟨none, [], rfl, by simp⟩
  | cons b bs ih =>
    rw [after, List.foldl_cons, ← after, step]
    dsimp only
    split_ifs with hrange hmissing
    · rw [finish_after]
      refine ⟨_, _, rfl, ?_⟩
      intro c hc
      obtain rfl := Option.some.inj hc
      have hle := h.2
      rw [Nat.sub_eq_zero_of_le hmissing, pow_zero, mul_one] at hle
      exact not_isPlain_ofNat (by omega)
    · refine ih ⟨le_rfl, ?_⟩
      obtain ⟨k, hk⟩ : ∃ k, p.missing = k + 2 := ⟨p.missing - 2, by omega⟩
      have hle := h.2
      simp only [hk] at hle ⊢
      calc 0x80 ≤ (64 * p.bits + (p.low - 0x80)) * 64 ^ (k + 1) := hle
        _ ≤ (64 * p.bits + (b.toNat - 0x80)) * 64 ^ (k + 1) := by gcongr; exact hrange.1
        _ = (64 * (64 * p.bits + (b.toNat - 0x80)) + 0) * 64 ^ k := by ring
    · -- the sequence ends as ill-formed, and the byte starts anew behind it
      rw [show (⟨[none], none⟩ : Scan) = ⟨[] ++ [none], none⟩ from rfl, begin_units_append,
        finish_after, List.reverse_append]
      exact ⟨none, _, rfl, by simp⟩

end Scan

theorem units_cons_of_lt {b : UInt8} (h : b.toNat < 0x80) (bs : Bytes) :
    units (b :: bs) = some (Char.ofNat b.toNat) :: units bs := by
  have hstep : Scan.step ⟨[], none⟩ b.toNat = ⟨[some (Char.ofNat b.toNat)], none⟩ := by
    simp [Scan.step, Scan.begin, start, h]
  rw [units, List.foldl_cons, hstep]
  exact Scan.finish_after _ none bs

theorem units_cons_of_le {b : UInt8} (h : 0x80 ≤ b.toNat) (bs : Bytes) :
    ∃ u us, units (b :: bs) = u :: us ∧ ∀ c ∈ u, ¬IsPlain c := by
  have hunits : units (b :: bs) = (Scan.after (Scan.begin ⟨[], none⟩ b.toNat) bs).finish := rfl
  rw [hunits, Scan.begin]
  split
  · rename_i hstart
    have hlt := lt_of_start hstart
    omega
  · rename_i p hstart
    exact Scan.finish_of_pending (isWide_of_start hstart) bs
  · rw [Scan.finish_after]
    exact ⟨none, _, rfl, by simp⟩

theorem decodeLenient_cons_of_lt {b : UInt8} (h : b.toNat < 0x80) (bs : Bytes) :
    decodeLenient (b :: bs) = Char.ofNat b.toNat :: decodeLenient bs := by
  rw [decodeLenient, units_cons_of_lt h]
  rfl

theorem decodeLenient_cons_of_le {b : UInt8} (h : 0x80 ≤ b.toNat) (bs : Bytes) :
    ∃ c t, decodeLenient (b :: bs) = c :: t ∧ ¬IsPlain c := by
  obtain ⟨u, us, hunits, hu⟩ := units_cons_of_le h bs
  refine ⟨_, _, by rw [decodeLenient, hunits, List.map_cons], ?_⟩
  cases u with
  | none => exact not_isPlain_ofNat (by decide)
  | some c => exact hu c rfl

theorem toNat_ofNat_of_lt {n : Nat} (h : n < 0x80) : (Char.ofNat n).toNat = n := by
  rw [Char.toNat_ofNat, if_pos (.inl (by omega))]

theorem encode_cons_of_lt {b : UInt8} (h : b.toNat < 0x80) (t : Text) :
    encode (Char.ofNat b.toNat :: t) = b :: encode t := by
  have hval : (Char.ofNat b.toNat).val.toNat = b.toNat := toNat_ofNat_of_lt h
  have hchar : String.utf8EncodeChar (Char.ofNat b.toNat) = [b] := by
    rw [String.utf8EncodeChar, hval, if_pos (by omega), UInt8.ofNat_toNat]
  rw [encode, List.flatMap_cons, hchar]
  rfl

/-- Only its own bytes are read as a text of plain characters. -/
theorem decodeLenient_eq_iff {t : Text} (h : ∀ c ∈ t, IsPlain c) {bs : Bytes} :
    decodeLenient bs = t ↔ bs = encode t := by
  constructor
  · rintro rfl
    induction bs with
    | nil => rfl
    | cons b bs ih =>
      by_cases hb : b.toNat < 0x80
      · rw [decodeLenient_cons_of_lt hb] at h ⊢
        rw [encode_cons_of_lt hb, ← ih fun c hc => h c (List.mem_cons_of_mem _ hc)]
      · obtain ⟨c, t, hread, hc⟩ := decodeLenient_cons_of_le (Nat.le_of_not_lt hb) bs
        rw [hread] at h
        exact absurd (h c List.mem_cons_self) hc
  · rintro rfl
    exact decodeLenient_encode t

theorem head?_decodeLenient_eq_iff {c : Char} (hc : IsPlain c) {bs : Bytes} :
    (decodeLenient bs).head? = some c ↔ bs.head? = some (UInt8.ofNat c.toNat) := by
  cases bs with
  | nil => exact ⟨nofun, nofun⟩
  | cons b bs =>
    have hbyte : b = UInt8.ofNat c.toNat ↔ b.toNat = c.toNat := by
      rw [UInt8.toNat_inj.symm, UInt8.toNat_ofNat_of_lt' (hc.2.trans (by decide))]
    rw [List.head?_cons, Option.some.injEq, hbyte]
    by_cases hb : b.toNat < 0x80
    · rw [decodeLenient_cons_of_lt hb, List.head?_cons, Option.some.injEq]
      constructor
      · rintro rfl
        exact (toNat_ofNat_of_lt hb).symm
      · intro heq
        rw [heq, Char.ofNat_toNat]
    · obtain ⟨x, t, hread, hx⟩ := decodeLenient_cons_of_le (Nat.le_of_not_lt hb) bs
      rw [hread, List.head?_cons, Option.some.injEq]
      constructor
      · rintro rfl
        exact absurd hc hx
      · intro heq
        have := hc.2
        omega

end RiscvRom.Utf8
