import RiscvRom.Proofs.Literal
import RiscvRom.Proofs.Spelling

/-! Which texts are addresses.

An address is written as its offset, a decimal number with a minus sign or none, and then the base
in parentheses. Where a text has this form, the text in the parentheses decides: it is a spelling of
a register, or else the fault names it. A text of any other form is no address, and the fault holds
all of it. On decimal numbers the reader of offsets and the reader of operands agree. -/

namespace RiscvRom

/-! ## The grammar -/

/-- A decimal number with a minus sign or none, and its value. -/
inductive Literal.Decimal : Text → Int → Prop
  | bare {ds : Text} {n : Nat} (h : Digits 10 ds n) : Decimal ds n
  | minus {ds : Text} {n : Nat} (h : Digits 10 ds n) : Decimal ('-' :: ds) (-n)

/-- The text has an offset in the signed 64-bit range, and then the text of a base in
parentheses. -/
def Operand.Addressed (token : Text) (offset : Int) (base : Text) : Prop :=
  ∃ s, token = s ++ '(' :: base ++ [')'] ∧ Literal.Decimal s offset ∧
    -2 ^ 63 ≤ offset ∧ offset ≤ 2 ^ 63 - 1

/-! ## Names of registers -/

namespace Register

theorem nodup_spellings : (spellings.map (·.1)).Nodup := by decide +kernel

theorem ofName_eq_ok_iff {n : Text} {r : Register} : ofName n = .ok r ↔ (n, r) ∈ spellings := by
  unfold ofName
  constructor
  · intro h
    split at h
    · rename_i n' r' hfind
      obtain rfl : r' = r := Except.ok.inj h
      obtain rfl : n' = n := by simpa using List.find?_some hfind
      exact List.mem_of_find?_eq_some hfind
    · cases h
  · intro h
    obtain ⟨p, hp⟩ := Option.isSome_iff_exists.1
      (List.find?_isSome (p := (·.1 == n)).2 ⟨(n, r), h, by simp⟩)
    -- no other spelling has this name
    have hname : p.1 = n := by simpa using List.find?_some hp
    obtain rfl : p = (n, r) :=
      List.inj_on_of_nodup_map nodup_spellings (List.mem_of_find?_eq_some hp) h hname
    rw [hp]

theorem ofName_eq_error_iff {n : Text} {e : Unresolved} :
    ofName n = .error e ↔ e = .unknown n ∧ ∀ r, (n, r) ∉ spellings := by
  constructor
  · intro h
    refine ⟨?_, fun r hr => ?_⟩
    · unfold ofName at h
      split at h
      · cases h
      · exact (Except.error.inj h).symm
    · rw [ofName_eq_ok_iff.2 hr] at h
      cases h
  · rintro ⟨rfl, hno⟩
    unfold ofName
    split
    · rename_i n' r hfind
      obtain rfl : n' = n := by simpa using List.find?_some hfind
      exact absurd (List.mem_of_find?_eq_some hfind) (hno r)
    · rfl

end Register

namespace Operand

open Text (natural? natural?_eq_some_iff isDigit_of_digits)

theorem register_eq_ok_iff {token : Text} {r : Register} :
    register token = .ok r ↔ (token, r) ∈ Register.spellings := by
  rw [← Register.ofName_eq_ok_iff]
  unfold register
  cases Register.ofName token <;> simp

theorem register_eq_error_iff {token : Text} {fault : Fault} :
    register token = .error fault ↔
      fault = .unknownRegister token ∧ ∀ r, (token, r) ∉ Register.spellings := by
  unfold register
  cases h : Register.ofName token with
  | ok r =>
    have hmem := Register.ofName_eq_ok_iff.1 h
    simp only [reduceCtorEq, false_iff, not_and]
    exact fun _ hno => hno r hmem
  | error e =>
    obtain ⟨rfl, hno⟩ := Register.ofName_eq_error_iff.1 h
    simp [Fault.ofUnresolved, hno, eq_comm]

theorem isBaseText_iff {base : Text} :
    isBaseText base = true ↔ base ≠ [] ∧ '(' ∉ base ∧ ')' ∉ base := by
  simp [isBaseText, and_assoc]

/-- No name of a register has a parenthesis in it. -/
theorem isBaseText_of_mem_spellings {base : Text} {r : Register}
    (h : (base, r) ∈ Register.spellings) : isBaseText base = true := by
  have key : ∀ p ∈ Register.spellings, isBaseText p.1 = true := by decide +kernel
  exact key (base, r) h

/-! ## Offsets -/

theorem offset?_of_digits {ds : Text} {n : Nat} (h : Literal.Digits 10 ds n) :
    offset? ds = signed? false n := by
  have hread : natural? 10 ds = some n := (natural?_eq_some_iff (by decide)).2 h
  unfold offset?
  split
  · exact absurd (isDigit_of_digits h '-' List.mem_cons_self) (by decide)
  · rw [hread, Option.bind_some]

theorem offset?_of_minus {ds : Text} {n : Nat} (h : Literal.Digits 10 ds n) :
    offset? ('-' :: ds) = signed? true n := by
  have hread : natural? 10 ds = some n := (natural?_eq_some_iff (by decide)).2 h
  rw [offset?, hread, Option.bind_some]

theorem offset?_eq_some_iff {s : Text} {v : Int} :
    offset? s = some v ↔ Literal.Decimal s v ∧ isSigned64 v = true := by
  constructor
  · intro h
    unfold offset? at h
    split at h
    · obtain ⟨n, hn, hv⟩ := Option.bind_eq_some_iff.1 h
      obtain ⟨rfl, hrange⟩ := of_signed?_eq_some hv
      exact ⟨.minus ((natural?_eq_some_iff (by decide)).1 hn), hrange⟩
    · obtain ⟨n, hn, hv⟩ := Option.bind_eq_some_iff.1 h
      obtain ⟨rfl, hrange⟩ := of_signed?_eq_some hv
      exact ⟨.bare ((natural?_eq_some_iff (by decide)).1 hn), hrange⟩
  · rintro ⟨h, hrange⟩
    cases h with
    | bare h =>
      rw [offset?_of_digits h]
      exact signed?_eq_some rfl hrange
    | minus h =>
      rw [offset?_of_minus h]
      exact signed?_eq_some rfl hrange

/-- A decimal number is read in the same way as an offset and as an operand, in range or not. -/
theorem immediate?_eq_offset? {s : Text} {v : Int} (h : Literal.Decimal s v) :
    immediate? s = offset? s := by
  cases h with
  | @bare _ n h =>
    have hdigit := isDigit_of_digits h
    have hread : natural? 10 s = some n := (natural?_eq_some_iff (by decide)).2 h
    rw [immediate?_of_split (splitSign_of_isDigit hdigit) (splitBase_of_isDigit hdigit), hread,
      Option.bind_some, offset?_of_digits h]
  | @minus ds n h =>
    have hsign : splitSign ('-' :: ds) = (true, ds) := rfl
    have hread : natural? 10 ds = some n := (natural?_eq_some_iff (by decide)).2 h
    rw [immediate?_of_split hsign (splitBase_of_isDigit (isDigit_of_digits h)), hread,
      Option.bind_some, offset?_of_minus h]

theorem parenthesis_notMem_of_decimal {s : Text} {v : Int} (h : Literal.Decimal s v) :
    '(' ∉ s := by
  intro hmem
  cases h with
  | bare h => exact absurd (isDigit_of_digits h '(' hmem) (by decide)
  | minus h =>
    rcases List.mem_cons.1 hmem with hsign | hmem
    · cases hsign
    · exact absurd (isDigit_of_digits h '(' hmem) (by decide)

/-! ## Parentheses -/

theorem splitAddress?_eq_some_iff {token a b : Text} :
    splitAddress? token = some (a, b) ↔ '(' ∉ a ∧ token = a ++ '(' :: b ++ [')'] := by
  constructor
  · intro h
    unfold splitAddress? at h
    split at h
    · rename_i hlast
      split at h
      · cases h
      · rename_i c base hdrop
        obtain ⟨rfl, rfl⟩ := Prod.mk.inj (Option.some.inj h)
        have hopen : c = '(' := by
          have hhead := List.head?_dropWhile_not (· != '(') token.dropLast
          simpa [hdrop] using hhead
        have hcut := List.takeWhile_append_dropWhile (p := (· != '(')) (l := token.dropLast)
        rw [hdrop, hopen] at hcut
        refine ⟨fun hmem => ?_, ?_⟩
        · simpa using List.mem_takeWhile_imp hmem
        · rw [hcut]
          exact (List.dropLast_append_getLast? ')' hlast).symm
    · cases h
  · rintro ⟨ha, rfl⟩
    exact splitAddress?_append ha b

/-- A text has one parenthesis to be cut at, so that the offset and the base in it are unique. -/
theorem addressed_append_iff {s base r : Text} {offset : Int} (hs : '(' ∉ s) :
    Addressed (s ++ '(' :: base ++ [')']) offset r ↔
      r = base ∧ Literal.Decimal s offset ∧ -2 ^ 63 ≤ offset ∧ offset ≤ 2 ^ 63 - 1 := by
  constructor
  · rintro ⟨s', htoken, hs', hrange⟩
    have hcut := splitAddress?_eq_some_iff.2 ⟨parenthesis_notMem_of_decimal hs', htoken⟩
    rw [splitAddress?_append hs] at hcut
    obtain ⟨rfl, rfl⟩ := Prod.mk.inj (Option.some.inj hcut)
    exact ⟨rfl, hs', hrange⟩
  · rintro ⟨rfl, hs', hrange⟩
    exact ⟨s, rfl, hs', hrange⟩

theorem address_of_addressed {token base : Text} {offset : Int}
    (h : Addressed token offset base) (hbase : isBaseText base = true) :
    address token = (register base).map fun r => ⟨offset, r⟩ := by
  obtain ⟨s, htoken, hs, hrange⟩ := h
  have hsplit := splitAddress?_eq_some_iff.2 ⟨parenthesis_notMem_of_decimal hs, htoken⟩
  have hoffset := offset?_eq_some_iff.2 ⟨hs, isSigned64_iff.2 hrange⟩
  simp only [address, hsplit, hoffset, hbase]

theorem address_of_not_addressed {token : Text}
    (h : ¬∃ offset base, Addressed token offset base ∧ isBaseText base = true) :
    address token = .error (.invalidAddress token) := by
  unfold address
  split
  · rfl
  · rename_i s base hsplit
    split
    · rename_i offset hoffset hbase
      obtain ⟨hs, hrange⟩ := offset?_eq_some_iff.1 hoffset
      have htoken := (splitAddress?_eq_some_iff.1 hsplit).2
      exact absurd ⟨offset, base, ⟨s, htoken, hs, isSigned64_iff.1 hrange⟩, hbase⟩ h
    · rfl

theorem address_eq_ok_iff {token : Text} {offset : Int} {base : Register} :
    address token = .ok ⟨offset, base⟩ ↔
      ∃ r, Addressed token offset r ∧ (r, base) ∈ Register.spellings := by
  constructor
  · intro h
    by_cases hform : ∃ offset r, Addressed token offset r ∧ isBaseText r = true
    · obtain ⟨offset', r, hr, hbase⟩ := hform
      rw [address_of_addressed hr hbase] at h
      obtain ⟨base', hread, heq⟩ := map_eq_ok.1 h
      obtain ⟨rfl, rfl⟩ := Address.mk.inj heq
      exact ⟨r, hr, register_eq_ok_iff.1 hread⟩
    · rw [address_of_not_addressed hform] at h
      cases h
  · rintro ⟨r, hr, hmem⟩
    rw [address_of_addressed hr (isBaseText_of_mem_spellings hmem), register_eq_ok_iff.2 hmem]
    rfl

theorem address_eq_unknownRegister_iff {token r : Text} :
    address token = .error (.unknownRegister r) ↔
      ∃ offset, Addressed token offset r ∧ isBaseText r = true ∧
        ∀ base, (r, base) ∉ Register.spellings := by
  constructor
  · intro h
    by_cases hform : ∃ offset r, Addressed token offset r ∧ isBaseText r = true
    · obtain ⟨offset, r', hr, hbase⟩ := hform
      rw [address_of_addressed hr hbase] at h
      obtain ⟨hname, hno⟩ := register_eq_error_iff.1 (map_eq_error.1 h)
      obtain rfl := Fault.unknownRegister.inj hname
      exact ⟨offset, hr, hbase, hno⟩
    · rw [address_of_not_addressed hform] at h
      cases h
  · rintro ⟨offset, hr, hbase, hno⟩
    rw [address_of_addressed hr hbase, register_eq_error_iff.2 ⟨rfl, hno⟩]
    rfl

theorem address_eq_invalidAddress_iff {token : Text} :
    address token = .error (.invalidAddress token) ↔
      ¬∃ offset r, Addressed token offset r ∧ isBaseText r = true := by
  refine ⟨?_, address_of_not_addressed⟩
  rintro h ⟨offset, r, hr, hbase⟩
  rw [address_of_addressed hr hbase, map_eq_error] at h
  cases (register_eq_error_iff.1 h).1

/-- **The reader of addresses accepts exactly the grammar.** A text is read as an address if it is
an offset and, in parentheses, a spelling of the base register. It has an unknown register if it is
an offset and, in parentheses, any other text without parentheses. Otherwise all of it is invalid. A
decimal number, in range or not, is read alike as the offset of an address and as an operand. -/
theorem address_reads_offset_and_base :
    (∀ (token : Text) (offset : Int) (base : Register),
      address token = .ok ⟨offset, base⟩ ↔
        ∃ r, Addressed token offset r ∧ (r, base) ∈ Register.spellings) ∧
    (∀ token r : Text,
      address token = .error (.unknownRegister r) ↔
        ∃ offset, Addressed token offset r ∧ (r ≠ [] ∧ '(' ∉ r ∧ ')' ∉ r) ∧
          ∀ base, (r, base) ∉ Register.spellings) ∧
    (∀ token : Text,
      address token = .error (.invalidAddress token) ↔
        ¬(∃ offset r base, Addressed token offset r ∧ (r, base) ∈ Register.spellings) ∧
        ¬∃ offset r, Addressed token offset r ∧ (r ≠ [] ∧ '(' ∉ r ∧ ')' ∉ r) ∧
          ∀ base, (r, base) ∉ Register.spellings) ∧
    ∀ (s : Text) (v offset : Int), Literal.Decimal s v →
      (immediate s = .ok offset ↔ address (s ++ "(x0)".toList) = .ok ⟨offset, .zero⟩) := by
  refine ⟨fun _ _ _ => address_eq_ok_iff, fun token r => ?_, fun token => ?_, ?_⟩
  · rw [address_eq_unknownRegister_iff]
    simp only [isBaseText_iff]
  · rw [address_eq_invalidAddress_iff, ← not_or, not_iff_not]
    simp only [← isBaseText_iff]
    constructor
    · rintro ⟨offset, r, hr, hbase⟩
      by_cases hmem : ∃ base, (r, base) ∈ Register.spellings
      · obtain ⟨base, hmem⟩ := hmem
        exact .inl ⟨offset, r, base, hr, hmem⟩
      · exact .inr ⟨offset, r, hr, hbase, not_exists.1 hmem⟩
    · rintro (⟨offset, r, base, hr, hmem⟩ | ⟨offset, r, hr, hbase, -⟩)
      · exact ⟨offset, r, hr, isBaseText_of_mem_spellings hmem⟩
      · exact ⟨offset, r, hr, hbase⟩
  · intro s v offset hs
    have htoken : s ++ "(x0)".toList = s ++ '(' :: "x0".toList ++ [')'] := by simp
    have hzero : ("x0".toList, Register.zero) ∈ Register.spellings := by decide +kernel
    rw [immediate_eq_ok_iff, immediate?_eq_offset? hs, offset?_eq_some_iff, isSigned64_iff,
      address_eq_ok_iff, htoken]
    simp only [addressed_append_iff (parenthesis_notMem_of_decimal hs)]
    constructor
    · intro h
      exact ⟨"x0".toList, ⟨rfl, h⟩, hzero⟩
    · rintro ⟨r, ⟨-, h⟩, -⟩
      exact h

/-- The least offset, and one below it that both readers refuse. -/
theorem address_reads_offset_and_base_least :
    Literal.Decimal "-9223372036854775808".toList (-9223372036854775808) ∧
    Literal.Decimal "-9223372036854775809".toList (-9223372036854775809) ∧
    (immediate "-9223372036854775808".toList = .ok (-9223372036854775808) ↔
      address "-9223372036854775808(x0)".toList = .ok ⟨-9223372036854775808, .zero⟩) ∧
    ¬∃ offset, address "-9223372036854775809(x0)".toList = .ok ⟨offset, .zero⟩ := by
  have hleast : Literal.Decimal "-9223372036854775808".toList (-9223372036854775808) :=
    .minus ((natural?_eq_some_iff (by decide)).1 (by decide))
  have hbelow : Literal.Decimal "-9223372036854775809".toList (-9223372036854775809) :=
    .minus ((natural?_eq_some_iff (by decide)).1 (by decide))
  refine ⟨hleast, hbelow, address_reads_offset_and_base.2.2.2 _ _ _ hleast, ?_⟩
  rintro ⟨offset, h⟩
  have hread := (address_reads_offset_and_base.2.2.2 _ _ offset hbelow).2 h
  have hrefused : immediate? "-9223372036854775809".toList = none := by decide
  rw [immediate_eq_ok_iff, hrefused] at hread
  cases hread

example : address "+4(sp)".toList = .error (.invalidAddress "+4(sp)".toList) := by decide
example : address "4(x32)".toList = .error (.unknownRegister "x32".toList) := by decide

end Operand
end RiscvRom
