import RiscvRom.Proofs.PaddedImage

/-! The slice of the address that selects a slot.

A module declares the bits of its address port and reads the memory at a slice of them. The depth is
a power of two, so the slice from bit 2 on is the number of the slot that a byte address stands for.
This is so up to a depth of `2 ^ 30`, where the slice ends at the highest bit of the port. A deeper
memory is not refused; its slice goes beyond the port, and not all of its slots have an address. -/

namespace RiscvRom.Rom

/-- Two indices `a:b` between the texts `start` and `stop`. -/
def indices? (start stop code : Text) : Option (Nat × Nat) :=
  ((Text.trim code).dropPrefix? start).bind fun t =>
    ((t.dropWhile (· != ':')).dropPrefix? ":".toList).bind fun u =>
      if u.dropWhile (· != ']') = stop then
        (Text.natural? 10 (t.takeWhile (· != ':'))).bind fun a =>
          (Text.natural? 10 (u.takeWhile (· != ']'))).map fun b => (a, b)
      else none

/-- The bits of the address port that a module declares. -/
def addressPort? (t : Text) : Option (Nat × Nat) :=
  (codeLines t).findSome? (indices? "input wire [".toList "] addr,".toList)

/-- The bits of the address at which a module reads its memory. -/
def addressSlice? (t : Text) : Option (Nat × Nat) :=
  (codeLines t).findSome? (indices? "assign inst = rom[addr[".toList "]];".toList)

/-! ## Depths -/

theorem length_takeWhile_range (k n : Nat) :
    ((List.range n).takeWhile fun j => !decide (k = j)).length = min k n := by
  induction n with
  | zero => simp
  | succ n ih =>
    rw [List.range_succ, List.takeWhile_append, ih, List.length_range]
    by_cases h : k < n
    · rw [if_neg (by omega), ih]
      omega
    · rw [if_pos (by omega), List.length_append, List.length_range, List.takeWhile_cons]
      by_cases hk : k = n
      · simp [hk]
      · simp [hk]
        omega

theorem trailingZeros_two_pow (k : Nat) : trailingZeros (2 ^ k) = min k 64 := by
  simp only [trailingZeros, Nat.testBit_two_pow]
  exact length_takeWhile_range k 64

namespace Geometry

variable {g : Geometry} {required : Nat}

theorem topAddressBit_of_depth {k : Nat} (h : g.depth = 2 ^ k) :
    g.topAddressBit = min k 64 + 1 := by
  rw [topAddressBit, h, trailingZeros_two_pow]

/-- The slice lies inside a port of 32 bits just as far as byte addresses do. -/
theorem topAddressBit_le_iff (h : g.check required = .ok ()) :
    g.topAddressBit ≤ 31 ↔ g.depth ≤ 2 ^ 30 := by
  obtain ⟨k, -, hdepth⟩ := isValidDepth_iff.1 (check_eq_ok_iff.1 h).1
  rw [topAddressBit_of_depth hdepth, hdepth, Nat.pow_le_pow_iff_right (by decide)]
  omega

theorem two_le_topAddressBit (h : g.check required = .ok ()) : 2 ≤ g.topAddressBit := by
  obtain ⟨k, hk, hdepth⟩ := isValidDepth_iff.1 (check_eq_ok_iff.1 h).1
  rw [topAddressBit_of_depth hdepth]
  omega

/-- The slice of an address is the number of its word, as far as the depth goes. -/
theorem toNat_slice (h : g.check required = .ok ()) (hdepth : g.depth ≤ 2 ^ 30) (a : BitVec 32) :
    (a.extractLsb g.topAddressBit 2).toNat = a.toNat / 4 % g.depth := by
  obtain ⟨k, hk, hpow⟩ := isValidDepth_iff.1 (check_eq_ok_iff.1 h).1
  have hbits : g.topAddressBit - 2 + 1 = k := by
    have htop := (topAddressBit_le_iff h).2 hdepth
    rw [topAddressBit_of_depth hpow] at htop ⊢
    omega
  rw [BitVec.extractLsb_toNat, Nat.shiftRight_eq_div_pow, hbits, hpow]

theorem forall_slots_iff (h : g.check required = .ok ()) :
    (∀ i < g.depth, 4 * i < 2 ^ 32) ↔ g.depth ≤ 2 ^ 30 := by
  obtain ⟨k, hk, hpow⟩ := isValidDepth_iff.1 (check_eq_ok_iff.1 h).1
  constructor
  · intro hslots
    -- the last slot decides
    have hpos : 0 < g.depth := hpow ▸ Nat.two_pow_pos k
    have hlast := hslots (g.depth - 1) (by omega)
    omega
  · intro hdepth i hi
    omega

end Geometry

/-! ## What the module says -/

theorem indices?_of_trim {code start stop : Text} {a b : Nat}
    (h : Text.trim code =
      start ++ (Text.decimal a ++ ':' :: (Text.decimal b ++ ']' :: stop))) :
    indices? start (']' :: stop) code = some (a, b) := by
  have hfirst := span_append (notMem_decimal (c := ':') (by decide) a)
    (Text.decimal b ++ ']' :: stop)
  have hsecond := span_append (notMem_decimal (c := ']') (by decide) b) stop
  have hcolon := dropPrefix?_self_append ":".toList (Text.decimal b ++ ']' :: stop)
  rw [indices?, h, dropPrefix?_self_append, Option.bind_some, hfirst.1, hfirst.2]
  refine (congrArg (Option.bind · _) hcolon).trans ?_
  rw [Option.bind_some, hsecond.1, hsecond.2, if_pos rfl, Text.natural?_decimal,
    Text.natural?_decimal]
  rfl

/-- A line that starts with another letter. -/
theorem indices?_of_ne {b t start stop : Text} {c d : Char} (hb : Text.AllBlank b)
    (hc : Text.isBlank c = false) (hcd : c ≠ d) :
    indices? (d :: start) stop (b ++ c :: t) = none := by
  rw [indices?, Text.trim_blank_append hb, Text.trim_cons hc, dropPrefix?_cons_of_ne hcd,
    Option.bind_none]

theorem codeLines_moduleLines {g : Geometry} (hname : Identifier.isValid g.moduleName = true)
    (records : List Record) :
    ∃ rest, codeLines (Text.unlines (moduleLines g records)) =
      (headLines g).map uncommented ++ rest := by
  have hhead : ∀ l ∈ headLines g, '\n' ∉ l :=
    fun _ hl => (headLines_idle hl).2 (newline_notMem_of_isValid hname)
  rw [moduleLines_eq, codeLines, physicalLines_unlines_append hhead, List.map_append]
  exact ⟨_, rfl⟩

theorem findSome?_port (g : Geometry) :
    ((headLines g).map uncommented).findSome? (indices? "input wire [".toList "] addr,".toList) =
      some (31, 0) := by
  have hmodule : indices? "input wire [".toList "] addr,".toList
      (uncommented ("module ".toList ++ g.moduleName ++ "(".toList)) = none :=
    indices?_of_ne (b := []) (c := 'm') (by decide) (by decide) (by decide)
  change List.findSome? _ (_ :: _ :: _) = _
  rw [List.findSome?_cons_of_isNone (by rfl), List.findSome?_cons_of_isNone (by rw [hmodule]; rfl)]
  rfl

theorem findSome?_slice (g : Geometry) :
    ((headLines g).map uncommented).findSome?
      (indices? "assign inst = rom[addr[".toList "]];".toList) = some (g.topAddressBit, 2) := by
  have hmodule : indices? "assign inst = rom[addr[".toList "]];".toList
      (uncommented ("module ".toList ++ g.moduleName ++ "(".toList)) = none :=
    indices?_of_ne (b := []) (c := 'm') (by decide) (by decide) (by decide)
  have hmemory : indices? "assign inst = rom[addr[".toList "]];".toList
      (uncommented ("    reg [31:0] rom [0:".toList ++ Text.decimal (g.depth - 1) ++ "];".toList)) =
        none :=
    indices?_of_ne (b := "    ".toList) (c := 'r') (by decide) (by decide) (by decide)
  have hread : indices? "assign inst = rom[addr[".toList "]];".toList
      (uncommented ("    assign inst = rom[addr[".toList ++ Text.decimal g.topAddressBit ++
        ":2]];".toList)) = some (g.topAddressBit, 2) := by
    have hline : "    assign inst = rom[addr[".toList ++ Text.decimal g.topAddressBit ++
        ":2]];".toList = "    ".toList ++ ("assign inst = rom[addr[".toList ++
          (Text.decimal g.topAddressBit ++ ":2]];".toList)) := by
      simp
    rw [uncommented_of_notMem (by simp [notMem_decimal]), hline]
    refine indices?_of_trim ?_
    rw [Text.trim_blank_append (by decide)]
    refine Text.trim_of_ends ?_ ?_
    · intro c hc
      obtain rfl : 'a' = c := by simpa using hc
      decide
    · have hlast : ":2]];".toList.getLast? = some ';' := rfl
      intro c hc
      simp only [List.getLast?_append, hlast, Option.some_or, Option.mem_some] at hc
      exact hc ▸ rfl
  change List.findSome? _ (_ :: _ :: _ :: _ :: _ :: _ :: _ :: _) = _
  rw [List.findSome?_cons_of_isNone (by rfl), List.findSome?_cons_of_isNone (by rw [hmodule]; rfl),
    List.findSome?_cons_of_isNone (by rfl), List.findSome?_cons_of_isNone (by rfl),
    List.findSome?_cons_of_isNone (by rfl), List.findSome?_cons_of_isNone (by rw [hmemory]; rfl),
    List.findSome?_cons_of_isSome (by rw [hread]; rfl), hread]

theorem addressBits_of_verilog {g : Geometry} {records : List Record} {text : Text}
    (h : verilog g records = .ok text) :
    addressPort? text = some (31, 0) ∧ addressSlice? text = some (g.topAddressBit, 2) := by
  obtain ⟨-, hname, rfl⟩ := verilog_eq_ok.1 h
  obtain ⟨rest, hcode⟩ := codeLines_moduleLines hname records
  rw [addressPort?, addressSlice?, hcode, List.findSome?_append, List.findSome?_append,
    findSome?_port, findSome?_slice]
  exact ⟨rfl, rfl⟩

/-- **The address slice of a module selects the slots**, as far as the address port reaches. Of an
accepted geometry, the slice starts at bit 2 and does not end below it. Up to a depth of `2 ^ 30`,
and no further, it ends inside the port, and every slot has a byte address. So far the slice of the
address of a slot is the slot, and that of any address is its word in the memory, over and over. -/
theorem slice_selects_slots {g : Geometry} {required : Nat} (h : g.check required = .ok ()) :
    (∀ records text, verilog g records = .ok text →
      addressPort? text = some (31, 0) ∧ addressSlice? text = some (g.topAddressBit, 2)) ∧
    2 ≤ g.topAddressBit ∧ (g.topAddressBit ≤ 31 ↔ g.depth ≤ 2 ^ 30) ∧
    ((∀ i < g.depth, 4 * i < 2 ^ 32) ↔ g.depth ≤ 2 ^ 30) ∧
    (g.depth ≤ 2 ^ 30 →
      (∀ i < g.depth, ((BitVec.ofNat 32 (4 * i)).extractLsb g.topAddressBit 2).toNat = i) ∧
      ∀ a : BitVec 32, (a.extractLsb g.topAddressBit 2).toNat = a.toNat / 4 % g.depth) := by
  refine ⟨fun _ _ => addressBits_of_verilog, Geometry.two_le_topAddressBit h,
    Geometry.topAddressBit_le_iff h, Geometry.forall_slots_iff h, fun hdepth => ⟨?_, ?_⟩⟩
  · intro i hi
    have hfits := (Geometry.forall_slots_iff h).2 hdepth i hi
    rw [Geometry.toNat_slice h hdepth, BitVec.toNat_ofNat, Nat.mod_eq_of_lt hfits,
      Nat.mul_div_cancel_left i (by decide), Nat.mod_eq_of_lt hi]
  · exact Geometry.toNat_slice h hdepth

/-- The deepest memory that the port can address: all its bits from 2 on select the slot. -/
theorem slice_selects_slots_deepest :
    Geometry.check ⟨standardModuleName, 2 ^ 30, nopWord⟩ 0 = .ok () ∧
    ∀ i < 2 ^ 30, ((BitVec.ofNat 32 (4 * i)).extractLsb 31 2).toNat = i := by
  have hcheck : Geometry.check ⟨standardModuleName, 2 ^ 30, nopWord⟩ 0 = .ok () := by
    decide +kernel
  have htop : Geometry.topAddressBit ⟨standardModuleName, 2 ^ 30, nopWord⟩ = 31 :=
    Geometry.topAddressBit_of_depth (k := 30) rfl
  have hslots := ((slice_selects_slots hcheck).2.2.2.2 (Nat.le_refl _)).1
  rw [htop] at hslots
  exact ⟨hcheck, hslots⟩

/-- A depth of `2 ^ 31` is accepted: the module reads its memory at a bit that the port does not
have, and half of the slots have no address. -/
theorem slice_beyond_port :
    Geometry.check ⟨standardModuleName, 2 ^ 31, nopWord⟩ 0 = .ok () ∧
    (∃ text, verilog ⟨standardModuleName, 2 ^ 31, nopWord⟩ [] = .ok text ∧
      addressPort? text = some (31, 0) ∧ addressSlice? text = some (32, 2)) ∧
    ¬ ∀ i < 2 ^ 31, 4 * i < 2 ^ 32 := by
  have hcheck : Geometry.check ⟨standardModuleName, 2 ^ 31, nopWord⟩ 0 = .ok () := by
    decide +kernel
  have htop : Geometry.topAddressBit ⟨standardModuleName, 2 ^ 31, nopWord⟩ = 32 :=
    Geometry.topAddressBit_of_depth (k := 31) rfl
  have hmodule : verilog ⟨standardModuleName, 2 ^ 31, nopWord⟩ [] = .ok _ :=
    verilog_eq_ok.2 ⟨hcheck, by decide +kernel, rfl⟩
  have hbits := addressBits_of_verilog hmodule
  rw [htop] at hbits
  refine ⟨hcheck, ⟨_, hmodule, hbits⟩, ?_⟩
  intro h
  exact absurd (h (2 ^ 30) (by decide)) (by decide)

end RiscvRom.Rom
