import RiscvRom.Instruction

/-! Reading an instruction as it is written.

Operands that were read have the shape that the mnemonic asks for. The tokens of a text are found by
cutting it at a separator: what stands before the cut is a token if it is not empty, and the rest is
cut in the same way. -/

namespace RiscvRom

/-! ## Results that may be faults -/

theorem bind_eq_ok {ε α β : Type} {x : Except ε α} {f : α → Except ε β} {b : β} :
    x.bind f = .ok b ↔ ∃ a, x = .ok a ∧ f a = .ok b := by
  cases x <;> simp [Except.bind]

theorem map_eq_ok {ε α β : Type} {x : Except ε α} {f : α → β} {b : β} :
    x.map f = .ok b ↔ ∃ a, x = .ok a ∧ f a = b := by
  cases x <;> simp [Except.map]

theorem map_eq_error {ε α β : Type} {x : Except ε α} {f : α → β} {e : ε} :
    x.map f = .error e ↔ x = .error e := by
  cases x <;> simp [Except.map]

theorem mapError_eq_ok {ε ε' α : Type} {f : ε → ε'} {x : Except ε α} {a : α} :
    x.mapError f = .ok a ↔ x = .ok a := by
  cases x with
  | error e => exact ⟨nofun, nofun⟩
  | ok b =>
    constructor
    · intro h
      cases h
      rfl
    · intro h
      cases h
      rfl

/-! ## Cutting a list -/

theorem splitWhere_append {α : Type} {p : α → Bool} {s : α} (hs : p s = true) (a r : List α) :
    splitWhere p (a ++ s :: r) = splitWhere p a ++ splitWhere p r := by
  induction a with
  | nil =>
    rw [List.nil_append, splitWhere_cons]
    cases hr : splitWhere p r with
    | nil => exact absurd hr (splitWhere_ne_nil p r)
    | cons part parts => simp [pushFront, hs]
  | cons x a ih =>
    rw [List.cons_append, splitWhere_cons, splitWhere_cons, ih]
    cases ha : splitWhere p a with
    | nil => exact absurd ha (splitWhere_ne_nil p a)
    | cons part parts =>
      rw [List.cons_append, pushFront, pushFront]
      split <;> rfl

/-- What holds no cut goes in front of the first stretch. -/
theorem splitWhere_append_of_forall {α : Type} {p : α → Bool} {a r part : List α}
    {parts : List (List α)} (ha : ∀ x ∈ a, p x = false) (hr : splitWhere p r = part :: parts) :
    splitWhere p (a ++ r) = (a ++ part) :: parts := by
  induction a with
  | nil => exact hr
  | cons x a ih =>
    have hx := ha x List.mem_cons_self
    rw [List.cons_append, splitWhere_cons, ih fun y hy => ha y (List.mem_cons_of_mem x hy)]
    simp [pushFront, hx]

theorem splitWhere_of_forall {α : Type} {p : α → Bool} {a : List α}
    (ha : ∀ x ∈ a, p x = false) : splitWhere p a = [a] := by
  have h := splitWhere_append_of_forall ha (splitWhere_nil p)
  rwa [List.append_nil] at h

theorem splitWhere_append_cons {α : Type} {p : α → Bool} {a : List α} {s : α} {r : List α}
    (ha : ∀ x ∈ a, p x = false) (hs : p s = true) :
    splitWhere p (a ++ s :: r) = a :: splitWhere p r := by
  rw [splitWhere_append hs, splitWhere_of_forall ha, List.singleton_append]

theorem beq_eq_false_of_notMem {α : Type} [DecidableEq α] {s : α} {a : List α} (h : s ∉ a) :
    ∀ x ∈ a, (x == s) = false := by
  intro x hx
  rw [beq_eq_false_iff_ne]
  rintro rfl
  exact h hx

theorem splitWhere_intercalate {α : Type} [DecidableEq α] {s : α} {ls : List (List α)}
    (hne : ls ≠ []) (h : ∀ l ∈ ls, s ∉ l) : splitWhere (· == s) ([s].intercalate ls) = ls := by
  induction ls with
  | nil => exact absurd rfl hne
  | cons l ls ih =>
    have hl := beq_eq_false_of_notMem (h l List.mem_cons_self)
    cases ls with
    | nil => simpa using splitWhere_of_forall hl
    | cons l' ls =>
      have hrest := ih (by simp) fun x hx => h x (List.mem_cons_of_mem l hx)
      have hjoin : [s].intercalate (l :: l' :: ls) = l ++ s :: [s].intercalate (l' :: ls) := by
        simp [List.intercalate_cons_cons]
      rw [hjoin, splitWhere_append_cons hl (beq_self_eq_true s), hrest]

namespace Instruction

/-- A text that is one token. -/
def IsToken (t : Text) : Prop := t ≠ [] ∧ ∀ c ∈ t, isSeparator c = false

theorem tokens_cons_separator {s : Char} (hs : isSeparator s = true) (r : Text) :
    tokens (s :: r) = tokens r := by
  have h := splitWhere_append_cons (a := []) (r := r) (by simp) hs
  rw [List.nil_append] at h
  simp [tokens, h]

theorem tokens_append {t : Text} (ht : IsToken t) {s : Char} (hs : isSeparator s = true)
    (r : Text) : tokens (t ++ s :: r) = t :: tokens r := by
  simp [tokens, splitWhere_append_cons ht.2 hs, ht.1]

theorem tokens_of_isToken {t : Text} (ht : IsToken t) : tokens t = [t] := by
  simp [tokens, splitWhere_of_forall ht.2, ht.1]

/-! ## The shape of what was read -/

theorem shape_of_readOperands {m : Mnemonic} {ts : List Text} {ops : Operands}
    (h : readOperands m ts = .ok ops) : ops.shape = m.shape := by
  unfold readOperands at h
  split at h <;> rename_i hm <;>
    simp only [bind, pure, Except.pure, bind_eq_ok, Except.ok.injEq, reduceCtorEq] at h
  case h_1 =>
    obtain ⟨rd, -, rs1, -, rs2, -, rfl⟩ := h
    exact hm.symm
  case h_2 =>
    obtain ⟨rd, -, rs1, -, imm, -, rfl⟩ := h
    exact hm.symm
  case h_3 =>
    obtain ⟨rd, -, address, -, rfl⟩ := h
    exact hm.symm
  case h_4 =>
    obtain ⟨rs2, -, address, -, rfl⟩ := h
    exact hm.symm
  case h_5 =>
    obtain ⟨rd, -, rs1, -, imm, -, rfl⟩ := h
    exact hm.symm
  case h_6 =>
    obtain ⟨rs1, -, rs2, -, rfl⟩ := h
    exact hm.symm
  case h_7 =>
    obtain ⟨rd, -, imm, -, rfl⟩ := h
    exact hm.symm
  case h_8 =>
    obtain ⟨rd, -, rfl⟩ := h
    exact hm.symm
  case h_9 =>
    subst h
    exact hm.symm

theorem shape_of_parse {t : Text} {i : Instruction} (h : parse t = .ok i) :
    i.operands.shape = i.mnemonic.shape := by
  unfold parse ofTokens at h
  split at h
  · cases h
  · split at h
    · cases h
    · obtain ⟨ops, hops, rfl⟩ := map_eq_ok.1 h
      exact shape_of_readOperands hops

end Instruction
end RiscvRom
