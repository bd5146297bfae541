import RiscvRom.Text.Basic

/-! Cutting a list at the elements that satisfy a test.

`splitWhere p l` is the stretches of `l` between those elements, in order, empty ones included:
always one more than there are cuts. Lines, tokens and the pieces of a path are all cut this way.
-/

namespace RiscvRom

/-- Puts an element in front of the first stretch, or opens a new stretch before it. -/
def pushFront {α : Type} (p : α → Bool) (a : α) : List (List α) → List (List α)
  | [] => if p a then [[], []] else [[a]]
  | part :: parts => if p a then [] :: part :: parts else (a :: part) :: parts

def splitWhere {α : Type} (p : α → Bool) (l : List α) : List (List α) :=
  l.foldr (pushFront p) [[]]

@[simp] theorem splitWhere_nil {α : Type} (p : α → Bool) : splitWhere p [] = [[]] := rfl

theorem splitWhere_cons {α : Type} (p : α → Bool) (a : α) (l : List α) :
    splitWhere p (a :: l) = pushFront p a (splitWhere p l) := rfl

theorem splitWhere_ne_nil {α : Type} (p : α → Bool) (l : List α) : splitWhere p l ≠ [] := by
  induction l with
  | nil => simp
  | cons a l ih =>
    rw [splitWhere_cons]
    cases h : splitWhere p l with
    | nil => exact absurd h ih
    | cons part parts => by_cases ha : p a <;> simp [pushFront, ha]

/-- No stretch holds an element that satisfies the test. -/
theorem not_of_mem_splitWhere {α : Type} (p : α → Bool) (l : List α) :
    ∀ part ∈ splitWhere p l, ∀ a ∈ part, p a = false := by
  induction l with
  | nil => simp
  | cons a l ih =>
    rw [splitWhere_cons]
    cases h : splitWhere p l with
    | nil => exact absurd h (splitWhere_ne_nil p l)
    | cons part parts =>
      rw [h] at ih
      have hpart := ih part List.mem_cons_self
      have hparts := fun q hq => ih q (List.mem_cons_of_mem part hq)
      by_cases ha : p a <;> simp only [pushFront, ha] <;> grind

end RiscvRom
