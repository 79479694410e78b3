import Mathlib.Data.List.Basic

/-!
The length of a longest common sublist, by the recurrence over the heads of the two lists.
-/

namespace Z23.Lib

variable {α : Type} {xs ys : List α} {x y : α} {k a b : Nat}

structure IsLcs (xs ys : List α) (k : Nat) : Prop where
  reached : ∃ common : List α, common.Sublist xs ∧ common.Sublist ys ∧ common.length = k
  longest : ∀ common : List α, common.Sublist xs → common.Sublist ys → common.length ≤ k

namespace IsLcs

theorem unique (left : IsLcs xs ys a) (right : IsLcs xs ys b) : a = b := by
  obtain ⟨common, first, second, rfl⟩ := left.reached
  obtain ⟨common', first', second', rfl⟩ := right.reached
  exact Nat.le_antisymm (right.longest common first second) (left.longest common' first' second')

theorem nil_left (ys : List α) : IsLcs [] ys 0 where
  reached := ⟨[], List.nil_sublist _, List.nil_sublist _, rfl⟩
  longest := by
    intro common first _
    rw [List.sublist_nil.mp first]
    exact Nat.le_refl _

theorem nil_right (xs : List α) : IsLcs xs [] 0 where
  reached := ⟨[], List.nil_sublist _, List.nil_sublist _, rfl⟩
  longest := by
    intro common _ second
    rw [List.sublist_nil.mp second]
    exact Nat.le_refl _

theorem cons_same (rest : IsLcs xs ys k) : IsLcs (x :: xs) (x :: ys) (k + 1) where
  reached := by
    obtain ⟨common, first, second, rfl⟩ := rest.reached
    exact ⟨x :: common, first.cons_cons x, second.cons_cons x, rfl⟩
  longest := by
    intro common first second
    cases common with
    | nil => exact Nat.zero_le _
    | cons c common =>
      exact Nat.succ_le_succ (rest.longest common
        (List.Sublist.tail first) (List.Sublist.tail second))

/-- A common sublist leaves out one of two different heads. -/
theorem cons_other (differ : x ≠ y) (left : IsLcs xs (y :: ys) a) (right : IsLcs (x :: xs) ys b)
    : IsLcs (x :: xs) (y :: ys) (max a b) where
  reached := by
    rcases Nat.le_total a b with below | above
    · obtain ⟨common, first, second, rfl⟩ := right.reached
      exact ⟨common, first, second.cons y, (Nat.max_eq_right below).symm⟩
    · obtain ⟨common, first, second, rfl⟩ := left.reached
      exact ⟨common, first.cons x, second, (Nat.max_eq_left above).symm⟩
  longest := by
    intro common first second
    cases first with
    | cons _ shorter =>
      exact Nat.le_trans (left.longest common shorter second) (Nat.le_max_left a b)
    | cons_cons _ inFirst =>
      cases second with
      | cons _ shorter =>
        exact Nat.le_trans (right.longest _ (inFirst.cons_cons x) shorter)
          (Nat.le_max_right a b)
      | cons_cons _ _ => exact absurd rfl differ

end IsLcs

end Z23.Lib
