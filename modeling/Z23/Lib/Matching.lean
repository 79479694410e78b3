import Mathlib.Data.List.Forall2
import Mathlib.Data.List.NodupEquivFin

/-!
Matching the elements of one list to elements of another in order. A scan that takes the first
element it may finds a match whenever there is one.
-/

namespace Z23.Lib.Matching

open List

section

variable {α β : Type} {R : α → β → Prop} {as : List α} {bs : List β}

/-- Every element of the one list has its own element of the other, in the same order. -/
def Increasing (R : α → β → Prop) (as : List α) (bs : List β) : Prop :=
  ∃ f : Fin as.length → Fin bs.length, StrictMono f ∧ ∀ i, R (as.get i) (bs.get (f i))

theorem increasing_iff : Increasing R as bs ↔ SublistForall₂ R as bs := by
  rw [sublistForall₂_iff]
  constructor
  · intro increasing
    obtain ⟨f, mono, related⟩ := increasing
    refine ⟨ofFn fun i => bs.get (f i), ?_, ?_⟩
    · refine forall₂_iff_get.mpr ⟨by rw [length_ofFn], ?_⟩
      intro i inside _
      simpa using related ⟨i, inside⟩
    · refine sublist_iff_exists_fin_orderEmbedding_get_eq.mpr ?_
      refine ⟨OrderEmbedding.ofStrictMono (fun i => f (i.cast (length_ofFn ..))) ?_, ?_⟩
      · exact fun i j before => mono before
      · exact fun i => get_ofFn _ i
  · intro matched
    obtain ⟨middle, related, sublist⟩ := matched
    obtain ⟨f, same⟩ := sublist_iff_exists_fin_orderEmbedding_get_eq.mp sublist
    obtain ⟨length, pairs⟩ := forall₂_iff_get.mp related
    refine ⟨fun i => f (i.cast length), fun i j before => f.strictMono before, ?_⟩
    intro i
    rw [← same]
    exact pairs i i.isLt (by rw [← length]; exact i.isLt)

theorem sublistForall₂_reverse
    : SublistForall₂ R as.reverse bs.reverse ↔ SublistForall₂ R as bs := by
  rw [sublistForall₂_iff, sublistForall₂_iff]
  constructor
  · intro matched
    obtain ⟨middle, related, sublist⟩ := matched
    refine ⟨middle.reverse, ?_, ?_⟩
    · exact forall₂_reverse_iff.mp (by rwa [reverse_reverse])
    · exact reverse_sublist.mp (by rwa [reverse_reverse])
  · intro matched
    obtain ⟨middle, related, sublist⟩ := matched
    exact ⟨middle.reverse, forall₂_reverse_iff.mpr related, reverse_sublist.mpr sublist⟩

theorem sublistForall₂_length (matched : SublistForall₂ R as bs) : as.length ≤ bs.length := by
  obtain ⟨middle, related, sublist⟩ := sublistForall₂_iff.mp matched
  rw [related.length_eq]
  exact sublist.length_le

/-- Without its first element the list is still matched. -/
theorem sublistForall₂_of_cons {a : α} (matched : SublistForall₂ R (a :: as) bs)
    : SublistForall₂ R as bs := by
  obtain ⟨middle, related, sublist⟩ := sublistForall₂_iff.mp matched
  cases related with
  | cons _ rest => exact sublistForall₂_iff.mpr ⟨_, rest, (sublist_cons_self _ _).trans sublist⟩

end

section

variable {α β : Type} (accepts : α → β → Bool)

/-- Goes through the second list and takes the first element of the first off at each match. -/
def greedy : List α → List β → Bool
  | [], _ => true
  | _ :: _, [] => false
  | a :: as, b :: bs => if accepts a b then greedy as bs else greedy (a :: as) bs

theorem greedy_iff (as : List α) (bs : List β)
    : greedy accepts as bs = true ↔ SublistForall₂ (fun a b => accepts a b = true) as bs := by
  induction bs generalizing as with
  | nil =>
    cases as with
    | nil => exact iff_of_true rfl .nil
    | cons a as =>
      refine iff_of_false Bool.false_ne_true ?_
      intro matched
      exact absurd (sublistForall₂_length matched) (Nat.not_succ_le_zero _)
  | cons b bs ih =>
    cases as with
    | nil => exact iff_of_true rfl .nil
    | cons a as =>
      rw [greedy]
      split
      · rename_i taken
        rw [ih]
        constructor
        · exact fun matched => .cons taken matched
        · intro matched
          cases matched with
          | cons _ rest => exact rest
          -- a match that leaves the element out can use it as well
          | cons_right rest => exact sublistForall₂_of_cons rest
      · rename_i refused
        rw [ih]
        constructor
        · exact fun matched => .cons_right matched
        · intro matched
          cases matched with
          | cons here _ => exact absurd here refused
          | cons_right rest => exact rest

theorem greedy_of_longer {as : List α} {bs : List β} (longer : bs.length < as.length)
    : greedy accepts as bs = false := by
  rw [Bool.eq_false_iff, Ne, greedy_iff]
  intro matched
  exact absurd (sublistForall₂_length matched) (Nat.not_le.mpr longer)

end

end Z23.Lib.Matching
