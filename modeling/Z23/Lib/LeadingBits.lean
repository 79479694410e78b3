import Mathlib.Data.Nat.Size
import Mathlib.Algebra.Order.Ring.Nat

/-!
Numbers with their low bits cleared, as many as their size says. As long as enough leading bits are
kept, the order, the size and the leading bits themselves survive, and the error is relatively
small.
-/

namespace Z23.Lib.LeadingBits

/-- The number of bits to clear never falls with the size, and leaves some leading bits. -/
structure Keeps (kept : Nat) (drop : Nat → Nat) : Prop where
  mono : Monotone drop
  leaves : ∀ size, drop size ≠ 0 → drop size + kept ≤ size

section

variable {drop : Nat → Nat}

def cleared (drop : Nat → Nat) (n : Nat) : Nat := n / 2 ^ drop n.size * 2 ^ drop n.size

theorem cleared_zero (drop : Nat → Nat) : cleared drop 0 = 0 := by
  rw [cleared, Nat.zero_div, Nat.zero_mul]

theorem cleared_le (drop : Nat → Nat) (n : Nat) : cleared drop n ≤ n := Nat.div_mul_le_self _ _

theorem error_lt (drop : Nat → Nat) (n : Nat) : n - cleared drop n < 2 ^ drop n.size := by
  have parts := Nat.div_add_mod n (2 ^ drop n.size)
  have rest := Nat.mod_lt n (Nat.two_pow_pos (drop n.size))
  rw [cleared, Nat.mul_comm]
  omega

theorem two_pow_le {n : Nat} (positive : n ≠ 0) : 2 ^ (n.size - 1) ≤ n := by
  have large : 0 < n.size := Nat.size_pos.mpr (Nat.pos_of_ne_zero positive)
  exact Nat.lt_size.mp (by omega)

section

variable {kept : Nat} (keeps : Keeps (kept + 1) drop)
include keeps

/-- With one bit more than so many kept, the error is below that part of the number. -/
theorem cleared_close {n : Nat} (positive : n ≠ 0) : (n - cleared drop n) * 2 ^ kept < n := by
  by_cases none : drop n.size = 0
  · have whole : cleared drop n = n := by
      rw [cleared, none, Nat.pow_zero, Nat.div_one, Nat.mul_one]
    rw [whole, Nat.sub_self, Nat.zero_mul]
    exact Nat.pos_of_ne_zero positive
  · have room := keeps.leaves n.size none
    calc (n - cleared drop n) * 2 ^ kept
        < 2 ^ drop n.size * 2 ^ kept :=
          Nat.mul_lt_mul_of_pos_right (error_lt drop n) (Nat.two_pow_pos kept)
      _ = 2 ^ (drop n.size + kept) := (Nat.pow_add 2 _ _).symm
      _ ≤ 2 ^ (n.size - 1) := Nat.pow_le_pow_right (by decide) (by omega)
      _ ≤ n := two_pow_le positive

/-- The highest bit is not cleared. -/
theorem two_pow_le_cleared {n : Nat} (positive : n ≠ 0) : 2 ^ (n.size - 1) ≤ cleared drop n := by
  have below : drop n.size ≤ n.size - 1 := by
    by_cases none : drop n.size = 0
    · omega
    · have room := keeps.leaves n.size none
      omega
  have split : 2 ^ (n.size - 1) = 2 ^ (n.size - 1 - drop n.size) * 2 ^ drop n.size := by
    rw [← Nat.pow_add, Nat.sub_add_cancel below]
  have quotient : 2 ^ (n.size - 1 - drop n.size) ≤ n / 2 ^ drop n.size := by
    rw [Nat.le_div_iff_mul_le (Nat.two_pow_pos _), ← split]
    exact two_pow_le positive
  rw [split, cleared]
  exact Nat.mul_le_mul_right _ quotient

theorem size_cleared (n : Nat) : (cleared drop n).size = n.size := by
  by_cases zero : n = 0
  · rw [zero, cleared_zero]
  · have large : 0 < n.size := Nat.size_pos.mpr (Nat.pos_of_ne_zero zero)
    apply Nat.le_antisymm (Nat.size_le_size (cleared_le drop n))
    have top := Nat.lt_size.mpr (two_pow_le_cleared keeps zero)
    omega

/-- Larger numbers stay larger. -/
theorem cleared_mono : Monotone (cleared drop) := by
  intro a b below
  have sizes := Nat.size_le_size below
  rcases Nat.lt_or_ge (drop a.size) (drop b.size) with fewer | same
  · have smaller : a.size < b.size := by
      by_contra not
      exact Nat.not_lt.mpr (keeps.mono (Nat.le_of_not_lt not)) fewer
    have positive : b ≠ 0 := by
      rintro rfl
      exact Nat.not_lt_zero _ smaller
    calc cleared drop a ≤ a := cleared_le drop a
      _ ≤ 2 ^ (b.size - 1) := Nat.le_of_lt (Nat.size_le.mp (by omega))
      _ ≤ cleared drop b := two_pow_le_cleared keeps positive
  · have equal : drop a.size = drop b.size := Nat.le_antisymm (keeps.mono sizes) same
    rw [cleared, cleared, equal]
    exact Nat.mul_le_mul_right _ (Nat.div_le_div_right below)

end

end

end Z23.Lib.LeadingBits
