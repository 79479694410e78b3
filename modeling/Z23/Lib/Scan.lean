import Mathlib.Order.Lattice

/-!
Scans of a row of cells: a cursor that moves over the cells it may skip, and the first of the
offered cells in an order of preference.
-/

namespace Z23.Lib.Scan

/-- The cursor after it has moved over skipped cells, with `left` cells before the end. -/
def advance (skip : Nat → Bool) : (left : Nat) → (cursor : Nat) → Nat
  | 0, cursor => cursor
  | left + 1, cursor => if skip cursor then advance skip left (cursor + 1) else cursor

theorem advance_skips {skip : Nat → Bool} {left cursor : Nat} (before : ∀ i < cursor, skip i)
    : ∀ i < advance skip left cursor, skip i := by
  induction left generalizing cursor with
  | zero => exact before
  | succ left ih =>
    rw [advance]
    split
    case isTrue here =>
      apply ih
      intro i within
      rcases Nat.lt_succ_iff_lt_or_eq.mp within with earlier | rfl
      · exact before i earlier
      · exact here
    case isFalse => exact before

theorem advance_le (skip : Nat → Bool) (left cursor : Nat)
    : advance skip left cursor ≤ cursor + left := by
  induction left generalizing cursor with
  | zero => exact Nat.le_refl _
  | succ left ih =>
    rw [advance]
    split
    · have later := ih (cursor + 1)
      omega
    · omega

theorem advance_stops {skip : Nat → Bool} {left cursor : Nat}
    (within : advance skip left cursor < cursor + left)
    : skip (advance skip left cursor) = false := by
  induction left generalizing cursor with
  | zero => exact absurd within (Nat.lt_irrefl _)
  | succ left ih =>
    rw [advance] at within ⊢
    split at within
    case isTrue here =>
      rw [if_pos here]
      exact ih (by omega)
    case isFalse here =>
      rw [if_neg here]
      exact Bool.eq_false_iff.mpr here

section Choice

variable {ι α : Type} [LinearOrder α] {rank : ι → α} {offered more : ι → Prop}
  {choice : Option ι}

/-- The choice is the offered element of least rank, and there is none only when nothing is
offered. -/
def First (rank : ι → α) (offered : ι → Prop) : Option ι → Prop
  | some i => offered i ∧ ∀ j, offered j → rank i ≤ rank j
  | none => ∀ j, ¬offered j

theorem First.congr (same : ∀ j, offered j ↔ more j)
    : First rank offered choice ↔ First rank more choice := by
  obtain rfl : offered = more := funext fun j => propext (same j)
  rfl

/-- More may be offered, as long as the choice comes no later. -/
theorem First.keep {best : ι} (first : First rank offered (some best))
    (later : ∀ j, more j → rank best ≤ rank j)
    : First rank (fun j => offered j ∨ more j) (some best) :=
  ⟨.inl first.1, fun j either => either.elim (first.2 j) (later j)⟩

/-- A choice stays the first among more offers unless one of them comes before all the others. -/
theorem First.widen_iff (first : First rank offered choice)
    : First rank (fun j => offered j ∨ more j) choice
        ↔ ¬∃ e, more e ∧ ∀ j, offered j → rank e < rank j := by
  cases choice with
  | some best =>
    constructor
    · rintro widened ⟨e, isMore, before⟩
      exact absurd (before best first.1) (widened.2 e (.inr isMore)).not_gt
    · intro unbeaten
      apply first.keep
      intro e isMore
      by_contra after
      refine unbeaten ⟨e, isMore, fun j isOffered => ?_⟩
      exact (not_le.mp after).trans_le (first.2 j isOffered)
  | none =>
    constructor
    · rintro widened ⟨e, isMore, -⟩
      exact widened e (.inr isMore)
    · intro unbeaten e either
      rcases either with isOffered | isMore
      · exact first e isOffered
      · exact unbeaten ⟨e, isMore, fun j isOffered => absurd isOffered (first j)⟩

end Choice

end Z23.Lib.Scan
