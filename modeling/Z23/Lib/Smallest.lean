import Mathlib.Data.List.Sort
import Mathlib.Order.Basic

/-!
The smallest values of a list, and what a choice among the first few of them may miss.
-/

namespace Z23.Lib.Smallest

section

variable {α κ : Type} [LinearOrder κ] {key : α → κ}

/-- `out` holds the `count` smallest of `all`, or all of them when there are fewer, in ascending
order. -/
def IsSmallest (key : α → κ) (count : Nat) (all out : List α) : Prop :=
  ∃ sorted : List α,
    sorted.Perm all ∧ sorted.Pairwise (fun a b => key a < key b) ∧ out = sorted.take count

theorem IsSmallest.perm {count : Nat} {all other out : List α}
    (smallest : IsSmallest key count all out) (perm : all.Perm other)
    : IsSmallest key count other out := by
  obtain ⟨sorted, same, ascending, taken⟩ := smallest
  exact ⟨sorted, same.trans perm, ascending, taken⟩

/-- A comparison that is the order of the keys sorts values with different keys strictly. -/
theorem mergeSort_ascending {le : α → α → Bool} (orders : ∀ a b, le a b = true ↔ key a ≤ key b)
    {all : List α} (distinct : (all.map key).Nodup)
    : (all.mergeSort le).Pairwise (fun a b => key a < key b) := by
  have sorted : (all.mergeSort le).Pairwise (fun a b => le a b = true) := by
    apply List.pairwise_mergeSort
    · intro a b c ab bc
      exact (orders a c).mpr (le_trans ((orders a b).mp ab) ((orders b c).mp bc))
    · intro a b
      rw [Bool.or_eq_true, orders, orders]
      exact le_total _ _
  have apart : (all.mergeSort le).Pairwise (fun a b => key a ≠ key b) := by
    have nodup := ((List.mergeSort_perm all le).map key).nodup_iff.mpr distinct
    exact List.pairwise_map.mp nodup
  refine (sorted.and apart).imp ?_
  intro a b both
  exact lt_of_le_of_ne ((orders a b).mp both.1) both.2

variable {front rest sorted : List α} {count : Nat}

/-- A value above `count` of the first ones is above the `count` smallest of them. -/
theorem take_lt_of_countP (perm : sorted.Perm front)
    (ascending : sorted.Pairwise (fun a b => key a < key b)) {late : α}
    (enough : count ≤ front.countP (fun a => key a < key late))
    : ∀ a ∈ sorted.take count, key a < key late := by
  intro a taken
  by_contra notLess
  have above : key late ≤ key a := not_lt.mp notLess
  have split : (sorted.take count ++ sorted.drop count).Pairwise (fun a b => key a < key b) := by
    rwa [List.take_append_drop]
  have none : (sorted.drop count).countP (fun a => key a < key late) = 0 := by
    rw [List.countP_eq_zero]
    intro b dropped less
    have later := (List.pairwise_append.mp split).2.2 a taken b dropped
    exact absurd (of_decide_eq_true less) (not_lt.mpr (le_trans above later.le))
  have counted : front.countP (fun a => key a < key late)
      = (sorted.take count).countP (fun a => key a < key late) := by
    rw [← perm.countP_eq]
    conv_lhs => rw [← List.take_append_drop count sorted]
    rw [List.countP_append, none, Nat.add_zero]
  have fewer : (sorted.take count).countP (fun a => key a < key late)
      < (sorted.take count).length := by
    refine lt_of_le_of_ne List.countP_le_length ?_
    intro all
    exact notLess (of_decide_eq_true (List.countP_eq_length.mp all a taken))
  have short : (sorted.take count).length ≤ count := List.length_take_le _ _
  omega

/-- The smallest of the first values are the smallest of all exactly when every later value is
above enough of the first ones. -/
theorem take_isSmallest_iff (perm : sorted.Perm front)
    (ascending : sorted.Pairwise (fun a b => key a < key b))
    (distinct : ((front ++ rest).map key).Nodup) (full : rest = [] ∨ count ≤ front.length)
    : IsSmallest key count (front ++ rest) (sorted.take count) ↔
      ∀ late ∈ rest, count ≤ front.countP (fun a => key a < key late) := by
  constructor
  · rintro ⟨whole, same, strict, taken⟩ late last
    have filled : count ≤ sorted.length := by
      rw [perm.length_eq]
      exact full.resolve_left (List.ne_nil_of_mem last)
    by_contra few
    have uncounted : ∃ a ∈ sorted.take count, ¬key a < key late := by
      by_contra all
      push Not at all
      have counted : (sorted.take count).countP (fun a => key a < key late)
          = (sorted.take count).length :=
        List.countP_eq_length.mpr fun a ha => decide_eq_true (all a ha)
      have bound := (List.take_sublist count sorted).countP_le (p := fun a => key a < key late)
      rw [counted, List.length_take, Nat.min_eq_left filled, perm.countP_eq] at bound
      exact few bound
    obtain ⟨a, chosen, notLess⟩ := uncounted
    have apart : late ∉ whole.take count := by
      rw [← taken]
      intro early
      have inFront : late ∈ front := perm.mem_iff.mp (List.mem_of_mem_take early)
      rw [List.map_append] at distinct
      exact (List.nodup_append.mp distinct).2.2 _ (List.mem_map_of_mem inFront) _
        (List.mem_map_of_mem last) rfl
    have dropped : late ∈ whole.drop count := by
      have present : late ∈ whole.take count ++ whole.drop count := by
        rw [List.take_append_drop]
        exact same.mem_iff.mpr (List.mem_append_right _ last)
      exact (List.mem_append.mp present).resolve_left apart
    rw [← List.take_append_drop count whole] at strict
    rw [taken] at chosen
    exact notLess ((List.pairwise_append.mp strict).2.2 a chosen late dropped)
  · intro enough
    have others : (sorted.drop count ++ rest).Sublist (sorted ++ rest) :=
      (List.drop_sublist count sorted).append (List.Sublist.refl rest)
    have both : (sorted ++ rest).Perm (front ++ rest) := perm.append_right rest
    have othersDistinct : ((sorted.drop count ++ rest).map key).Nodup :=
      ((both.map key).nodup_iff.mpr distinct).sublist (others.map key)
    let tail := (sorted.drop count ++ rest).mergeSort (fun a b => key a ≤ key b)
    have tailPerm : tail.Perm (sorted.drop count ++ rest) := List.mergeSort_perm _ _
    have split : (sorted.take count ++ sorted.drop count).Pairwise (fun a b => key a < key b) := by
      rwa [List.take_append_drop]
    obtain ⟨headAscending, -, across⟩ := List.pairwise_append.mp split
    have filled : tail = [] ∨ (sorted.take count).length = count := by
      by_cases fits : count ≤ sorted.length
      · exact .inr (List.length_take_of_le fits)
      · have none : rest = [] := full.resolve_right (by rwa [← perm.length_eq])
        rw [none, List.append_nil, List.drop_eq_nil_of_le (Nat.le_of_not_le fits)] at tailPerm
        exact .inl tailPerm.eq_nil
    refine ⟨sorted.take count ++ tail, ?_, ?_, ?_⟩
    · refine (tailPerm.append_left _).trans ?_
      rwa [← List.append_assoc, List.take_append_drop]
    · refine List.pairwise_append.mpr ⟨headAscending, ?_, ?_⟩
      · exact mergeSort_ascending (fun a b => decide_eq_true_iff) othersDistinct
      · intro a taken b later
        rcases List.mem_append.mp (tailPerm.mem_iff.mp later) with dropped | last
        · exact across a taken b dropped
        · exact take_lt_of_countP perm ascending (enough b last) a taken
    · rcases filled with none | exactly
      · rw [none, List.append_nil, List.take_take, Nat.min_self]
      · rw [List.take_left' exactly]

end

end Z23.Lib.Smallest
