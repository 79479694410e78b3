import Mathlib.Algebra.Order.Ring.Nat
import Mathlib.Tactic.Ring

/-!
Complete binary hash trees over an assignment of leaves: the value of each inner node, the subtree
without leaves, and the left siblings that a path from the last leaf to the root meets.
-/

namespace Z23.Lib.MerkleTree

variable {α : Type}

-- Nodes

/-- The node at a level and an index; the level of the children is given to `combine`. -/
def node (combine : α → α → Nat → α) (leaf : Nat → α) : Nat → Nat → α
  | 0, index => leaf index
  | level + 1, index =>
    combine (node combine leaf level (2 * index)) (node combine leaf level (2 * index + 1)) level

/-- The node above uncommitted leaves only. -/
def emptyRoot (combine : α → α → Nat → α) (uncommitted : α) : Nat → α
  | 0 => uncommitted
  | level + 1 =>
    combine (emptyRoot combine uncommitted level) (emptyRoot combine uncommitted level) level

/-- The leaves of a list, then uncommitted ones. -/
def padded (uncommitted : α) (leaves : List α) (index : Nat) : α := leaves.getD index uncommitted

/-- The root of the complete tree of a depth over the leaves of a list. -/
def treeRoot (combine : α → α → Nat → α) (uncommitted : α) (depth : Nat) (leaves : List α) : α :=
  node combine (padded uncommitted leaves) depth 0

variable {combine : α → α → Nat → α} {uncommitted : α} {leaf leaf' : Nat → α}

/-- The node above a left child, and the node above a right child. -/
theorem node_above_even (leaf : Nat → α) {level index : Nat} (even : index % 2 = 0)
    : node combine leaf (level + 1) (index / 2)
        = combine (node combine leaf level index) (node combine leaf level (index + 1)) level := by
  rw [node, show 2 * (index / 2) = index by omega]

theorem node_above_odd (leaf : Nat → α) {level index : Nat} (odd : index % 2 = 1)
    : node combine leaf (level + 1) (index / 2)
        = combine (node combine leaf level (index - 1)) (node combine leaf level index) level := by
  rw [node, show 2 * (index / 2) = index - 1 by omega, show index - 1 + 1 = index by omega]

/-- A node depends on the leaves below it only. -/
theorem node_congr {level index : Nat}
    (same : ∀ i, index * 2 ^ level ≤ i → i < (index + 1) * 2 ^ level → leaf i = leaf' i)
    : node combine leaf level index = node combine leaf' level index := by
  induction level generalizing index with
  | zero => exact same index (by simp) (by simp)
  | succ level ih =>
    have below : ∀ side < 2, ∀ i, (2 * index + side) * 2 ^ level ≤ i →
        i < (2 * index + side + 1) * 2 ^ level → leaf i = leaf' i := by
      intro side isSide i low high
      refine same i ?_ ?_
      · calc index * 2 ^ (level + 1) = 2 * index * 2 ^ level := by ring
          _ ≤ (2 * index + side) * 2 ^ level := Nat.mul_le_mul_right _ (by omega)
          _ ≤ i := low
      · calc i < (2 * index + side + 1) * 2 ^ level := high
          _ ≤ (2 * index + 2) * 2 ^ level := Nat.mul_le_mul_right _ (by omega)
          _ = (index + 1) * 2 ^ (level + 1) := by ring
    have left := ih (below 0 (by omega))
    have right := ih (below 1 (by omega))
    rw [Nat.add_zero] at left
    rw [node, node, left, right]

theorem node_const (level index : Nat)
    : node combine (fun _ => uncommitted) level index = emptyRoot combine uncommitted level := by
  induction level generalizing index with
  | zero => rfl
  | succ level ih => rw [node, emptyRoot, ih, ih]

theorem node_eq_emptyRoot {level index : Nat}
    (empty : ∀ i, index * 2 ^ level ≤ i → leaf i = uncommitted)
    : node combine leaf level index = emptyRoot combine uncommitted level := by
  rw [← node_const level index]
  exact node_congr fun i low _ => empty i low

/-- The node of a part of the leaves that starts at a multiple of its width. -/
theorem node_shift (start level index : Nat)
    : node combine (fun i => leaf (start * 2 ^ level + i)) level index
        = node combine leaf level (start + index) := by
  induction level generalizing start index with
  | zero => simp [node]
  | succ level ih =>
    have moved : (fun i => leaf (start * 2 ^ (level + 1) + i))
        = fun i => leaf (2 * start * 2 ^ level + i) := by
      funext i
      congr 2
      ring
    have left : 2 * start + 2 * index = 2 * (start + index) := by omega
    have right : 2 * start + (2 * index + 1) = 2 * (start + index) + 1 := by omega
    rw [moved, node, node, ih, ih, left, right]

/-- The tree over the leaves from a multiple of its width on. -/
theorem treeRoot_drop (leaves : List α) (level index : Nat)
    : treeRoot combine uncommitted level (leaves.drop (index * 2 ^ level))
        = node combine (padded uncommitted leaves) level index := by
  rw [← Nat.add_zero index, ← node_shift, treeRoot]
  congr 1
  funext i
  simp [padded, List.getElem?_drop]

theorem padded_append_left {leaves more : List α} {i : Nat} (inside : i < leaves.length)
    : padded uncommitted (leaves ++ more) i = padded uncommitted leaves i := by
  simp [padded, List.getElem?_append_left inside]

theorem padded_of_le {leaves : List α} {i : Nat} (outside : leaves.length ≤ i)
    : padded uncommitted leaves i = uncommitted := by
  simp [padded, List.getElem?_eq_none outside]

-- Left siblings

/--
The left siblings on the path up from the node at a level and an index. There is none where the
path comes from a left child, and the list ends at the last one.
-/
def leftSiblings (value : Nat → Nat → α) (level index : Nat) : List (Option α) :=
  if index = 0 then []
  else
    (if index % 2 = 1 then some (value level (index - 1)) else none)
      :: leftSiblings value (level + 1) (index / 2)
termination_by index

theorem leftSiblings_zero (value : Nat → Nat → α) (level : Nat)
    : leftSiblings value level 0 = [] := by
  rw [leftSiblings, if_pos rfl]

theorem leftSiblings_odd (value : Nat → Nat → α) (level half : Nat)
    : leftSiblings value level (2 * half + 1)
        = some (value level (2 * half)) :: leftSiblings value (level + 1) half := by
  have odd : (2 * half + 1) % 2 = 1 := by omega
  have above : (2 * half + 1) / 2 = half := by omega
  rw [leftSiblings, if_neg (by omega), if_pos odd, above, Nat.add_sub_cancel]

theorem leftSiblings_even (value : Nat → Nat → α) (level : Nat) {half : Nat} (positive : 0 < half)
    : leftSiblings value level (2 * half) = none :: leftSiblings value (level + 1) half := by
  have even : ¬(2 * half % 2 = 1) := by omega
  have above : 2 * half / 2 = half := by omega
  rw [leftSiblings, if_neg (by omega), if_neg even, above]

/-- An index is zero, odd, or even and positive. -/
theorem index_cases (index : Nat)
    : index = 0 ∨ (∃ half, index = 2 * half + 1) ∨ ∃ half, 0 < half ∧ index = 2 * half := by
  rcases Nat.even_or_odd' index with ⟨half, even | odd⟩
  · rcases Nat.eq_zero_or_pos half with zero | positive
    · exact .inl (by omega)
    · exact .inr (.inr ⟨half, positive, even⟩)
  · exact .inr (.inl ⟨half, odd⟩)

theorem leftSiblings_length_le {value : Nat → Nat → α} {bound level index : Nat}
    (small : index < 2 ^ bound) : (leftSiblings value level index).length ≤ bound := by
  induction bound generalizing level index with
  | zero =>
    obtain rfl : index = 0 := by simpa using small
    simp [leftSiblings_zero]
  | succ bound ih =>
    have width : 2 ^ (bound + 1) = 2 * 2 ^ bound := by ring
    rcases index_cases index with rfl | ⟨half, rfl⟩ | ⟨half, positive, rfl⟩
    · simp [leftSiblings_zero]
    · rw [leftSiblings_odd, List.length_cons]
      exact Nat.succ_le_succ (ih (by omega))
    · rw [leftSiblings_even value level positive, List.length_cons]
      exact Nat.succ_le_succ (ih (by omega))

/-- All siblings are there when the index is the last one of its level. -/
theorem leftSiblings_full {value : Nat → Nat → α} {bound level index : Nat}
    : (leftSiblings value level index).length = bound
        ∧ (leftSiblings value level index).all Option.isSome = true ↔ index + 1 = 2 ^ bound := by
  induction bound generalizing level index with
  | zero =>
    rcases index_cases index with rfl | ⟨half, rfl⟩ | ⟨half, positive, rfl⟩
    · simp [leftSiblings_zero]
    · simp [leftSiblings_odd]
    · simp [leftSiblings_even value level positive, positive.ne']
  | succ bound ih =>
    have width : 2 ^ (bound + 1) = 2 * 2 ^ bound := by ring
    rcases index_cases index with rfl | ⟨half, rfl⟩ | ⟨half, positive, rfl⟩
    · have wide : 0 < 2 ^ bound := Nat.two_pow_pos _
      simp only [leftSiblings_zero, List.length_nil]
      omega
    · have above := @ih (level + 1) half
      rw [leftSiblings_odd, List.length_cons, List.all_cons, Option.isSome_some, Bool.true_and,
        Nat.add_right_cancel_iff, above]
      omega
    · rw [leftSiblings_even value level positive, List.all_cons, Option.isSome_none,
        Bool.false_and]
      simp only [Bool.false_eq_true, and_false, false_iff]
      omega

/-- The list of siblings does not end in a missing one. -/
theorem leftSiblings_getLast (value : Nat → Nat → α) (level index : Nat)
    : (leftSiblings value level index).getLast?.all Option.isSome = true := by
  induction index using Nat.strong_induction_on generalizing level with
  | _ index ih =>
    rcases index_cases index with rfl | ⟨half, rfl⟩ | ⟨half, positive, rfl⟩
    · rw [leftSiblings_zero]
      rfl
    · have above := ih half (by omega) (level + 1)
      rw [leftSiblings_odd, List.getLast?_cons]
      cases isLast : (leftSiblings value (level + 1) half).getLast? with
      | none => rfl
      | some last =>
        rw [isLast] at above
        exact above
    · have above := ih half (by omega) (level + 1)
      have more : leftSiblings value (level + 1) half ≠ [] := by
        rw [leftSiblings, if_neg (by omega)]
        exact List.cons_ne_nil _ _
      obtain ⟨last, isLast⟩ := Option.ne_none_iff_exists'.mp (mt List.getLast?_eq_none_iff.mp more)
      rw [isLast] at above
      rw [leftSiblings_even value level positive, List.getLast?_cons, isLast]
      exact above

/-- The next sibling of the path, and those after it. -/
theorem leftSiblings_head (value : Nat → Nat → α) (level index : Nat)
    : (leftSiblings value level index).head?.join
        = if index % 2 = 1 then some (value level (index - 1)) else none := by
  rcases index_cases index with rfl | ⟨half, rfl⟩ | ⟨half, positive, rfl⟩
  · simp [leftSiblings_zero]
  · rw [leftSiblings_odd, if_pos (by omega)]
    rfl
  · rw [leftSiblings_even value level positive, if_neg (by omega)]
    rfl

theorem leftSiblings_tail (value : Nat → Nat → α) (level index : Nat)
    : (leftSiblings value level index).tail = leftSiblings value (level + 1) (index / 2) := by
  rcases index_cases index with rfl | ⟨half, rfl⟩ | ⟨half, positive, rfl⟩
  · simp [leftSiblings_zero]
  · rw [leftSiblings_odd, show (2 * half + 1) / 2 = half by omega]
    rfl
  · rw [leftSiblings_even value level positive, show 2 * half / 2 = half by omega]
    rfl

/-- The siblings are nodes left of the path, so they agree where those nodes do. -/
theorem leftSiblings_congr {value value' : Nat → Nat → α} {level index : Nat}
    (same : ∀ up, ∀ i < index / 2 ^ up, value (level + up) i = value' (level + up) i)
    : leftSiblings value level index = leftSiblings value' level index := by
  induction index using Nat.strong_induction_on generalizing level with
  | _ index ih =>
    have above : ∀ up, ∀ i < index / 2 / 2 ^ up,
        value (level + 1 + up) i = value' (level + 1 + up) i := by
      intro up i low
      have step := same (up + 1) i (by rwa [pow_succ', ← Nat.div_div_eq_div_mul])
      rwa [show level + (up + 1) = level + 1 + up by omega] at step
    rcases index_cases index with rfl | ⟨half, rfl⟩ | ⟨half, positive, rfl⟩
    · rw [leftSiblings_zero, leftSiblings_zero]
    · have here := same 0 (2 * half) (by simp)
      rw [leftSiblings_odd, leftSiblings_odd]
      rw [show (2 * half + 1) / 2 = half by omega] at above
      rw [ih half (by omega) above]
      simp only [Nat.add_zero] at here
      rw [here]
    · rw [leftSiblings_even _ _ positive, leftSiblings_even _ _ positive]
      rw [show 2 * half / 2 = half by omega] at above
      rw [ih half (by omega) above]

-- Paths

/-- Where a path of siblings leads to; a sibling marked `true` stands on the left. -/
def climb (combine : α → α → Nat → α) : Nat → α → List (α × Bool) → α
  | _, current, [] => current
  | level, current, (sibling, true) :: rest =>
    climb combine (level + 1) (combine sibling current level) rest
  | level, current, (sibling, false) :: rest =>
    climb combine (level + 1) (combine current sibling level) rest

/-- The siblings on the way up from a node through a number of levels. -/
def siblingPath (value : Nat → Nat → α) : Nat → Nat → Nat → List (α × Bool)
  | 0, _, _ => []
  | levels + 1, level, index =>
    (if index % 2 = 1 then (value level (index - 1), true) else (value level (index + 1), false))
      :: siblingPath value levels (level + 1) (index / 2)

theorem climb_siblingPath (levels level index : Nat)
    : climb combine level (node combine leaf level index)
          (siblingPath (node combine leaf) levels level index)
        = node combine leaf (level + levels) (index / 2 ^ levels) := by
  induction levels generalizing level index with
  | zero => simp [siblingPath, climb]
  | succ levels ih =>
    have further := ih (level + 1) (index / 2)
    rw [Nat.div_div_eq_div_mul, ← pow_succ', Nat.add_right_comm, Nat.add_assoc] at further
    rw [siblingPath]
    split
    · rename_i odd
      rw [climb, ← further, node_above_odd leaf odd]
    · rename_i even
      rw [climb, ← further, node_above_even leaf (by omega)]

theorem length_siblingPath (value : Nat → Nat → α) (levels level index : Nat)
    : (siblingPath value levels level index).length = levels := by
  induction levels generalizing level index with
  | zero => rfl
  | succ levels ih => rw [siblingPath, List.length_cons, ih]

/-- The marks of a path are the binary digits of its index. -/
theorem siblingPath_bits (value : Nat → Nat → α) (levels level index : Nat)
    : (siblingPath value levels level index).map Prod.snd
        = (List.range levels).map index.testBit := by
  induction levels generalizing level index with
  | zero => rfl
  | succ levels ih =>
    rw [siblingPath, List.map_cons, ih, List.range_succ_eq_map, List.map_cons, List.map_map]
    congr 1
    · rw [Nat.testBit_zero]
      split <;> simp_all
    · refine List.map_congr_left fun i _ => ?_
      rw [Function.comp_apply, Nat.testBit_succ]

-- Digits of an index

/-- The zero digits of an index below a level. -/
def zerosBelow (index : Nat) : Nat → Nat
  | 0 => 0
  | level + 1 => zerosBelow index level + if index / 2 ^ level % 2 = 0 then 1 else 0

/-- The first leaf after those of the node above a leaf at a level. -/
def leafAfter (index level : Nat) : Nat := (index / 2 ^ level + 1) * 2 ^ level

theorem div_two_pow_succ (index level : Nat) : index / 2 ^ (level + 1) = index / 2 ^ level / 2 := by
  rw [pow_succ, Nat.div_div_eq_div_mul]

theorem zerosBelow_succ_of_zero {index level : Nat} (zero : index / 2 ^ level % 2 = 0)
    : zerosBelow index (level + 1) = zerosBelow index level + 1 := by
  rw [zerosBelow, if_pos zero]

theorem zerosBelow_succ_of_one {index level : Nat} (one : index / 2 ^ level % 2 = 1)
    : zerosBelow index (level + 1) = zerosBelow index level := by
  rw [zerosBelow, if_neg (by omega), Nat.add_zero]

theorem zerosBelow_mono (index : Nat) {low high : Nat} (le : low ≤ high)
    : zerosBelow index low ≤ zerosBelow index high := by
  induction le with
  | refl => exact le_rfl
  | step _ ih => exact le_trans ih (Nat.le_add_right _ _)

/-- Above the last digit of an index all digits are zero. -/
theorem zerosBelow_above {index level : Nat} (top : index / 2 ^ level = 0) (more : Nat)
    : index / 2 ^ (level + more) = 0
        ∧ zerosBelow index (level + more) = zerosBelow index level + more := by
  have zero (more : Nat) : index / 2 ^ (level + more) = 0 := by
    rw [pow_add, ← Nat.div_div_eq_div_mul, top, Nat.zero_div]
  refine ⟨zero more, ?_⟩
  induction more with
  | zero => rfl
  | succ more ih =>
    rw [← Nat.add_assoc, zerosBelow_succ_of_zero (by rw [zero]), ih, Nat.add_assoc]

theorem zerosBelow_le (index level : Nat) : zerosBelow index level ≤ level := by
  induction level with
  | zero => exact le_rfl
  | succ level ih =>
    rw [zerosBelow]
    split <;> omega

/-- Zero digits are told apart by how many come before them. -/
theorem zerosBelow_lt {index low high : Nat} (zero : index / 2 ^ low % 2 = 0) (lt : low < high)
    : zerosBelow index low < zerosBelow index high := by
  have step := zerosBelow_mono index (show low + 1 ≤ high from lt)
  rw [zerosBelow_succ_of_zero zero] at step
  omega

theorem leafAfter_zero (index : Nat) : leafAfter index 0 = index + 1 := by
  simp [leafAfter]

theorem leafAfter_succ_of_zero {index level : Nat} (zero : index / 2 ^ level % 2 = 0)
    : leafAfter index (level + 1) = leafAfter index level + 2 ^ level := by
  obtain ⟨half, even⟩ : ∃ half, index / 2 ^ level = 2 * half := ⟨index / 2 ^ level / 2, by omega⟩
  rw [leafAfter, leafAfter, div_two_pow_succ, even, Nat.mul_div_cancel_left _ (by omega)]
  ring

theorem leafAfter_succ_of_one {index level : Nat} (one : index / 2 ^ level % 2 = 1)
    : leafAfter index (level + 1) = leafAfter index level := by
  obtain ⟨half, odd⟩ : ∃ half, index / 2 ^ level = 2 * half + 1 := ⟨index / 2 ^ level / 2, by omega⟩
  rw [leafAfter, leafAfter, div_two_pow_succ, odd, show (2 * half + 1) / 2 = half by omega]
  ring

theorem leafAfter_mono (index : Nat) {low high : Nat} (le : low ≤ high)
    : leafAfter index low ≤ leafAfter index high := by
  induction le with
  | refl => exact le_rfl
  | @step level _ ih =>
    refine le_trans ih ?_
    rcases Nat.mod_two_eq_zero_or_one (index / 2 ^ level) with zero | one
    · rw [Nat.succ_eq_add_one, leafAfter_succ_of_zero zero]
      exact Nat.le_add_right _ _
    · rw [Nat.succ_eq_add_one, leafAfter_succ_of_one one]

/-- Levels with no zero digit between them end at the same leaf. -/
theorem leafAfter_eq_of_zerosBelow {index low high : Nat} (le : low ≤ high)
    (same : zerosBelow index high = zerosBelow index low)
    : leafAfter index high = leafAfter index low := by
  induction le with
  | refl => rfl
  | @step level between ih =>
    have atMost := zerosBelow_mono index between
    rcases Nat.mod_two_eq_zero_or_one (index / 2 ^ level) with zero | one
    · rw [Nat.succ_eq_add_one, zerosBelow_succ_of_zero zero] at same
      omega
    · rw [Nat.succ_eq_add_one, zerosBelow_succ_of_one one] at same
      rw [Nat.succ_eq_add_one, leafAfter_succ_of_one one, ih same]

theorem two_pow_le_leafAfter (index level : Nat) : 2 ^ level ≤ leafAfter index level :=
  Nat.le_mul_of_pos_left _ (Nat.succ_pos _)

end Z23.Lib.MerkleTree
