import Mathlib.Algebra.Order.Ring.Nat
import Mathlib.Data.List.Nodup
import Mathlib.Data.Nat.Bitwise

/-!
Solutions of the generalized birthday problem as binary trees. A list of `2 ^ k` indices is a
solution when the exclusive or of the hashes of every aligned block of `2 ^ r` indices is zero on
its first `r` chunks, the halves of every block are in order and no index is repeated.
-/

namespace Z23.Lib.WagnerTree

variable {ι : Type}

section

variable (chunk : Nat → ι → Nat)

/-- The exclusive or of one chunk of the hashes of the indices. -/
def xorChunk (place : Nat) (is : List ι) : Nat :=
  (is.map (chunk place)).foldr (· ^^^ ·) 0

/-- Two lists of `2 ^ r` indices may be put together. -/
structure Joins [LinearOrder ι] (r : Nat) (left right : List ι) : Prop where
  ordered : ∀ first ∈ left.head?, ∀ second ∈ right.head?, first < second
  disjoint : left.Disjoint right
  collide : xorChunk chunk r left = xorChunk chunk r right

/-- The lists that `r` rounds of joining give. -/
inductive IsTree [LinearOrder ι] : Nat → List ι → Prop where
  | leaf (i : ι) : IsTree 0 [i]
  | join {r : Nat} {left right : List ι} (isLeft : IsTree r left) (isRight : IsTree r right)
      (joins : Joins chunk r left right) : IsTree (r + 1) (left ++ right)

end

/-- The aligned block of `2 ^ r` indices at a place. -/
def block (is : List ι) (r place : Nat) : List ι :=
  (is.drop (place * 2 ^ r)).take (2 ^ r)

/-- The first index of the left half is below that of the right half. -/
def HalvesOrdered [LinearOrder ι] (r : Nat) (is : List ι) : Prop :=
  ∀ first ∈ (is.take (2 ^ r)).head?, ∀ second ∈ (is.drop (2 ^ r)).head?, first < second

structure IsSolution [LinearOrder ι] (chunk : Nat → ι → Nat) (k : Nat) (is : List ι)
    : Prop where
  length : is.length = 2 ^ k
  ordered : ∀ r < k, ∀ place < 2 ^ (k - (r + 1)), HalvesOrdered r (block is (r + 1) place)
  distinct : is.Nodup
  collides : ∀ r ≤ k, ∀ place < 2 ^ (k - r), ∀ c < r, xorChunk chunk c (block is r place) = 0

-- Blocks

variable {chunk : Nat → ι → Nat}

theorem xorChunk_append (place : Nat) (left right : List ι)
    : xorChunk chunk place (left ++ right)
        = xorChunk chunk place left ^^^ xorChunk chunk place right := by
  induction left with
  | nil => simp [xorChunk]
  | cons i left ih =>
    simp only [xorChunk, List.cons_append, List.map_cons, List.foldr_cons] at ih ⊢
    rw [ih, Nat.xor_assoc]

theorem block_whole {k : Nat} {is : List ι} (length : is.length = 2 ^ k) : block is k 0 = is := by
  rw [block, Nat.zero_mul, List.drop_zero, List.take_of_length_le (le_of_eq length)]

theorem block_left {r place : Nat} {left : List ι} (within : (place + 1) * 2 ^ r ≤ left.length)
    (right : List ι) : block (left ++ right) r place = block left r place := by
  rw [Nat.add_mul, Nat.one_mul] at within
  rw [block, block]
  generalize 2 ^ r = size at within
  rw [List.drop_append_of_le_length (by omega), List.take_append_of_le_length]
  rw [List.length_drop]
  omega

theorem block_right {r count : Nat} {left : List ι} (length : left.length = count * 2 ^ r)
    (right : List ι) (place : Nat)
    : block (left ++ right) r (count + place) = block right r place := by
  rw [block, Nat.add_mul, ← length, List.drop_length_add_append, block]

/-- What holds of the blocks of two halves holds of the blocks of both together. -/
theorem forall_block_append {k r : Nat} (low : r ≤ k) {left : List ι}
    (length : left.length = 2 ^ k) (right : List ι) (holds : List ι → Prop)
    : (∀ place < 2 ^ (k + 1 - r), holds (block (left ++ right) r place))
        ↔ (∀ place < 2 ^ (k - r), holds (block left r place))
          ∧ ∀ place < 2 ^ (k - r), holds (block right r place) := by
  have count : left.length = 2 ^ (k - r) * 2 ^ r := by
    rw [length, ← Nat.pow_add, Nat.sub_add_cancel low]
  have twice : 2 ^ (k + 1 - r) = 2 ^ (k - r) + 2 ^ (k - r) := by
    rw [Nat.sub_add_comm low, Nat.pow_succ, Nat.mul_two]
  have inLeft : ∀ place < 2 ^ (k - r), block (left ++ right) r place = block left r place :=
    fun place below => block_left (count ▸ Nat.mul_le_mul_right _ below) right
  constructor
  · intro all
    refine ⟨fun place below => ?_, fun place below => ?_⟩
    · rw [← inLeft place below]
      exact all place (by omega)
    · rw [← block_right count right place]
      exact all _ (by omega)
  · rintro ⟨inLeftHolds, inRightHolds⟩ place below
    by_cases low : place < 2 ^ (k - r)
    · rw [inLeft place low]
      exact inLeftHolds place low
    · obtain ⟨rest, rfl⟩ := Nat.exists_eq_add_of_le (not_lt.mp low)
      rw [block_right count]
      exact inRightHolds rest (by omega)

theorem forall_lt_one {holds : Nat → Prop} : (∀ place < 1, holds place) ↔ holds 0 := by
  constructor
  · exact fun all => all 0 Nat.one_pos
  · intro zero place below
    rwa [Nat.lt_one_iff.mp below]

theorem collides_append (chunk : Nat → ι → Nat) {k : Nat} {left right : List ι}
    (leftLength : left.length = 2 ^ k) (rightLength : right.length = 2 ^ k)
    : (∀ r ≤ k + 1, ∀ place < 2 ^ (k + 1 - r), ∀ c < r,
          xorChunk chunk c (block (left ++ right) r place) = 0)
        ↔ (∀ r ≤ k, ∀ place < 2 ^ (k - r), ∀ c < r, xorChunk chunk c (block left r place) = 0)
          ∧ (∀ r ≤ k, ∀ place < 2 ^ (k - r), ∀ c < r, xorChunk chunk c (block right r place) = 0)
          ∧ xorChunk chunk k left = xorChunk chunk k right := by
  have length : (left ++ right).length = 2 ^ (k + 1) := by
    rw [List.length_append, leftLength, rightLength, Nat.pow_succ, Nat.mul_two]
  have halves := fun r (low : r ≤ k) => forall_block_append low leftLength right
    fun is => ∀ c < r, xorChunk chunk c is = 0
  constructor
  · intro all
    refine ⟨fun r low => ((halves r low).mp (all r (by omega))).1,
      fun r low => ((halves r low).mp (all r (by omega))).2, ?_⟩
    have top := all (k + 1) le_rfl 0 (Nat.two_pow_pos _) k (Nat.lt_succ_self k)
    rwa [block_whole length, xorChunk_append, Nat.xor_eq_zero_iff] at top
  · rintro ⟨inLeft, inRight, same⟩ r high
    rcases Nat.lt_or_eq_of_le high with low | rfl
    · exact (halves r (by omega)).mpr ⟨inLeft r (by omega), inRight r (by omega)⟩
    · rw [Nat.sub_self, Nat.pow_zero, forall_lt_one, block_whole length]
      intro c low
      rw [xorChunk_append, Nat.xor_eq_zero_iff]
      rcases Nat.lt_or_eq_of_le (Nat.lt_succ_iff.mp low) with below | rfl
      · have leftZero := inLeft k le_rfl 0 (Nat.two_pow_pos _) c below
        have rightZero := inRight k le_rfl 0 (Nat.two_pow_pos _) c below
        rw [block_whole leftLength] at leftZero
        rw [block_whole rightLength] at rightZero
        rw [leftZero, rightZero]
      · exact same

-- Trees are solutions

variable [LinearOrder ι]

theorem IsTree.length {r : Nat} {is : List ι} (tree : IsTree chunk r is) : is.length = 2 ^ r := by
  induction tree with
  | leaf i => rfl
  | @join r left right _ _ _ leftLength rightLength =>
    rw [List.length_append, leftLength, rightLength, Nat.pow_succ, Nat.mul_two]

theorem IsTree.of_append {r : Nat} {left right : List ι}
    (tree : IsTree chunk (r + 1) (left ++ right)) (length : left.length = 2 ^ r)
    : IsTree chunk r left ∧ IsTree chunk r right ∧ Joins chunk r left right := by
  generalize same : left ++ right = is at tree
  cases tree with
  | @join _ otherLeft otherRight isLeft isRight joins =>
    obtain ⟨rfl, rfl⟩ := List.append_inj same (length.trans isLeft.length.symm)
    exact ⟨isLeft, isRight, joins⟩

theorem ordered_append {k : Nat} {left right : List ι} (leftLength : left.length = 2 ^ k)
    (rightLength : right.length = 2 ^ k)
    : (∀ r < k + 1, ∀ place < 2 ^ (k + 1 - (r + 1)),
          HalvesOrdered r (block (left ++ right) (r + 1) place))
        ↔ (∀ r < k, ∀ place < 2 ^ (k - (r + 1)), HalvesOrdered r (block left (r + 1) place))
          ∧ (∀ r < k, ∀ place < 2 ^ (k - (r + 1)), HalvesOrdered r (block right (r + 1) place))
          ∧ ∀ first ∈ left.head?, ∀ second ∈ right.head?, first < second := by
  have length : (left ++ right).length = 2 ^ (k + 1) := by
    rw [List.length_append, leftLength, rightLength, Nat.pow_succ, Nat.mul_two]
  have halves := fun r (low : r < k) => forall_block_append
    (Nat.succ_le_of_lt low) leftLength right (HalvesOrdered r)
  have top : HalvesOrdered k (left ++ right)
      ↔ ∀ first ∈ left.head?, ∀ second ∈ right.head?, first < second := by
    rw [HalvesOrdered, ← leftLength, List.take_left, List.drop_left]
  constructor
  · intro all
    refine ⟨fun r low => ((halves r low).mp (all r (by omega))).1,
      fun r low => ((halves r low).mp (all r (by omega))).2, top.mp ?_⟩
    have here := all k (Nat.lt_succ_self k) 0 (Nat.two_pow_pos _)
    rwa [block_whole length] at here
  · rintro ⟨inLeft, inRight, heads⟩ r high
    rcases Nat.lt_or_eq_of_le (Nat.lt_succ_iff.mp high) with low | rfl
    · exact (halves r low).mpr ⟨inLeft r low, inRight r low⟩
    · rw [Nat.sub_self, Nat.pow_zero, forall_lt_one, block_whole length]
      exact top.mpr heads

theorem isSolution_append {k : Nat} {left right : List ι} (leftLength : left.length = 2 ^ k)
    (rightLength : right.length = 2 ^ k)
    : IsSolution chunk (k + 1) (left ++ right)
        ↔ IsSolution chunk k left ∧ IsSolution chunk k right ∧ Joins chunk k left right := by
  have ordered := ordered_append leftLength rightLength
  have collides := collides_append chunk leftLength rightLength
  constructor
  · intro solution
    obtain ⟨leftOrdered, rightOrdered, heads⟩ := ordered.mp solution.ordered
    obtain ⟨leftCollides, rightCollides, same⟩ := collides.mp solution.collides
    obtain ⟨leftDistinct, rightDistinct, disjoint⟩ := List.nodup_append'.mp solution.distinct
    exact ⟨⟨leftLength, leftOrdered, leftDistinct, leftCollides⟩,
      ⟨rightLength, rightOrdered, rightDistinct, rightCollides⟩, ⟨heads, disjoint, same⟩⟩
  · rintro ⟨inLeft, inRight, joins⟩
    refine ⟨?_, ?_, ?_, ?_⟩
    · rw [List.length_append, leftLength, rightLength, Nat.pow_succ, Nat.mul_two]
    · exact ordered.mpr ⟨inLeft.ordered, inRight.ordered, joins.ordered⟩
    · exact List.nodup_append'.mpr ⟨inLeft.distinct, inRight.distinct, joins.disjoint⟩
    · exact collides.mpr ⟨inLeft.collides, inRight.collides, joins.collide⟩

theorem isTree_iff_isSolution {k : Nat} {is : List ι}
    : IsTree chunk k is ↔ IsSolution chunk k is := by
  induction k generalizing is with
  | zero =>
    constructor
    · rintro ⟨i⟩
      refine ⟨rfl, by simp, by simp, ?_⟩
      intro r low place _ c below
      omega
    · intro solution
      obtain ⟨i, rfl⟩ := List.length_eq_one_iff.mp solution.length
      exact .leaf i
  | succ k ih =>
    constructor
    · rintro (_ | @⟨_, left, right, isLeft, isRight, joins⟩)
      exact (isSolution_append isLeft.length isRight.length).mpr
        ⟨ih.mp isLeft, ih.mp isRight, joins⟩
    · intro solution
      have length := solution.length
      rw [Nat.pow_succ, Nat.mul_two] at length
      have leftLength : (is.take (2 ^ k)).length = 2 ^ k := by
        rw [List.length_take]
        omega
      have rightLength : (is.drop (2 ^ k)).length = 2 ^ k := by
        rw [List.length_drop]
        omega
      rw [← List.take_append_drop (2 ^ k) is] at solution ⊢
      obtain ⟨inLeft, inRight, joins⟩ := (isSolution_append leftLength rightLength).mp solution
      exact .join (ih.mpr inLeft) (ih.mpr inRight) joins

/-- The blocks that a tree is built from are trees. -/
theorem IsTree.of_flatten {r rounds : Nat} {blocks : List (List ι)}
    (count : blocks.length = 2 ^ rounds) (sizes : ∀ is ∈ blocks, is.length = 2 ^ r)
    (tree : IsTree chunk (r + rounds) blocks.flatten) : ∀ is ∈ blocks, IsTree chunk r is := by
  induction rounds generalizing blocks with
  | zero =>
    obtain ⟨is, rfl⟩ := List.length_eq_one_iff.mp count
    simpa using tree
  | succ rounds ih =>
    rw [Nat.pow_succ, Nat.mul_two] at count
    have sizesLeft : ∀ is ∈ blocks.take (2 ^ rounds), is.length = 2 ^ r :=
      fun is member => sizes is (List.mem_of_mem_take member)
    have countLeft : (blocks.take (2 ^ rounds)).length = 2 ^ rounds := by
      rw [List.length_take]
      omega
    have length : (blocks.take (2 ^ rounds)).flatten.length = 2 ^ (r + rounds) := by
      rw [List.length_flatten, List.map_congr_left sizesLeft, List.map_const',
        List.sum_replicate_nat, countLeft, Nat.mul_comm, Nat.pow_add]
    rw [← List.take_append_drop (2 ^ rounds) blocks, List.flatten_append] at tree
    obtain ⟨inLeft, inRight, -⟩ := tree.of_append length
    intro is member
    rw [← List.take_append_drop (2 ^ rounds) blocks, List.mem_append] at member
    rcases member with member | member
    · exact ih countLeft sizesLeft inLeft is member
    · refine ih ?_ (fun is member => sizes is (List.mem_of_mem_drop member)) inRight is member
      rw [List.length_drop]
      omega

end Z23.Lib.WagnerTree
