import Z23.Lib.MerkleTree

/-!
The incremental Merkle tree keeps the last pair of leaves and the left siblings above it. Its root
is the root of the complete tree.
-/

namespace Z23.Sapling

open Z23.Lib.MerkleTree

variable {α : Type}

-- The tree

/-- The two function pointers of a tree. -/
structure TreeHash (α : Type) where
  combine : α → α → Nat → α
  uncommitted : α

/-- The entry `parents[i]` is `none` where `has_parent[i]` is not set. -/
structure IncrementalMerkleTree (α : Type) where
  depth : Nat
  left : Option α
  right : Option α
  parents : List (Option α)
  cachedRoot : Option α
deriving DecidableEq, Repr

def maxTreeDepth : Nat := 32

def treeInit (depth : Nat) : IncrementalMerkleTree α := ⟨depth, none, none, [], none⟩

def emptyRootAtDepth (h : TreeHash α) (depth : Nat) : α :=
  emptyRoot h.combine h.uncommitted depth

/-- The loop of an append over the parents from `i` on. -/
def carryParents (h : TreeHash α) (depth : Nat) : Nat → List (Option α) → α → List (Option α)
  | i, [], combined => if i < depth then [some combined] else []
  | i, none :: rest, combined => if i < depth then some combined :: rest else none :: rest
  | i, some parent :: rest, combined =>
    if i < depth then none :: carryParents h depth (i + 1) rest (h.combine parent combined (i + 1))
    else some parent :: rest

def incrementalTreeAppend (h : TreeHash α) (t : IncrementalMerkleTree α) (obj : α)
    : IncrementalMerkleTree α :=
  match t.left, t.right with
  | none, _ => { t with left := some obj, cachedRoot := none }
  | some _, none => { t with right := some obj, cachedRoot := none }
  | some left, some right =>
    { t with
      left := some obj
      right := none
      parents := carryParents h t.depth 0 t.parents (h.combine left right 0)
      cachedRoot := none }

/-- The first loop of the root: the node above the parents, with its level. -/
def rootOverParents (h : TreeHash α) : Nat → List (Option α) → α → Nat × α
  | d, [], root => (d, root)
  | d, some parent :: rest, root => rootOverParents h (d + 1) rest (h.combine parent root d)
  | d, none :: rest, root =>
    rootOverParents h (d + 1) rest (h.combine root (emptyRootAtDepth h d) d)

/-- The second loop of the root: `levels` more levels from level `d`. -/
def padRoot (h : TreeHash α) : Nat → Nat → α → α
  | 0, _, root => root
  | levels + 1, d, root => padRoot h levels (d + 1) (h.combine root (emptyRootAtDepth h d) d)

/-- The root as it is computed when there is no memo. -/
def computeRoot (h : TreeHash α) (t : IncrementalMerkleTree α) : α :=
  let left := t.left.getD (emptyRootAtDepth h 0)
  let right := t.right.getD (emptyRootAtDepth h 0)
  let (d, root) := rootOverParents h 1 t.parents (h.combine left right 0)
  padRoot h (t.depth - d) d root

/-- The root, and the tree that remembers it. -/
def incrementalTreeRoot (h : TreeHash α) (t : IncrementalMerkleTree α)
    : α × IncrementalMerkleTree α :=
  match t.cachedRoot with
  | some root => (root, t)
  | none => (computeRoot h t, { t with cachedRoot := some (computeRoot h t) })

/-- The leaves that the parents from `i` on stand for. -/
def parentsSize : Nat → List (Option α) → Nat
  | _, [] => 0
  | i, parent :: rest => (if parent.isSome then 2 ^ (i + 1) else 0) + parentsSize (i + 1) rest

def incrementalTreeSize (t : IncrementalMerkleTree α) : Nat :=
  (if t.left.isSome then 1 else 0) + (if t.right.isSome then 1 else 0) + parentsSize 0 t.parents

/-- Depth zero wraps around, so no tree of that depth is complete. -/
def incrementalTreeIsComplete (t : IncrementalMerkleTree α) : Bool :=
  t.left.isSome && t.right.isSome && t.parents.length + 1 == t.depth
    && t.parents.all Option.isSome

-- Frontier

/-- The node of the complete tree over a list of leaves. -/
def treeNode (h : TreeHash α) (leaves : List α) : Nat → Nat → α :=
  node h.combine (padded h.uncommitted leaves)

/-- The tree keeps the frontier of a list of leaves, and its memo is the root of that list. -/
structure Holds (h : TreeHash α) (t : IncrementalMerkleTree α) (leaves : List α) : Prop where
  left : t.left = leaves[(leaves.length - 1) / 2 * 2]?
  right : t.right = if leaves.length % 2 = 0 then leaves[leaves.length - 1]? else none
  parents : t.parents = leftSiblings (treeNode h leaves) 1 ((leaves.length - 1) / 2)
  memo : ∀ root, t.cachedRoot = some root →
    root = treeRoot h.combine h.uncommitted t.depth leaves

theorem treeInit_holds (h : TreeHash α) (depth : Nat) : Holds h (treeInit depth) [] where
  left := rfl
  right := rfl
  parents := by simp [treeInit, leftSiblings_zero]
  memo := by simp [treeInit]

variable {leaves : List α}

theorem treeNode_append (h : TreeHash α) (more : List α) {level index : Nat}
    (complete : (index + 1) * 2 ^ level ≤ leaves.length)
    : treeNode h (leaves ++ more) level index = treeNode h leaves level index :=
  node_congr fun _ _ high => padded_append_left (by omega)

theorem carryParents_leftSiblings (h : TreeHash α) {depth i index : Nat} {leaf : Nat → α}
    (room : index + 1 < 2 ^ (depth - i))
    : carryParents h depth i (leftSiblings (node h.combine leaf) (i + 1) index)
        (node h.combine leaf (i + 1) index)
        = leftSiblings (node h.combine leaf) (i + 1) (index + 1) := by
  induction index using Nat.strong_induction_on generalizing i with
  | _ index ih =>
    have inside : i < depth := by
      by_contra outside
      have none : depth - i = 0 := by omega
      rw [none] at room
      omega
    rcases index_cases index with rfl | ⟨half, rfl⟩ | ⟨half, positive, rfl⟩
    · have one := leftSiblings_odd (node h.combine leaf) (i + 1) 0
      rw [leftSiblings_zero] at one
      rw [leftSiblings_zero, carryParents, if_pos inside]
      exact one.symm
    · have deeper : 2 ^ (depth - i) = 2 * 2 ^ (depth - (i + 1)) := by
        rw [show depth - i = depth - (i + 1) + 1 by omega]
        ring
      have carried := ih half (by omega) (i := i + 1) (by omega)
      rw [leftSiblings_odd, carryParents, if_pos inside,
        show 2 * half + 1 + 1 = 2 * (half + 1) by omega,
        leftSiblings_even _ _ (Nat.succ_pos half), ← carried]
      rfl
    · rw [leftSiblings_even _ _ positive, carryParents, if_pos inside, leftSiblings_odd]

theorem leftSiblings_append (h : TreeHash α) (more : List α) {index : Nat}
    (complete : 2 * index ≤ leaves.length)
    : leftSiblings (treeNode h (leaves ++ more)) 1 index
        = leftSiblings (treeNode h leaves) 1 index := by
  refine leftSiblings_congr fun up i low => treeNode_append h more ?_
  calc (i + 1) * 2 ^ (1 + up) = 2 * ((i + 1) * 2 ^ up) := by ring
    _ ≤ 2 * (index / 2 ^ up * 2 ^ up) :=
        Nat.mul_le_mul_left _ (Nat.mul_le_mul_right _ (by omega))
    _ ≤ 2 * index := Nat.mul_le_mul_left _ (Nat.div_mul_le_self _ _)
    _ ≤ leaves.length := complete

variable {t : IncrementalMerkleTree α} {h : TreeHash α}

theorem incrementalTreeAppend_holds (holds : Holds h t leaves)
    (room : leaves.length < 2 ^ (t.depth + 1)) (obj : α)
    : Holds h (incrementalTreeAppend h t obj) (leaves ++ [obj])
        ∧ (incrementalTreeAppend h t obj).depth = t.depth := by
  have added : (leaves ++ [obj]).length = leaves.length + 1 := by simp
  have last : (leaves ++ [obj])[leaves.length]? = some obj := by simp
  rcases index_cases leaves.length with empty | ⟨half, odd⟩ | ⟨half, positive, even⟩
  · obtain rfl := List.length_eq_zero_iff.mp empty
    have noLeft : t.left = none := by simpa using holds.left
    have noRight : t.right = none := by simpa using holds.right
    rw [incrementalTreeAppend, noLeft]
    refine ⟨{ left := ?_, right := ?_, parents := ?_, memo := by simp }, rfl⟩
    · simp
    · simp [noRight]
    · simpa [leftSiblings_zero] using holds.parents
  · have isLeft : t.left = leaves[2 * half]? := by
      rw [holds.left, odd]
      congr 1
      omega
    have noRight : t.right = none := by
      rw [holds.right, if_neg (by omega)]
    obtain ⟨left, atLeft⟩ : ∃ left, leaves[2 * half]? = some left :=
      ⟨_, List.getElem?_eq_getElem (by omega)⟩
    rw [incrementalTreeAppend, isLeft, atLeft, noRight]
    refine ⟨{ left := ?_, right := ?_, parents := ?_, memo := by simp }, rfl⟩
    · rw [added, show (leaves.length + 1 - 1) / 2 * 2 = 2 * half by omega,
        List.getElem?_append_left (by omega), atLeft]
    · rw [added, if_pos (by omega), Nat.add_sub_cancel, last]
    · rw [added, leftSiblings_append h [obj] (by omega), holds.parents]
      congr 1
      omega
  · obtain ⟨before, isBefore⟩ : ∃ before, half = before + 1 := ⟨half - 1, by omega⟩
    have isLeft : t.left = leaves[2 * before]? := by
      rw [holds.left, even]
      congr 1
      omega
    have isRight : t.right = leaves[2 * before + 1]? := by
      rw [holds.right, if_pos (by omega)]
      congr 1
      omega
    obtain ⟨left, atLeft⟩ : ∃ left, leaves[2 * before]? = some left :=
      ⟨_, List.getElem?_eq_getElem (by omega)⟩
    obtain ⟨right, atRight⟩ : ∃ right, leaves[2 * before + 1]? = some right :=
      ⟨_, List.getElem?_eq_getElem (by omega)⟩
    have pair : h.combine left right 0 = treeNode h leaves 1 before := by
      simp [treeNode, node, padded, atLeft, atRight]
    have index : (leaves.length - 1) / 2 = before := by omega
    have fits : before + 1 < 2 ^ (t.depth - 0) := by
      rw [Nat.sub_zero]
      have width : 2 ^ (t.depth + 1) = 2 * 2 ^ t.depth := by ring
      omega
    rw [incrementalTreeAppend, isLeft, atLeft, isRight, atRight]
    refine ⟨{ left := ?_, right := ?_, parents := ?_, memo := by simp }, rfl⟩
    · rw [added, show (leaves.length + 1 - 1) / 2 * 2 = leaves.length by omega, last]
    · rw [added, if_neg (by omega)]
    · rw [added, show (leaves.length + 1 - 1) / 2 = before + 1 by omega,
        leftSiblings_append h [obj] (by omega)]
      show carryParents h t.depth 0 t.parents (h.combine left right 0) = _
      rw [pair, holds.parents, index]
      exact carryParents_leftSiblings h fits

-- Root and size

theorem rootOverParents_leftSiblings (h : TreeHash α) {leaf : Nat → α} {d index : Nat}
    (empty : ∀ i, (index + 1) * 2 ^ d ≤ i → leaf i = h.uncommitted)
    : ∃ up, rootOverParents h d (leftSiblings (node h.combine leaf) d index)
          (node h.combine leaf d index)
        = (d + up, node h.combine leaf (d + up) 0)
      ∧ index < 2 ^ up ∧ (leftSiblings (node h.combine leaf) d index).length = up := by
  induction index using Nat.strong_induction_on generalizing d with
  | _ index ih =>
    rcases index_cases index with rfl | ⟨half, rfl⟩ | ⟨half, positive, rfl⟩
    · exact ⟨0, by simp [leftSiblings_zero, rootOverParents]⟩
    · have above : ∀ i, (half + 1) * 2 ^ (d + 1) ≤ i → leaf i = h.uncommitted := by
        intro i low
        refine empty i (le_trans (le_of_eq ?_) low)
        ring
      obtain ⟨up, climbs, small, count⟩ := ih half (by omega) above
      refine ⟨up + 1, ?_, ?_, ?_⟩
      · rw [leftSiblings_odd, rootOverParents, show d + (up + 1) = d + 1 + up by omega]
        exact climbs
      · rw [pow_succ]
        omega
      · rw [leftSiblings_odd, List.length_cons, count]
    · have above : ∀ i, (half + 1) * 2 ^ (d + 1) ≤ i → leaf i = h.uncommitted := by
        intro i low
        refine empty i (le_trans ?_ low)
        calc (2 * half + 1) * 2 ^ d ≤ (2 * half + 2) * 2 ^ d :=
              Nat.mul_le_mul_right _ (by omega)
          _ = (half + 1) * 2 ^ (d + 1) := by ring
      have sibling : emptyRootAtDepth h d = node h.combine leaf d (2 * half + 1) :=
        (node_eq_emptyRoot empty).symm
      obtain ⟨up, climbs, small, count⟩ := ih half (by omega) above
      refine ⟨up + 1, ?_, ?_, ?_⟩
      · rw [leftSiblings_even _ _ positive, rootOverParents, sibling,
          show d + (up + 1) = d + 1 + up by omega]
        exact climbs
      · rw [pow_succ]
        omega
      · rw [leftSiblings_even _ _ positive, List.length_cons, count]

theorem padRoot_node (h : TreeHash α) {leaf : Nat → α} (levels : Nat) {d : Nat}
    (empty : ∀ i, 2 ^ d ≤ i → leaf i = h.uncommitted)
    : padRoot h levels d (node h.combine leaf d 0) = node h.combine leaf (d + levels) 0 := by
  induction levels generalizing d with
  | zero => rfl
  | succ levels ih =>
    have sibling : emptyRootAtDepth h d = node h.combine leaf d 1 :=
      (node_eq_emptyRoot (by simpa using empty)).symm
    have above : ∀ i, 2 ^ (d + 1) ≤ i → leaf i = h.uncommitted := by
      intro i low
      refine empty i (le_trans ?_ low)
      rw [pow_succ]
      omega
    rw [padRoot, sibling, show d + (levels + 1) = d + 1 + levels by omega]
    exact ih above

theorem Holds.lastPair (holds : Holds h t leaves)
    : h.combine (t.left.getD (emptyRootAtDepth h 0)) (t.right.getD (emptyRootAtDepth h 0)) 0
        = treeNode h leaves 1 ((leaves.length - 1) / 2) := by
  have left : t.left.getD (emptyRootAtDepth h 0)
      = padded h.uncommitted leaves (2 * ((leaves.length - 1) / 2)) := by
    rw [holds.left, padded, List.getD_eq_getElem?_getD, Nat.mul_comm]
    rfl
  have right : t.right.getD (emptyRootAtDepth h 0)
      = padded h.uncommitted leaves (2 * ((leaves.length - 1) / 2) + 1) := by
    rw [holds.right]
    split
    · rename_i even
      rcases Nat.eq_zero_or_pos leaves.length with zero | positive
      · obtain rfl := List.length_eq_zero_iff.mp zero
        rfl
      · rw [padded, List.getD_eq_getElem?_getD,
          show 2 * ((leaves.length - 1) / 2) + 1 = leaves.length - 1 by omega]
        rfl
    · rw [padded_of_le (by omega)]
      rfl
  rw [left, right]
  rfl

theorem computeRoot_eq (holds : Holds h t leaves) (positive : 0 < t.depth)
    (fits : leaves.length ≤ 2 ^ t.depth)
    : computeRoot h t = treeRoot h.combine h.uncommitted t.depth leaves := by
  have width : 2 ^ t.depth = 2 * 2 ^ (t.depth - 1) := by
    rw [← pow_succ', Nat.sub_add_cancel positive]
  have empty : ∀ i, ((leaves.length - 1) / 2 + 1) * 2 ^ 1 ≤ i →
      padded h.uncommitted leaves i = h.uncommitted :=
    fun i low => padded_of_le (by omega)
  obtain ⟨up, climbs, small, count⟩ := rootOverParents_leftSiblings h empty
  have room : up ≤ t.depth - 1 := by
    rw [← count]
    refine leftSiblings_length_le ?_
    have atLeastOne : 0 < 2 ^ (t.depth - 1) := Nat.two_pow_pos _
    omega
  have emptyAbove : ∀ i, 2 ^ (1 + up) ≤ i → padded h.uncommitted leaves i = h.uncommitted := by
    intro i low
    rw [pow_add, pow_one] at low
    exact padded_of_le (by omega)
  have padding := padRoot_node h (t.depth - (1 + up)) emptyAbove
  rw [show 1 + up + (t.depth - (1 + up)) = t.depth by omega] at padding
  rw [computeRoot, holds.lastPair, holds.parents, treeNode]
  simp only [climbs]
  exact padding

theorem incrementalTreeRoot_holds (holds : Holds h t leaves) (positive : 0 < t.depth)
    (fits : leaves.length ≤ 2 ^ t.depth)
    : (incrementalTreeRoot h t).1 = treeRoot h.combine h.uncommitted t.depth leaves
        ∧ Holds h (incrementalTreeRoot h t).2 leaves := by
  have fresh := computeRoot_eq holds positive fits
  rw [incrementalTreeRoot]
  split
  · rename_i root cached
    exact ⟨holds.memo root cached, holds⟩
  · exact ⟨fresh, { holds with memo := fun root same => by rw [← Option.some.inj same, fresh] }⟩

theorem parentsSize_leftSiblings (value : Nat → Nat → α) (i index : Nat)
    : parentsSize i (leftSiblings value (i + 1) index) = index * 2 ^ (i + 1) := by
  induction index using Nat.strong_induction_on generalizing i with
  | _ index ih =>
    rcases index_cases index with rfl | ⟨half, rfl⟩ | ⟨half, positive, rfl⟩
    · simp [leftSiblings_zero, parentsSize]
    · rw [leftSiblings_odd, parentsSize, ih half (by omega)]
      simp only [Option.isSome_some, if_true]
      ring
    · rw [leftSiblings_even _ _ positive, parentsSize, ih half (by omega)]
      simp only [Option.isSome_none, Bool.false_eq_true, if_false]
      ring

theorem Holds.isSome_left (holds : Holds h t leaves)
    : t.left.isSome = decide (0 < leaves.length) := by
  rw [holds.left, Bool.eq_iff_iff, decide_eq_true_eq, isSome_getElem?]
  omega

theorem Holds.isSome_right (holds : Holds h t leaves)
    : t.right.isSome = decide (0 < leaves.length ∧ leaves.length % 2 = 0) := by
  rw [holds.right]
  split
  · rw [Bool.eq_iff_iff, decide_eq_true_eq, isSome_getElem?]
    omega
  · rename_i odd
    simp [odd]

theorem incrementalTreeSize_eq (holds : Holds h t leaves)
    : incrementalTreeSize t = leaves.length := by
  rw [incrementalTreeSize, holds.parents, parentsSize_leftSiblings, holds.isSome_left,
    holds.isSome_right]
  simp only [decide_eq_true_eq]
  split <;> split <;> omega

-- Runs

/-- A step of a run: a leaf is appended, or the root is asked for. -/
inductive TreeOp (α : Type) where
  | append (obj : α)
  | root
deriving DecidableEq, Repr

def stepTree (h : TreeHash α) (t : IncrementalMerkleTree α) : TreeOp α → IncrementalMerkleTree α
  | .append obj => incrementalTreeAppend h t obj
  | .root => (incrementalTreeRoot h t).2

def runTree (h : TreeHash α) (t : IncrementalMerkleTree α) (ops : List (TreeOp α))
    : IncrementalMerkleTree α :=
  ops.foldl (stepTree h) t

/-- The leaves that a run appends, in order. -/
def appendedLeaves : List (TreeOp α) → List α
  | [] => []
  | .append obj :: ops => obj :: appendedLeaves ops
  | .root :: ops => appendedLeaves ops

theorem runTree_holds {ops : List (TreeOp α)} (holds : Holds h t leaves) (positive : 0 < t.depth)
    (fits : leaves.length + (appendedLeaves ops).length ≤ 2 ^ t.depth)
    : Holds h (runTree h t ops) (leaves ++ appendedLeaves ops)
        ∧ (runTree h t ops).depth = t.depth := by
  induction ops generalizing t leaves with
  | nil => simpa [runTree, appendedLeaves] using holds
  | cons op ops ih =>
    cases op with
    | append obj =>
      simp only [appendedLeaves, List.length_cons] at fits
      have room : leaves.length < 2 ^ (t.depth + 1) := by
        rw [pow_succ]
        omega
      obtain ⟨next, sameDepth⟩ := incrementalTreeAppend_holds holds room obj
      have run := ih next (by rwa [sameDepth]) (by
        rw [sameDepth, List.length_append, List.length_singleton]
        omega)
      rw [sameDepth] at run
      simpa [runTree, stepTree, appendedLeaves] using run
    | root =>
      simp only [appendedLeaves] at fits
      have next := (incrementalTreeRoot_holds holds positive (by omega)).2
      have sameDepth : (incrementalTreeRoot h t).2.depth = t.depth := by
        rw [incrementalTreeRoot]
        split <;> rfl
      have run := ih next (by rwa [sameDepth]) (by rwa [sameDepth])
      rw [sameDepth] at run
      simpa [runTree, stepTree, appendedLeaves] using run

theorem runTree_init {depth : Nat} {ops : List (TreeOp α)} (positive : 0 < depth)
    (fits : (appendedLeaves ops).length ≤ 2 ^ depth)
    : Holds h (runTree h (treeInit depth) ops) (appendedLeaves ops)
        ∧ (runTree h (treeInit depth) ops).depth = depth
        ∧ (incrementalTreeRoot h (runTree h (treeInit depth) ops)).1
          = treeRoot h.combine h.uncommitted depth (appendedLeaves ops) := by
  obtain ⟨holds, sameDepth⟩ := runTree_holds (treeInit_holds h depth) positive
    (by simpa [treeInit] using fits)
  have isDepth : (runTree h (treeInit depth) ops).depth = depth := sameDepth
  have root := (incrementalTreeRoot_holds holds (by omega) (by rwa [isDepth, List.nil_append])).1
  rw [isDepth] at root
  exact ⟨holds, isDepth, root⟩

/--
After any run of appends and root queries within the capacity, the root is that of the complete
tree and the size counts the leaves. One append beyond the capacity is stored as well.
-/
theorem incrementalTree_correct (h : TreeHash α) {depth : Nat} (positive : 0 < depth)
    (ops : List (TreeOp α)) (fits : (appendedLeaves ops).length ≤ 2 ^ depth)
    : (incrementalTreeRoot h (runTree h (treeInit depth) ops)).1
        = treeRoot h.combine h.uncommitted depth (appendedLeaves ops)
      ∧ incrementalTreeSize (runTree h (treeInit depth) ops) = (appendedLeaves ops).length
      ∧ ((appendedLeaves ops).length = 2 ^ depth → ∀ obj,
          incrementalTreeSize (incrementalTreeAppend h (runTree h (treeInit depth) ops) obj)
            = 2 ^ depth + 1) := by
  obtain ⟨holds, isDepth, root⟩ := runTree_init positive fits
  refine ⟨root, incrementalTreeSize_eq holds, ?_⟩
  intro full obj
  have room : (appendedLeaves ops).length < 2 ^ ((runTree h (treeInit depth) ops).depth + 1) := by
    have atLeastOne : 0 < 2 ^ depth := Nat.two_pow_pos _
    rw [isDepth, full, pow_succ]
    omega
  have next := (incrementalTreeAppend_holds holds room obj).1
  rw [incrementalTreeSize_eq next, List.length_append, full, List.length_singleton]

def sampleTreeHash : TreeHash Nat := ⟨fun left right level => 5 * left + 3 * right + level + 1, 0⟩

theorem incrementalTree_correct_three
    : (incrementalTreeRoot sampleTreeHash (runTree sampleTreeHash (treeInit 2)
        [.append 7, .append 8, .root, .append 9])).1
        = treeRoot sampleTreeHash.combine sampleTreeHash.uncommitted 2 [7, 8, 9] :=
  (incrementalTree_correct sampleTreeHash (by decide)
    [.append 7, .append 8, .root, .append 9] (by decide)).1

/--
A third leaf is stored in a tree of depth one, and the root of a tree of depth zero is not its leaf.
-/
theorem incrementalTree_never_refuses
    : incrementalTreeSize (runTree sampleTreeHash (treeInit 1) [.append 7, .append 8, .append 9]) = 3
        ∧ runTree sampleTreeHash (treeInit 1) [.append 7, .append 8, .append 9]
          ≠ runTree sampleTreeHash (treeInit 1) [.append 7, .append 8]
        ∧ (incrementalTreeRoot sampleTreeHash (runTree sampleTreeHash (treeInit 0) [.append 7])).1
          ≠ treeRoot sampleTreeHash.combine sampleTreeHash.uncommitted 0 [7] := by
  decide

end Z23.Sapling
