import Z23.Sapling.IncrementalTree

/-!
A witness keeps the tree as it was when its last leaf came, and fills the right siblings of that
leaf's path from the leaves that come later.
-/

namespace Z23.Sapling

open Z23.Lib.MerkleTree

variable {α : Type}

-- The witness

structure IncrementalWitness (α : Type) where
  tree : IncrementalMerkleTree α
  filled : List α
  cursor : Option (IncrementalMerkleTree α)
  cursorDepth : Nat
deriving DecidableEq, Repr

def maxWitnessFills : Nat := 64

/-- The depths that `tree_init` and the reader of a stored witness let through. -/
def depthInRange (depth : Nat) : Bool := 0 < depth && depth ≤ maxTreeDepth

/-- The loop of `next_depth` over the parents, whose first one is at level `d`. -/
def nextDepthOver : Nat → List (Option α) → Nat → Nat
  | d, [], skip => d + skip
  | d, some _ :: rest, skip => nextDepthOver (d + 1) rest skip
  | d, none :: _, 0 => d
  | d, none :: rest, skip + 1 => nextDepthOver (d + 1) rest skip

/-- The level of the right sibling that comes after `skip` others. -/
def nextDepth (t : IncrementalMerkleTree α) (skip : Nat) : Nat :=
  match t.right, skip with
  | none, 0 => 0
  | none, skip + 1 => nextDepthOver 1 t.parents skip
  | some _, skip => nextDepthOver 1 t.parents skip

def incrementalWitnessInit (tree : IncrementalMerkleTree α) : IncrementalWitness α :=
  ⟨tree, [], none, nextDepth tree 0⟩

/-- A completed sibling is stored while there is a place for it. -/
def pushFilled (w : IncrementalWitness α) (sibling : α) : IncrementalWitness α :=
  let filled := if w.filled.length < maxWitnessFills then w.filled ++ [sibling] else w.filled
  { w with filled, cursor := none, cursorDepth := nextDepth w.tree filled.length }

def incrementalWitnessAppend (h : TreeHash α) (w : IncrementalWitness α) (obj : α)
    : IncrementalWitness α :=
  match w.cursor with
  | some cursor =>
    let cursor := incrementalTreeAppend h cursor obj
    if incrementalTreeIsComplete cursor then pushFilled w (incrementalTreeRoot h cursor).1
    else { w with cursor := some cursor }
  | none =>
    let cursorDepth := nextDepth w.tree w.filled.length
    if cursorDepth = 0 then pushFilled w obj
    else
      { w with
        cursor := some (incrementalTreeAppend h (treeInit cursorDepth) obj)
        cursorDepth := cursorDepth }

/-- The next right sibling: a stored one, the root of the cursor, or an empty subtree. -/
def takeFiller (h : TreeHash α) (w : IncrementalWitness α) (filledIdx depth : Nat)
    : α × Nat × IncrementalWitness α :=
  match w.filled[filledIdx]?, w.cursor with
  | some filler, _ => (filler, filledIdx + 1, w)
  | none, some cursor =>
    if filledIdx = w.filled.length then
      let (filler, cursor) := incrementalTreeRoot h cursor
      (filler, filledIdx + 1, { w with cursor := some cursor })
    else (emptyRootAtDepth h depth, filledIdx, w)
  | none, none => (emptyRootAtDepth h depth, filledIdx, w)

/-- The loop of the witness root: `levels` levels from level `d`. -/
def witnessRootOver (h : TreeHash α)
    : Nat → Nat → List (Option α) → Nat → IncrementalWitness α → α → α × IncrementalWitness α
  | 0, _, _, _, w, root => (root, w)
  | levels + 1, d, parents, filledIdx, w, root =>
    match parents.head?.join with
    | some parent =>
      witnessRootOver h levels (d + 1) parents.tail filledIdx w (h.combine parent root d)
    | none =>
      let (filler, filledIdx, w) := takeFiller h w filledIdx d
      witnessRootOver h levels (d + 1) parents.tail filledIdx w (h.combine root filler d)

/--
The loop runs up to the depth of the tree, and once in any case when there are parents. The
witness that comes back remembers the root of its cursor.
-/
def incrementalWitnessRoot (h : TreeHash α) (w : IncrementalWitness α)
    : α × IncrementalWitness α :=
  let left := w.tree.left.getD h.uncommitted
  let right := w.tree.right.getD (w.filled.head?.getD h.uncommitted)
  let filledIdx := if w.tree.right.isSome then 0 else if 0 < w.filled.length then 1 else 0
  witnessRootOver h (max (w.tree.depth - 1) (min 1 w.tree.parents.length)) 1 w.tree.parents
    filledIdx w (h.combine left right 0)

/-- The loop of the path: the siblings of `levels` levels with their position bits. -/
def merklePathOver (h : TreeHash α)
    : Nat → Nat → List (Option α) → Nat → IncrementalWitness α →
      List (α × Bool) × IncrementalWitness α
  | 0, _, _, _, w => ([], w)
  | levels + 1, d, parents, filledIdx, w =>
    match parents.head?.join with
    | some parent =>
      let (rest, w) := merklePathOver h levels (d + 1) parents.tail filledIdx w
      ((parent, true) :: rest, w)
    | none =>
      let (filler, filledIdx, w) := takeFiller h w filledIdx d
      let (rest, w) := merklePathOver h levels (d + 1) parents.tail filledIdx w
      ((filler, false) :: rest, w)

/-- Level zero of the path, and the stored siblings that it takes. -/
def merklePathBase (h : TreeHash α) (w : IncrementalWitness α) : (α × Bool) × Nat :=
  match w.tree.right, w.filled with
  | some _, _ => ((w.tree.left.getD h.uncommitted, true), 0)
  | none, filler :: _ => ((filler, false), 1)
  | none, [] => ((h.uncommitted, false), 0)

/-- The siblings and position bits from the leaf up; there are none for an empty tree. -/
def incrementalWitnessMerklePath (h : TreeHash α) (w : IncrementalWitness α)
    : Option (List (α × Bool)) × IncrementalWitness α :=
  let depth := w.tree.depth
  if incrementalTreeSize w.tree = 0 then (none, w)
  else
    let (base, filledIdx) := merklePathBase h w
    let (rest, w) := merklePathOver h (depth - 1) 1 w.tree.parents filledIdx w
    (some ((base :: rest).take depth), w)

-- The next sibling

/-- A zero digit of an index, with the number of zero digits below it. -/
structure ZeroDigit (index level skip : Nat) : Prop where
  zero : index / 2 ^ level % 2 = 0
  count : zerosBelow index level = skip

variable {m : Nat}

theorem nextDepthOver_leftSiblings (value : Nat → Nat → α) {level index : Nat} (skip : Nat)
    (above : m / 2 ^ level = index)
    : ZeroDigit m (nextDepthOver level (leftSiblings value level index) skip)
        (zerosBelow m level + skip) := by
  induction index using Nat.strong_induction_on generalizing level skip with
  | _ index ih =>
    have parent : m / 2 ^ (level + 1) = index / 2 := by rw [div_two_pow_succ, above]
    rcases index_cases index with rfl | ⟨half, rfl⟩ | ⟨half, positive, rfl⟩
    · obtain ⟨zero, count⟩ := zerosBelow_above above skip
      rw [leftSiblings_zero, nextDepthOver]
      exact ⟨by rw [zero], count⟩
    · have one : m / 2 ^ level % 2 = 1 := by omega
      have further := ih half (by omega) skip (by omega : m / 2 ^ (level + 1) = half)
      rw [zerosBelow_succ_of_one one] at further
      rwa [leftSiblings_odd, nextDepthOver]
    · have zero : m / 2 ^ level % 2 = 0 := by omega
      rw [leftSiblings_even value level positive]
      cases skip with
      | zero => exact ⟨zero, rfl⟩
      | succ skip =>
        have further := ih half (by omega) skip (by omega : m / 2 ^ (level + 1) = half)
        rw [zerosBelow_succ_of_zero zero, Nat.add_assoc, Nat.add_comm 1] at further
        rwa [nextDepthOver]

variable {h : TreeHash α} {leaves : List α}

theorem nextDepth_zeroDigit {t : IncrementalMerkleTree α} (holds : Holds h t leaves)
    (last : leaves.length = m + 1) (skip : Nat)
    : ZeroDigit m (nextDepth t skip) skip := by
  have parents : t.parents = leftSiblings (treeNode h leaves) 1 (m / 2) := by
    rw [holds.parents, last, Nat.add_sub_cancel]
  have present := holds.isSome_right
  rw [last] at present
  have above (skip : Nat) := nextDepthOver_leftSiblings (treeNode h leaves) skip
    (show m / 2 ^ 1 = m / 2 by rw [pow_one])
  rcases isRight : t.right with _ | right
  · rw [isRight, Option.isSome_none, eq_comm, decide_eq_false_iff_not] at present
    have zero : m / 2 ^ 0 % 2 = 0 := by
      rw [pow_zero, Nat.div_one]
      omega
    cases skip with
    | zero =>
      simp only [nextDepth, isRight]
      exact ⟨zero, rfl⟩
    | succ skip =>
      have further := above skip
      rw [zerosBelow_succ_of_zero zero, zerosBelow, Nat.zero_add, Nat.add_comm] at further
      simpa only [nextDepth, isRight, parents] using further
  · rw [isRight, Option.isSome_some, eq_comm, decide_eq_true_eq] at present
    have one : m / 2 ^ 0 % 2 = 1 := by
      rw [pow_zero, Nat.div_one]
      omega
    have further := above skip
    rw [zerosBelow_succ_of_one one, zerosBelow, Nat.zero_add] at further
    simpa only [nextDepth, isRight, parents] using further

theorem incrementalTreeIsComplete_iff {t : IncrementalMerkleTree α} (holds : Holds h t leaves)
    (positive : 0 < t.depth)
    : incrementalTreeIsComplete t = true ↔ leaves.length = 2 ^ t.depth := by
  obtain ⟨below, isDepth⟩ : ∃ below, t.depth = below + 1 := ⟨t.depth - 1, by omega⟩
  have width : 2 ^ (below + 1) = 2 * 2 ^ below := by ring
  have wide : 0 < 2 ^ below := Nat.two_pow_pos _
  have full : t.parents.length = below ∧ t.parents.all Option.isSome = true
      ↔ (leaves.length - 1) / 2 + 1 = 2 ^ below := by
    rw [holds.parents]
    exact leftSiblings_full
  rw [incrementalTreeIsComplete, holds.isSome_left, holds.isSome_right, isDepth]
  simp only [Bool.and_eq_true, decide_eq_true_eq, beq_iff_eq, Nat.add_right_cancel_iff,
    and_assoc, full]
  omega

-- Filling

/-- A cursor holds the leaves from `start` on and is not complete. -/
structure Filling (h : TreeHash α) (cursor : IncrementalMerkleTree α) (level start : Nat)
    (leaves : List α) : Prop where
  depth : cursor.depth = level
  positive : 0 < level
  holds : Holds h cursor (leaves.drop start)
  begun : start < leaves.length
  room : leaves.length < start + 2 ^ level

/--
The witness of leaf `m` has stored its right siblings below `level`, each of them complete, and
its cursor holds the leaves of the one at `level`.
-/
structure Tracks (h : TreeHash α) (w : IncrementalWitness α) (m level : Nat) (leaves : List α)
    : Prop where
  tree : Holds h w.tree (leaves.take (m + 1))
  next : ZeroDigit m level w.filled.length
  filled : ∀ low < level, m / 2 ^ low % 2 = 0 →
    w.filled[zerosBelow m low]? = some (treeNode h leaves low (m / 2 ^ low + 1))
  covered : leafAfter m level ≤ leaves.length
  idle : w.cursor = none → leaves.length = leafAfter m level
  filling : ∀ cursor, w.cursor = some cursor →
    Filling h cursor level (leafAfter m level) leaves

theorem Tracks.inside {w : IncrementalWitness α} {level : Nat} (tracks : Tracks h w m level leaves)
    : m < leaves.length := by
  have low := leafAfter_mono m (Nat.zero_le level)
  rw [leafAfter_zero] at low
  exact lt_of_lt_of_le low tracks.covered

theorem Tracks.takenLength {w : IncrementalWitness α} {level : Nat}
    (tracks : Tracks h w m level leaves)
    : (leaves.take (m + 1)).length = m + 1 := by
  have inside := tracks.inside
  rw [List.length_take]
  omega

theorem incrementalWitnessInit_tracks {tree : IncrementalMerkleTree α} (holds : Holds h tree leaves)
    (last : leaves.length = m + 1)
    : Tracks h (incrementalWitnessInit tree) m (nextDepth tree 0) leaves := by
  have next := nextDepth_zeroDigit holds last 0
  have start : leafAfter m (nextDepth tree 0) = m + 1 := by
    rw [leafAfter_eq_of_zerosBelow (Nat.zero_le _) next.count, leafAfter_zero]
  have whole : leaves.take (m + 1) = leaves := List.take_of_length_le (by omega)
  refine { tree := ?_, next := next, filled := ?_, covered := ?_, idle := ?_, filling := ?_ }
  · rw [whole]
    exact holds
  · intro low lt zero
    have fewer := zerosBelow_lt zero lt
    rw [next.count] at fewer
    omega
  · omega
  · intro _
    omega
  · intro cursor absurd
    cases absurd

theorem treeNode_sibling_append (h : TreeHash α) (more : List α) {low level : Nat}
    (lt : low < level) (zero : m / 2 ^ low % 2 = 0) (covered : leafAfter m level ≤ leaves.length)
    : treeNode h (leaves ++ more) low (m / 2 ^ low + 1)
        = treeNode h leaves low (m / 2 ^ low + 1) := by
  refine treeNode_append h more ?_
  calc (m / 2 ^ low + 1 + 1) * 2 ^ low = leafAfter m low + 2 ^ low := by rw [leafAfter]; ring
    _ = leafAfter m (low + 1) := (leafAfter_succ_of_zero zero).symm
    _ ≤ leafAfter m level := leafAfter_mono m lt
    _ ≤ leaves.length := covered

theorem pushFilled_tracks {w : IncrementalWitness α} {level : Nat} {obj sibling : α}
    (tracks : Tracks h w m level leaves) (place : w.filled.length < maxWitnessFills)
    (complete : leaves.length + 1 = leafAfter m level + 2 ^ level)
    (isSibling : sibling = treeNode h (leaves ++ [obj]) level (m / 2 ^ level + 1))
    : ∃ next, Tracks h (pushFilled w sibling) m next (leaves ++ [obj]) := by
  have inside := tracks.inside
  have next := nextDepth_zeroDigit tracks.tree tracks.takenLength (w.filled.length + 1)
  have here := zerosBelow_succ_of_zero tracks.next.zero
  rw [tracks.next.count] at here
  have later : level + 1 ≤ nextDepth w.tree (w.filled.length + 1) := by
    by_contra early
    have fewer := zerosBelow_mono m (show nextDepth w.tree (w.filled.length + 1) ≤ level by omega)
    rw [next.count, tracks.next.count] at fewer
    omega
  have start : leafAfter m (nextDepth w.tree (w.filled.length + 1)) = (leaves ++ [obj]).length := by
    rw [leafAfter_eq_of_zerosBelow later (by rw [next.count, here]),
      leafAfter_succ_of_zero tracks.next.zero, ← complete, List.length_append,
      List.length_singleton]
  have pushed : (pushFilled w sibling).filled = w.filled ++ [sibling] := by
    rw [pushFilled]
    exact if_pos place
  refine ⟨nextDepth w.tree (w.filled.length + 1),
    { tree := ?_, next := ?_, filled := ?_, covered := ?_, idle := ?_, filling := ?_ }⟩
  · rw [List.take_append_of_le_length inside]
    exact tracks.tree
  · rw [pushed, List.length_append, List.length_singleton]
    exact next
  · intro low lt zero
    rw [pushed]
    rcases lt_trichotomy low level with below | rfl | above
    · have stored := tracks.filled low below zero
      rw [treeNode_sibling_append h [obj] below zero tracks.covered, List.getElem?_append_left,
        stored]
      have fewer := zerosBelow_lt zero below
      rwa [tracks.next.count] at fewer
    · rw [tracks.next.count, isSibling]
      simp
    · have more := zerosBelow_mono m (show level + 1 ≤ low from above)
      have fewer := zerosBelow_lt zero lt
      rw [next.count] at fewer
      omega
  · rw [start]
  · intro _
    rw [start]
  · intro cursor absurd
    cases absurd

theorem ZeroDigit.unique {index low high skip : Nat} (first : ZeroDigit index low skip)
    (second : ZeroDigit index high skip) : low = high := by
  rcases lt_trichotomy low high with lt | same | gt
  · have fewer := zerosBelow_lt first.zero lt
    rw [first.count, second.count] at fewer
    omega
  · exact same
  · have fewer := zerosBelow_lt second.zero gt
    rw [first.count, second.count] at fewer
    omega

section

variable {w : IncrementalWitness α} {level : Nat} (tracks : Tracks h w m level leaves)
include tracks

theorem Tracks.place (fits : leaves.length < 2 ^ maxTreeDepth)
    : w.filled.length < maxWitnessFills := by
  have wide : 2 ^ level < 2 ^ maxTreeDepth :=
    lt_of_le_of_lt (le_trans (two_pow_le_leafAfter m level) tracks.covered) fits
  have low : level < maxTreeDepth := (Nat.pow_lt_pow_iff_right (by decide)).mp wide
  have count := zerosBelow_le m level
  rw [tracks.next.count] at count
  rw [maxTreeDepth] at low
  rw [maxWitnessFills]
  omega

theorem Tracks.append {depth : Nat} {obj : α} {cursor : IncrementalMerkleTree α}
    (filling : Filling h cursor level (leafAfter m level) (leaves ++ [obj]))
    : Tracks h { w with cursor := some cursor, cursorDepth := depth } m level
        (leaves ++ [obj]) where
  tree := by
    rw [List.take_append_of_le_length tracks.inside]
    exact tracks.tree
  next := tracks.next
  filled := by
    intro low lt zero
    rw [treeNode_sibling_append h [obj] lt zero tracks.covered]
    exact tracks.filled low lt zero
  covered := le_of_lt filling.begun
  idle := by
    intro absurd
    cases absurd
  filling := by
    intro other same
    cases same
    exact filling

theorem incrementalWitnessAppend_tracks (fits : leaves.length < 2 ^ maxTreeDepth) (obj : α)
    : ∃ next, Tracks h (incrementalWitnessAppend h w obj) m next (leaves ++ [obj]) := by
  have place := tracks.place fits
  have added : (leaves ++ [obj]).length = leaves.length + 1 := by simp
  have covered := tracks.covered
  rcases isCursor : w.cursor with _ | cursor
  · have start := tracks.idle isCursor
    have isLevel : nextDepth w.tree w.filled.length = level :=
      (nextDepth_zeroDigit tracks.tree tracks.takenLength _).unique tracks.next
    rw [incrementalWitnessAppend, isCursor]
    simp only [isLevel]
    split
    · rename_i bottom
      subst bottom
      have isLast : m / 2 ^ 0 + 1 = leaves.length := by
        rw [start, leafAfter]
        simp
      refine pushFilled_tracks tracks place ?_ ?_
      · rw [start, pow_zero]
      · rw [isLast]
        simp [treeNode, node, padded]
    · rename_i above
      have first := (incrementalTreeAppend_holds (treeInit_holds h level)
        (by simp) obj)
      have wide : 2 ^ 1 ≤ 2 ^ level := Nat.pow_le_pow_right (by decide) (by omega)
      refine ⟨level, tracks.append
        { depth := first.2, positive := by omega, holds := ?_, begun := ?_, room := ?_ }⟩
      · rw [← start, List.drop_left]
        exact first.1
      · omega
      · omega
  · have filling := tracks.filling cursor isCursor
    have dropped : (leaves ++ [obj]).drop (leafAfter m level)
        = leaves.drop (leafAfter m level) ++ [obj] := List.drop_append_of_le_length covered
    have count : (leaves.drop (leafAfter m level)).length = leaves.length - leafAfter m level :=
      List.length_drop
    have begun := filling.begun
    have room := filling.room
    have isDepth := filling.depth
    obtain ⟨holds, sameDepth⟩ := incrementalTreeAppend_holds filling.holds (by
      rw [isDepth, count, pow_succ]
      omega) obj
    rw [isDepth] at sameDepth
    rw [← dropped] at holds
    have isComplete :=
      incrementalTreeIsComplete_iff holds (by rw [sameDepth]; exact filling.positive)
    rw [sameDepth, List.length_drop, added] at isComplete
    rw [incrementalWitnessAppend, isCursor]
    simp only
    split
    · rename_i complete
      have full := isComplete.mp complete
      have root := (incrementalTreeRoot_holds holds (by rw [sameDepth]; exact filling.positive) (by
        rw [sameDepth, List.length_drop, added, full])).1
      refine pushFilled_tracks tracks place (by omega) ?_
      rw [root, sameDepth, leafAfter, treeRoot_drop]
      rfl
    · rename_i incomplete
      have notFull := mt isComplete.mpr incomplete
      exact ⟨level, tracks.append
        { depth := sameDepth, positive := filling.positive, holds := holds, begun := by omega,
          room := by omega }⟩

end

-- Root and path

/-- How many siblings the loops have taken when they come to a level. -/
def fillersTaken (w : IncrementalWitness α) (m level : Nat) : Nat :=
  min (zerosBelow m level) (w.filled.length + if w.cursor.isSome then 1 else 0)

theorem treeNode_after {level : Nat} (short : leaves.length ≤ leafAfter m level)
    : treeNode h leaves level (m / 2 ^ level + 1) = emptyRootAtDepth h level :=
  node_eq_emptyRoot fun _ low => padded_of_le (le_trans short low)

theorem Tracks.short {w : IncrementalWitness α} {level above : Nat}
    (tracks : Tracks h w m level leaves) (lt : level < above)
    : leaves.length ≤ leafAfter m above := by
  refine le_trans ?_ (leafAfter_mono m (show level + 1 ≤ above from lt))
  rw [leafAfter_succ_of_zero tracks.next.zero]
  rcases isCursor : w.cursor with _ | cursor
  · rw [tracks.idle isCursor]
    exact Nat.le_add_right _ _
  · exact le_of_lt (tracks.filling cursor isCursor).room

section

variable {w : IncrementalWitness α} {next : Nat} (tracks : Tracks h w m next leaves)
include tracks

theorem takeFiller_tracks {level : Nat} (zero : m / 2 ^ level % 2 = 0)
    : ∃ w', takeFiller h w (fillersTaken w m level) level
          = (treeNode h leaves level (m / 2 ^ level + 1), fillersTaken w' m (level + 1), w')
        ∧ Tracks h w' m next leaves := by
  have step := zerosBelow_succ_of_zero zero
  have count := tracks.next.count
  rcases lt_trichotomy level next with below | rfl | above
  · have fewer := zerosBelow_lt zero below
    rw [count] at fewer
    have taken : fillersTaken w m level = zerosBelow m level := by
      rw [fillersTaken]
      omega
    have after : fillersTaken w m (level + 1) = zerosBelow m level + 1 := by
      rw [fillersTaken, step]
      omega
    refine ⟨w, ?_, tracks⟩
    rw [taken, after, takeFiller, tracks.filled level below zero]
  · have taken : fillersTaken w m level = w.filled.length := by
      rw [fillersTaken, count]
      omega
    have noMore : w.filled[w.filled.length]? = none := by simp
    rcases isCursor : w.cursor with _ | cursor
    · have after : fillersTaken w m (level + 1) = w.filled.length := by
        rw [fillersTaken, step, count, isCursor]
        simp
      refine ⟨w, ?_, tracks⟩
      rw [taken, after, takeFiller, noMore, isCursor, treeNode_after (tracks.idle isCursor).le]
    · have filling := tracks.filling cursor isCursor
      have room := filling.room
      obtain ⟨root, memo⟩ := incrementalTreeRoot_holds filling.holds
        (by rw [filling.depth]; exact filling.positive)
        (by rw [filling.depth, List.length_drop]; exact Nat.sub_le_iff_le_add'.mpr room.le)
      rw [filling.depth, leafAfter, treeRoot_drop] at root
      have sameDepth : (incrementalTreeRoot h cursor).2.depth = level := by
        rw [← filling.depth, incrementalTreeRoot]
        split <;> rfl
      refine ⟨{ w with cursor := some (incrementalTreeRoot h cursor).2 }, ?_,
        { tracks with idle := by simp, filling := ?_ }⟩
      · have after : fillersTaken { w with cursor := some (incrementalTreeRoot h cursor).2 } m
            (level + 1) = w.filled.length + 1 := by
          rw [fillersTaken, step, count]
          simp
        rw [taken, after, takeFiller, noMore, isCursor]
        simp only [if_true, root]
        rfl
      · intro other same
        cases same
        exact { filling with depth := sameDepth, holds := memo }
  · have more := zerosBelow_mono m (show next + 1 ≤ level from above)
    rw [zerosBelow_succ_of_zero tracks.next.zero, count] at more
    have taken : fillersTaken w m level
        = w.filled.length + if w.cursor.isSome then 1 else 0 := by
      rw [fillersTaken]
      split <;> omega
    have after : fillersTaken w m (level + 1)
        = w.filled.length + if w.cursor.isSome then 1 else 0 := by
      rw [fillersTaken, step]
      split <;> omega
    have noMore : w.filled[w.filled.length + if w.cursor.isSome then 1 else 0]? = none := by simp
    refine ⟨w, ?_, tracks⟩
    rw [taken, after, takeFiller, noMore, treeNode_after (tracks.short above)]
    rcases isCursor : w.cursor with _ | cursor
    · simp
    · simp

theorem witnessRootOver_tracks (levels level : Nat) : ∃ w', witnessRootOver h levels level
            (leftSiblings (treeNode h leaves) level (m / 2 ^ level)) (fillersTaken w m level) w
            (treeNode h leaves level (m / 2 ^ level))
          = (treeNode h leaves (level + levels) (m / 2 ^ (level + levels)), w')
        ∧ Tracks h w' m next leaves := by
  induction levels generalizing w level with
  | zero => exact ⟨w, rfl, tracks⟩
  | succ levels ih =>
    have parent := div_two_pow_succ m level
    rw [witnessRootOver, leftSiblings_head, leftSiblings_tail, ← parent,
      show level + (levels + 1) = level + 1 + levels by omega]
    rcases Nat.mod_two_eq_zero_or_one (m / 2 ^ level) with zero | one
    · obtain ⟨w', taken, tracks'⟩ := takeFiller_tracks tracks zero
      have above : treeNode h leaves (level + 1) (m / 2 ^ (level + 1))
          = h.combine (treeNode h leaves level (m / 2 ^ level))
            (treeNode h leaves level (m / 2 ^ level + 1)) level := by
        rw [parent]
        exact node_above_even _ zero
      rw [if_neg (by omega)]
      simp only [taken, ← above]
      exact ih tracks' (level + 1)
    · have above : treeNode h leaves (level + 1) (m / 2 ^ (level + 1))
          = h.combine (treeNode h leaves level (m / 2 ^ level - 1))
            (treeNode h leaves level (m / 2 ^ level)) level := by
        rw [parent]
        exact node_above_odd _ one
      have same : fillersTaken w m (level + 1) = fillersTaken w m level := by
        rw [fillersTaken, fillersTaken, zerosBelow_succ_of_one one]
      rw [if_pos one]
      simp only [← above, ← same]
      exact ih tracks (level + 1)

theorem merklePathOver_tracks (levels level : Nat) : ∃ w', merklePathOver h levels level
            (leftSiblings (treeNode h leaves) level (m / 2 ^ level)) (fillersTaken w m level) w
          = (siblingPath (treeNode h leaves) levels level (m / 2 ^ level), w')
        ∧ Tracks h w' m next leaves := by
  induction levels generalizing w level with
  | zero => exact ⟨w, rfl, tracks⟩
  | succ levels ih =>
    have parent := div_two_pow_succ m level
    rw [merklePathOver, siblingPath, leftSiblings_head, leftSiblings_tail, ← parent]
    rcases Nat.mod_two_eq_zero_or_one (m / 2 ^ level) with zero | one
    · obtain ⟨w', taken, tracks'⟩ := takeFiller_tracks tracks zero
      obtain ⟨last, rest, tracksLast⟩ := ih tracks' (level + 1)
      rw [if_neg (by omega), if_neg (by omega)]
      simp only [taken, rest]
      exact ⟨last, rfl, tracksLast⟩
    · have same : fillersTaken w m (level + 1) = fillersTaken w m level := by
        rw [fillersTaken, fillersTaken, zerosBelow_succ_of_one one]
      obtain ⟨last, rest, tracksLast⟩ := ih tracks (level + 1)
      rw [if_pos one, if_pos one]
      simp only [← same, rest]
      exact ⟨last, rfl, tracksLast⟩

theorem Tracks.parents : w.tree.parents = leftSiblings (treeNode h leaves) 1 (m / 2 ^ 1) := by
  have whole : leaves = leaves.take (m + 1) ++ leaves.drop (m + 1) :=
    (List.take_append_drop _ _).symm
  have pairs : 2 * (m / 2 ^ 1) ≤ (leaves.take (m + 1)).length := by
    rw [tracks.takenLength, pow_one]
    omega
  rw [tracks.tree.parents, tracks.takenLength, Nat.add_sub_cancel, pow_one]
  rw [pow_one] at pairs
  conv_rhs => rw [whole]
  exact (leftSiblings_append h _ pairs).symm

theorem Tracks.bottom : (m % 2 = 1 → w.tree.right = some (treeNode h leaves 0 m)
          ∧ w.tree.left = some (treeNode h leaves 0 (m - 1)))
        ∧ (m % 2 = 0 → w.tree.right = none ∧ w.tree.left = some (treeNode h leaves 0 m)
          ∧ w.filled.head?.getD h.uncommitted = treeNode h leaves 0 (m + 1)) := by
  have inside := tracks.inside
  have leafAt (i : Nat) (low : i ≤ m)
      : (leaves.take (m + 1))[i]? = some (treeNode h leaves 0 i) := by
    rw [List.getElem?_take_of_lt (by omega), List.getElem?_eq_getElem (by omega)]
    simp [treeNode, node, padded, List.getElem?_eq_getElem (show i < leaves.length by omega)]
  have left := tracks.tree.left
  have right := tracks.tree.right
  rw [tracks.takenLength, Nat.add_sub_cancel] at left right
  rw [leafAt _ (by omega)] at left right
  constructor
  · intro odd
    rw [if_pos (by omega)] at right
    rw [show m / 2 * 2 = m - 1 by omega] at left
    exact ⟨right, left⟩
  · intro even
    have zero : m / 2 ^ 0 % 2 = 0 := by simpa using even
    rw [if_neg (by omega)] at right
    rw [show m / 2 * 2 = m by omega] at left
    refine ⟨right, left, ?_⟩
    rcases Nat.eq_zero_or_pos next with rfl | positive
    · have none : w.cursor = none := by
        rcases isCursor : w.cursor with _ | cursor
        · rfl
        · exact absurd (tracks.filling cursor isCursor).positive (lt_irrefl 0)
      have noFilled : w.filled = [] := List.eq_nil_of_length_eq_zero tracks.next.count.symm
      have short := treeNode_after (h := h) (tracks.idle none).le
      rw [pow_zero, Nat.div_one] at short
      rw [noFilled, short]
      rfl
    · have stored := tracks.filled 0 positive zero
      rw [pow_zero, Nat.div_one, zerosBelow, ← List.head?_eq_getElem?] at stored
      rw [stored]
      rfl

theorem Tracks.firstTaken
    : (if w.tree.right.isSome then 0 else if 0 < w.filled.length then 1 else 0)
        = fillersTaken w m 1 := by
  rcases Nat.mod_two_eq_zero_or_one m with even | odd
  · have zero : m / 2 ^ 0 % 2 = 0 := by simpa using even
    have count := zerosBelow_succ_of_zero zero
    rw [(tracks.bottom.2 even).1, fillersTaken, count, zerosBelow]
    simp only [Option.isSome_none, Bool.false_eq_true, if_false]
    split
    · omega
    · have none : w.cursor = none := by
        rcases isCursor : w.cursor with _ | cursor
        · rfl
        · have fewer := zerosBelow_lt zero (tracks.filling cursor isCursor).positive
          rw [tracks.next.count] at fewer
          omega
      rw [none]
      simp only [Option.isSome_none, Bool.false_eq_true, if_false]
      omega
  · have one : m / 2 ^ 0 % 2 = 1 := by simpa using odd
    rw [(tracks.bottom.1 odd).1, fillersTaken, zerosBelow_succ_of_one one, zerosBelow]
    simp

theorem incrementalWitnessRoot_tracks (positive : 0 < w.tree.depth)
    (fits : leaves.length ≤ 2 ^ w.tree.depth)
    : ∃ w', incrementalWitnessRoot h w
          = (treeRoot h.combine h.uncommitted w.tree.depth leaves, w')
        ∧ Tracks h w' m next leaves := by
  have inside := tracks.inside
  have pair : h.combine (w.tree.left.getD h.uncommitted)
      (w.tree.right.getD (w.filled.head?.getD h.uncommitted)) 0
        = treeNode h leaves 1 (m / 2 ^ 1) := by
    rw [pow_one]
    rcases Nat.mod_two_eq_zero_or_one m with even | odd
    · obtain ⟨right, left, sibling⟩ := tracks.bottom.2 even
      rw [right, left, Option.getD_none, sibling]
      exact (node_above_even _ even).symm
    · obtain ⟨right, left⟩ := tracks.bottom.1 odd
      rw [right, left, Option.getD_some, Option.getD_some]
      exact (node_above_odd _ odd).symm
  have few : w.tree.parents.length ≤ w.tree.depth - 1 := by
    rw [tracks.parents]
    refine leftSiblings_length_le ?_
    rw [pow_one, Nat.div_lt_iff_lt_mul (by decide), ← pow_succ, Nat.sub_add_cancel positive]
    omega
  have top : m / 2 ^ w.tree.depth = 0 := Nat.div_eq_of_lt (by omega)
  obtain ⟨w', root, tracks'⟩ := witnessRootOver_tracks tracks (w.tree.depth - 1) 1
  rw [← tracks.parents, ← tracks.firstTaken, ← pair,
    show 1 + (w.tree.depth - 1) = w.tree.depth by omega, top] at root
  refine ⟨w', ?_, tracks'⟩
  rw [incrementalWitnessRoot, show max (w.tree.depth - 1) (min 1 w.tree.parents.length)
    = w.tree.depth - 1 by omega]
  exact root

theorem merklePathBase_tracks : merklePathBase h w
        = (if m % 2 = 1 then (treeNode h leaves 0 (m - 1), true)
            else (treeNode h leaves 0 (m + 1), false), fillersTaken w m 1) := by
  have taken := tracks.firstTaken
  rcases Nat.mod_two_eq_zero_or_one m with even | odd
  · obtain ⟨right, -, sibling⟩ := tracks.bottom.2 even
    rw [right] at taken
    rw [if_neg (by omega), ← sibling, ← taken, merklePathBase, right]
    rcases w.filled with _ | ⟨filler, more⟩
    · rfl
    · simp
  · obtain ⟨right, left⟩ := tracks.bottom.1 odd
    rw [right] at taken
    rw [if_pos odd, ← taken, merklePathBase, right, left]
    rfl

theorem incrementalWitnessMerklePath_tracks (positive : 0 < w.tree.depth)
    : ∃ w', incrementalWitnessMerklePath h w
          = (some (siblingPath (treeNode h leaves) w.tree.depth 0 m), w')
        ∧ Tracks h w' m next leaves := by
  have nonempty : incrementalTreeSize w.tree ≠ 0 := by
    rw [incrementalTreeSize_eq tracks.tree, tracks.takenLength]
    omega
  obtain ⟨below, isDepth⟩ : ∃ below, w.tree.depth = below + 1 := ⟨w.tree.depth - 1, by omega⟩
  obtain ⟨w', rest, tracks'⟩ := merklePathOver_tracks tracks below 1
  rw [← tracks.parents, pow_one] at rest
  have whole (first : α × Bool)
      : (first :: siblingPath (treeNode h leaves) below 1 (m / 2)).take (below + 1)
        = first :: siblingPath (treeNode h leaves) below 1 (m / 2) := by
    refine List.take_of_length_le ?_
    rw [List.length_cons, length_siblingPath]
  refine ⟨w', ?_, tracks'⟩
  simp only [incrementalWitnessMerklePath, if_neg nonempty, merklePathBase_tracks tracks, isDepth,
    Nat.add_sub_cancel, rest, whole, siblingPath, Nat.zero_add]

end

-- Runs

theorem incrementalWitnessAppend_tree (h : TreeHash α) (w : IncrementalWitness α) (obj : α)
    : (incrementalWitnessAppend h w obj).tree = w.tree := by
  rw [incrementalWitnessAppend]
  split
  · simp only
    split <;> rfl
  · simp only
    split <;> rfl

theorem takeFiller_tree (h : TreeHash α) (w : IncrementalWitness α) (filledIdx depth : Nat)
    : (takeFiller h w filledIdx depth).2.2.tree = w.tree := by
  rw [takeFiller]
  split
  · rfl
  · split <;> rfl
  · rfl

variable {P : IncrementalWitness α → Prop}

theorem witnessRootOver_keeps
    (keeps : ∀ w filledIdx depth, P w → P (takeFiller h w filledIdx depth).2.2) (levels d : Nat)
    (parents : List (Option α)) (filledIdx : Nat) {w : IncrementalWitness α} (root : α)
    (start : P w)
    : P (witnessRootOver h levels d parents filledIdx w root).2 := by
  induction levels generalizing d parents filledIdx w root with
  | zero => exact start
  | succ levels ih =>
    rw [witnessRootOver]
    split
    · exact ih _ _ _ _ start
    · exact ih _ _ _ _ (keeps _ _ _ start)

theorem merklePathOver_keeps
    (keeps : ∀ w filledIdx depth, P w → P (takeFiller h w filledIdx depth).2.2) (levels d : Nat)
    (parents : List (Option α)) (filledIdx : Nat) {w : IncrementalWitness α} (start : P w)
    : P (merklePathOver h levels d parents filledIdx w).2 := by
  induction levels generalizing d parents filledIdx w with
  | zero => exact start
  | succ levels ih =>
    rw [merklePathOver]
    split
    · exact ih _ _ _ start
    · exact ih _ _ _ (keeps _ _ _ start)

/-- A step of a run: a later leaf is replayed, or the root or the path is asked for. -/
inductive WitnessOp (α : Type) where
  | append (obj : α)
  | root
  | path
deriving DecidableEq, Repr

def stepWitness (h : TreeHash α) (w : IncrementalWitness α) : WitnessOp α → IncrementalWitness α
  | .append obj => incrementalWitnessAppend h w obj
  | .root => (incrementalWitnessRoot h w).2
  | .path => (incrementalWitnessMerklePath h w).2

def runWitness (h : TreeHash α) (w : IncrementalWitness α) (ops : List (WitnessOp α))
    : IncrementalWitness α :=
  ops.foldl (stepWitness h) w

/-- The leaves that a run replays, in order. -/
def replayedLeaves : List (WitnessOp α) → List α
  | [] => []
  | .append obj :: ops => obj :: replayedLeaves ops
  | .root :: ops => replayedLeaves ops
  | .path :: ops => replayedLeaves ops

theorem stepWitness_keeps
    (keeps : ∀ w filledIdx depth, P w → P (takeFiller h w filledIdx depth).2.2)
    {w : IncrementalWitness α} (op : WitnessOp α) (start : P w)
    (append : ∀ obj, op = .append obj → P (incrementalWitnessAppend h w obj))
    : P (stepWitness h w op) := by
  cases op with
  | append obj => exact append obj rfl
  | root => exact witnessRootOver_keeps keeps _ _ _ _ _ start
  | path =>
    simp only [stepWitness, incrementalWitnessMerklePath]
    split
    · exact start
    · exact merklePathOver_keeps keeps _ _ _ _ start

theorem stepWitness_tree (h : TreeHash α) (w : IncrementalWitness α) (op : WitnessOp α)
    : (stepWitness h w op).tree = w.tree := by
  refine stepWitness_keeps (P := fun other => other.tree = w.tree) ?_ op rfl ?_
  · intro other filledIdx depth same
    rw [takeFiller_tree, same]
  · intro obj _
    exact incrementalWitnessAppend_tree h w obj

theorem runWitness_tree (h : TreeHash α) (ops : List (WitnessOp α)) (w : IncrementalWitness α)
    : (runWitness h w ops).tree = w.tree := by
  induction ops generalizing w with
  | nil => rfl
  | cons op ops ih => exact (ih (stepWitness h w op)).trans (stepWitness_tree h w op)

theorem stepWitness_tracks {w : IncrementalWitness α} {level : Nat}
    (tracks : Tracks h w m level leaves) (range : depthInRange w.tree.depth = true)
    (op : WitnessOp α) (fits : (leaves ++ replayedLeaves [op]).length ≤ 2 ^ w.tree.depth)
    : ∃ next, Tracks h (stepWitness h w op) m next (leaves ++ replayedLeaves [op]) := by
  simp only [depthInRange, Bool.and_eq_true, decide_eq_true_eq] at range
  have widest : 2 ^ w.tree.depth ≤ 2 ^ maxTreeDepth := Nat.pow_le_pow_right (by decide) range.2
  cases op with
  | append obj =>
    simp only [replayedLeaves, List.length_append, List.length_singleton] at fits
    exact incrementalWitnessAppend_tracks tracks (by omega) obj
  | root =>
    simp only [replayedLeaves, List.append_nil] at fits ⊢
    obtain ⟨w', asked, tracks'⟩ := incrementalWitnessRoot_tracks tracks range.1 fits
    exact ⟨level, by rwa [stepWitness, asked]⟩
  | path =>
    simp only [replayedLeaves, List.append_nil] at fits ⊢
    obtain ⟨w', asked, tracks'⟩ := incrementalWitnessMerklePath_tracks tracks range.1
    exact ⟨level, by rwa [stepWitness, asked]⟩

theorem replayedLeaves_cons (op : WitnessOp α) (ops : List (WitnessOp α))
    : replayedLeaves (op :: ops) = replayedLeaves [op] ++ replayedLeaves ops := by
  cases op <;> rfl

theorem runWitness_tracks {ops : List (WitnessOp α)} {w : IncrementalWitness α} {level : Nat}
    (tracks : Tracks h w m level leaves) (range : depthInRange w.tree.depth = true)
    (fits : (leaves ++ replayedLeaves ops).length ≤ 2 ^ w.tree.depth)
    : ∃ next, Tracks h (runWitness h w ops) m next (leaves ++ replayedLeaves ops) := by
  induction ops generalizing w level leaves with
  | nil => exact ⟨level, by simpa [runWitness, replayedLeaves] using tracks⟩
  | cons op ops ih =>
    have sameTree := stepWitness_tree h w op
    rw [replayedLeaves_cons, ← List.append_assoc] at fits ⊢
    obtain ⟨next, step⟩ := stepWitness_tracks tracks range op (by
      rw [List.length_append] at fits
      omega)
    exact ih step (by rwa [sameTree]) (by rwa [sameTree])

/--
A witness of the last leaf of a tree, with the later leaves replayed in order, answers the root of
the tree that holds them all. Its path has a sibling and a binary digit of the leaf's position for
each level, and leads from the leaf to that root.
-/
theorem incrementalWitness_correct (h : TreeHash α) {depth : Nat}
    (range : depthInRange depth = true) {leaf : α} (before whole : List (TreeOp α))
    (after : List (WitnessOp α)) (isLeaf : (appendedLeaves before).getLast? = some leaf)
    (sameLeaves : appendedLeaves whole = appendedLeaves before ++ replayedLeaves after)
    (fits : (appendedLeaves whole).length ≤ 2 ^ depth)
    : let w := runWitness h (incrementalWitnessInit (runTree h (treeInit depth) before)) after
      let root := (incrementalTreeRoot h (runTree h (treeInit depth) whole)).1
      (incrementalWitnessRoot h w).1 = root
        ∧ ∃ path, (incrementalWitnessMerklePath h w).1 = some path
          ∧ path.length = depth
          ∧ path.map Prod.snd
            = (List.range depth).map ((appendedLeaves before).length - 1).testBit
          ∧ climb h.combine 0 leaf path = root := by
  intro w root
  have positive : 0 < depth := by
    simp only [depthInRange, Bool.and_eq_true, decide_eq_true_eq] at range
    exact range.1
  have nonempty : 0 < (appendedLeaves before).length := by
    rcases isEmpty : appendedLeaves before with _ | ⟨first, rest⟩
    · rw [isEmpty] at isLeaf
      cases isLeaf
    · exact Nat.succ_pos _
  have last : (appendedLeaves before).length = (appendedLeaves before).length - 1 + 1 := by omega
  have isRoot := (runTree_init positive fits (h := h)).2.2
  rw [sameLeaves] at fits isRoot
  have fitsBefore : (appendedLeaves before).length ≤ 2 ^ depth := by
    rw [List.length_append] at fits
    omega
  obtain ⟨holds, isDepth, -⟩ := runTree_init positive fitsBefore (h := h)
  obtain ⟨next, tracks⟩ := runWitness_tracks (incrementalWitnessInit_tracks holds last)
    (by simpa only [incrementalWitnessInit, isDepth] using range)
    (by simpa only [incrementalWitnessInit, isDepth] using fits)
  have witnessDepth : w.tree.depth = depth := by
    rw [show w.tree = runTree h (treeInit depth) before from runWitness_tree h after _, isDepth]
  have leafNode : leaf = treeNode h (appendedLeaves before ++ replayedLeaves after) 0
      ((appendedLeaves before).length - 1) := by
    rw [List.getLast?_eq_getElem?] at isLeaf
    rw [treeNode, node, padded_append_left (by omega), padded, List.getD_eq_getElem?_getD, isLeaf]
    rfl
  have top : ((appendedLeaves before).length - 1) / 2 ^ depth = 0 := Nat.div_eq_of_lt (by omega)
  obtain ⟨rootMemo, asked, -⟩ := incrementalWitnessRoot_tracks tracks
    (lt_of_lt_of_eq positive witnessDepth.symm)
    (le_of_le_of_eq fits (congrArg (2 ^ ·) witnessDepth.symm))
  obtain ⟨pathMemo, path, -⟩ := incrementalWitnessMerklePath_tracks tracks
    (lt_of_lt_of_eq positive witnessDepth.symm)
  have askedAt := congrArg Prod.fst asked
  have pathAt := congrArg Prod.fst path
  rw [show (runWitness h _ after).tree.depth = depth from witnessDepth] at askedAt pathAt
  refine ⟨askedAt.trans isRoot.symm, _, pathAt, ?_, ?_, ?_⟩
  · exact length_siblingPath _ _ _ _
  · exact siblingPath_bits _ _ _ _
  · refine Eq.trans ?_ isRoot.symm
    rw [leafNode, treeNode, climb_siblingPath, Nat.zero_add, top, treeRoot]

theorem incrementalWitness_correct_fourth
    : (incrementalWitnessRoot sampleTreeHash (runWitness sampleTreeHash (incrementalWitnessInit
          (runTree sampleTreeHash (treeInit 3) [.append 7])) [.append 8, .path, .append 9, .root,
          .append 10])).1
        = (incrementalTreeRoot sampleTreeHash (runTree sampleTreeHash (treeInit 3)
          [.append 7, .append 8, .append 9, .append 10])).1 :=
  (incrementalWitness_correct sampleTreeHash (by decide : depthInRange 3 = true) [.append 7]
    [.append 7, .append 8, .append 9, .append 10] [.append 8, .path, .append 9, .root, .append 10]
    rfl rfl (by decide)).1

end Z23.Sapling
