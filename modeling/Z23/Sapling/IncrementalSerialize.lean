import Z23.Core.Serialize
import Z23.Sapling.IncrementalWitness

/-!
Stored trees and witnesses. The memo of a root is not stored, and the depth of a cursor is found
again from the number of siblings that are stored before it.
-/

namespace Z23.Sapling

open Z23.Lib.Bytes Z23.Lib.MerkleTree

variable {α : Type}

-- Format

def incrementalTreeSerialize (t : IncrementalMerkleTree Uint256) : List UInt8 :=
  writeOptionalHash t.left ++ writeOptionalHash t.right
    ++ streamWriteCompactSize t.parents.length ++ t.parents.flatMap writeOptionalHash

def wfcheck (t : IncrementalMerkleTree α) : Bool :=
  t.parents.length < t.depth
    && (t.parents.getLast?.all Option.isSome)
    && (t.left.isSome || !t.right.isSome)
    && (t.left.isSome || t.parents.length == 0)

/-- Reads the contents of a tree whose depth is set already. -/
def incrementalTreeDeserialize (depth : Nat) : Reader (IncrementalMerkleTree Uint256) :=
  fun bytes => do
    let (left, bytes) ← readOptionalHash bytes
    let (right, bytes) ← readOptionalHash bytes
    let (num, bytes) ← streamReadCompactSize bytes
    if num > maxTreeDepth then none
    else do
      let (parents, bytes) ← readMany readOptionalHash num bytes
      let t := ⟨depth, left, right, parents, none⟩
      if wfcheck t then some (t, bytes) else none

def writeCursor : Option (IncrementalMerkleTree Uint256) → List UInt8
  | none => [0]
  | some cursor => 1 :: incrementalTreeSerialize cursor

def incrementalWitnessSerialize (w : IncrementalWitness Uint256) : List UInt8 :=
  incrementalTreeSerialize w.tree ++ streamWriteCompactSize w.filled.length
    ++ w.filled.flatMap Uint256.data ++ writeCursor w.cursor

/-- A cursor is checked as a tree of the full depth. -/
def readCursor (depth : Nat) : Reader (Option (IncrementalMerkleTree Uint256)) := fun bytes => do
  let (disc, bytes) ← streamReadU8 bytes
  if disc = 0 then some (none, bytes)
  else do
    let (cursor, bytes) ← incrementalTreeDeserialize depth bytes
    some (some cursor, bytes)

def incrementalWitnessDeserialize (depth : Nat) : Reader (IncrementalWitness Uint256) :=
  fun bytes =>
    if !depthInRange depth then none
    else do
      let (tree, bytes) ← incrementalTreeDeserialize depth bytes
      let (num, bytes) ← streamReadCompactSize bytes
      if num > maxWitnessFills then none
      else do
        let (filled, bytes) ← readMany streamReadHash num bytes
        let (cursor, bytes) ← readCursor depth bytes
        let cursorDepth := nextDepth tree filled.length
        let cursor := cursor.map fun cursor => { cursor with depth := cursorDepth }
        some (⟨tree, filled, cursor, cursorDepth⟩, bytes)

-- Round trip

theorem incrementalTreeDeserialize_serialize (depth : Nat) {t : IncrementalMerkleTree Uint256}
    (wellFormed : wfcheck { t with depth := depth, cachedRoot := none } = true)
    (few : t.parents.length ≤ maxTreeDepth) (rest : List UInt8)
    : incrementalTreeDeserialize depth (incrementalTreeSerialize t ++ rest)
        = some ({ t with depth := depth, cachedRoot := none }, rest) := by
  have fits : t.parents.length < 2 ^ 64 := lt_of_le_of_lt few (by decide)
  simp only [incrementalTreeDeserialize, incrementalTreeSerialize, List.append_assoc,
    Option.bind_eq_bind, readOptionalHash_write _ _, streamReadCompactSize_write fits,
    readMany_flatMap readOptionalHash_write, Option.bind_some, if_neg (Nat.not_lt.mpr few),
    wellFormed, if_true]

variable {h : TreeHash α}

theorem Holds.wfcheck {t : IncrementalMerkleTree α} {leaves : List α} {depth : Nat}
    (holds : Holds h t leaves) (positive : 0 < depth) (fits : leaves.length ≤ 2 ^ depth)
    : wfcheck { t with depth := depth, cachedRoot := none } = true
        ∧ t.parents.length < depth := by
  have few : t.parents.length ≤ depth - 1 := by
    rw [holds.parents]
    refine leftSiblings_length_le ?_
    rw [Nat.div_lt_iff_lt_mul (by decide), ← pow_succ, Nat.sub_add_cancel positive]
    have wide : 0 < 2 ^ depth := Nat.two_pow_pos _
    omega
  have last : t.parents.getLast?.all Option.isSome = true := by
    rw [holds.parents]
    exact leftSiblings_getLast _ _ _
  refine ⟨?_, by omega⟩
  simp only [Sapling.wfcheck, last, holds.isSome_left, holds.isSome_right, Bool.and_eq_true,
    Bool.or_eq_true, decide_eq_true_eq, beq_iff_eq, Bool.not_eq_true', decide_eq_false_iff_not,
    and_true]
  rcases Nat.eq_zero_or_pos leaves.length with empty | some
  · have noParents : t.parents = [] := by
      rw [holds.parents, empty]
      exact leftSiblings_zero _ _
    simp [empty, noParents, positive]
  · omega

/-- What a stored witness must satisfy to be read back; `bound` counts the replayed leaves. -/
structure Resumable (h : TreeHash α) (w : IncrementalWitness α) (bound : Nat) : Prop where
  fills : w.filled.length ≤ maxWitnessFills
  cursorDepth : w.cursorDepth = nextDepth w.tree w.filled.length
  cursor : ∀ cursor, w.cursor = some cursor → cursor.depth = w.cursorDepth ∧ 0 < cursor.depth
    ∧ ∃ leaves, Holds h cursor leaves ∧ leaves.length < 2 ^ cursor.depth ∧ leaves.length ≤ bound

theorem incrementalWitnessInit_resumable (h : TreeHash α) (tree : IncrementalMerkleTree α)
    : Resumable h (incrementalWitnessInit tree) 0 where
  fills := Nat.zero_le _
  cursorDepth := rfl
  cursor := by
    intro cursor absurd
    cases absurd

variable {w : IncrementalWitness α}

theorem Resumable.mono {low high : Nat} (resumable : Resumable h w low) (le : low ≤ high)
    : Resumable h w high :=
  { resumable with
    cursor := by
      intro cursor isCursor
      obtain ⟨depth, positive, leaves, holds, room, few⟩ := resumable.cursor cursor isCursor
      exact ⟨depth, positive, leaves, holds, room, le_trans few le⟩ }

theorem pushFilled_resumable {low high : Nat} (resumable : Resumable h w low) (sibling : α)
    : Resumable h (pushFilled w sibling) high where
  fills := by
    have fills := resumable.fills
    rw [pushFilled]
    simp only
    split
    · rw [List.length_append, List.length_singleton]
      omega
    · exact fills
  cursorDepth := rfl
  cursor := by
    intro cursor absurd
    cases absurd

theorem incrementalWitnessAppend_resumable {bound : Nat} (resumable : Resumable h w bound) (obj : α)
    : Resumable h (incrementalWitnessAppend h w obj) (bound + 1) := by
  rcases isCursor : w.cursor with _ | cursor
  · rw [incrementalWitnessAppend, isCursor]
    simp only
    split
    · exact pushFilled_resumable resumable obj
    · rename_i above
      obtain ⟨holds, sameDepth⟩ := incrementalTreeAppend_holds
        (treeInit_holds h (nextDepth w.tree w.filled.length)) (Nat.two_pow_pos _) obj
      have isDepth : (incrementalTreeAppend h
          (treeInit (nextDepth w.tree w.filled.length)) obj).depth
            = nextDepth w.tree w.filled.length := sameDepth
      refine { fills := resumable.fills, cursorDepth := rfl, cursor := ?_ }
      intro cursor same
      cases same
      refine ⟨isDepth, by rw [isDepth]; omega, _, holds, ?_, ?_⟩
      · rw [isDepth]
        exact Nat.one_lt_two_pow above
      · simp
  · obtain ⟨isDepth, positive, leaves, holds, room, few⟩ := resumable.cursor cursor isCursor
    obtain ⟨next, sameDepth⟩ := incrementalTreeAppend_holds holds
      (lt_trans room (Nat.pow_lt_pow_right (by decide) (Nat.lt_succ_self _))) obj
    have added : (leaves ++ [obj]).length = leaves.length + 1 := by simp
    have isComplete := incrementalTreeIsComplete_iff next (by rwa [sameDepth])
    rw [sameDepth, added] at isComplete
    rw [incrementalWitnessAppend, isCursor]
    simp only
    split
    · exact pushFilled_resumable resumable _
    · rename_i incomplete
      have notFull := mt isComplete.mpr incomplete
      refine { resumable with cursor := ?_ }
      intro other same
      cases same
      refine ⟨by rw [sameDepth, isDepth], by rwa [sameDepth], _, next, ?_, ?_⟩
      · rw [sameDepth, added]
        omega
      · omega

theorem takeFiller_resumable {bound : Nat} (w : IncrementalWitness α) (filledIdx depth : Nat)
    (resumable : Resumable h w bound)
    : Resumable h (takeFiller h w filledIdx depth).2.2 bound := by
  rw [takeFiller]
  split
  · exact resumable
  · rename_i cursor _ isCursor
    split
    · obtain ⟨isDepth, positive, leaves, holds, room, few⟩ := resumable.cursor cursor isCursor
      have memo := (incrementalTreeRoot_holds holds positive room.le).2
      have sameDepth : (incrementalTreeRoot h cursor).2.depth = cursor.depth := by
        rw [incrementalTreeRoot]
        split <;> rfl
      refine { fills := resumable.fills, cursorDepth := resumable.cursorDepth, cursor := ?_ }
      intro other same
      obtain rfl : (incrementalTreeRoot h cursor).2 = other := Option.some.inj same
      rw [sameDepth]
      exact ⟨isDepth, positive, leaves, memo, room, few⟩
    · exact resumable
  · exact resumable

theorem runWitness_resumable {ops : List (WitnessOp α)} {bound : Nat}
    (resumable : Resumable h w bound)
    : Resumable h (runWitness h w ops) (bound + (replayedLeaves ops).length) := by
  induction ops generalizing w bound with
  | nil => exact resumable
  | cons op ops ih =>
    have step : Resumable h (stepWitness h w op) (bound + (replayedLeaves [op]).length) := by
      refine stepWitness_keeps takeFiller_resumable op (resumable.mono (Nat.le_add_right _ _)) ?_
      rintro obj rfl
      exact incrementalWitnessAppend_resumable resumable obj
    rw [replayedLeaves_cons, List.length_append, ← Nat.add_assoc]
    exact ih step

theorem incrementalWitnessDeserialize_serialize {h : TreeHash Uint256}
    {w : IncrementalWitness Uint256} {leaves : List Uint256} {bound : Nat}
    (range : depthInRange w.tree.depth = true) (resumable : Resumable h w bound)
    (few : bound ≤ 2 ^ w.tree.depth) (holds : Holds h w.tree leaves)
    (fits : leaves.length ≤ 2 ^ w.tree.depth)
    : incrementalWitnessDeserialize w.tree.depth (incrementalWitnessSerialize w)
        = some ({ w with
          tree := { w.tree with cachedRoot := none }
          cursor := w.cursor.map fun cursor => { cursor with cachedRoot := none } }, []) := by
  have bounds := range
  simp only [depthInRange, Bool.and_eq_true, decide_eq_true_eq] at bounds
  have fills : w.filled.length < 2 ^ 64 := lt_of_le_of_lt resumable.fills (by decide)
  obtain ⟨wellFormed, parents⟩ := holds.wfcheck bounds.1 fits
  have cursorBack : readCursor w.tree.depth (writeCursor w.cursor)
      = some (w.cursor.map fun cursor =>
          { cursor with depth := w.tree.depth, cachedRoot := none }, []) := by
    rcases isCursor : w.cursor with _ | cursor
    · rfl
    · obtain ⟨-, positive, inner, innerHolds, room, short⟩ := resumable.cursor cursor isCursor
      obtain ⟨cursorFormed, cursorParents⟩ := innerHolds.wfcheck bounds.1 (le_trans short few)
      have back := incrementalTreeDeserialize_serialize w.tree.depth cursorFormed
        (by omega) []
      rw [List.append_nil] at back
      simp [writeCursor, readCursor, streamReadU8, back]
  have treeBack := incrementalTreeDeserialize_serialize w.tree.depth wellFormed (by omega)
  simp only [incrementalWitnessDeserialize, range, Bool.not_true, Bool.false_eq_true, if_false,
    incrementalWitnessSerialize, List.append_assoc, treeBack, Option.bind_eq_bind,
    Option.bind_some, streamReadCompactSize_write fills, if_neg (Nat.not_lt.mpr resumable.fills),
    readMany_flatMap streamReadHash_data, cursorBack]
  have sameNext : nextDepth { w.tree with cachedRoot := none } w.filled.length = w.cursorDepth :=
    resumable.cursorDepth.symm
  rw [sameNext]
  rcases isCursor : w.cursor with _ | cursor
  · rfl
  · simp only [Option.map_some, (resumable.cursor cursor isCursor).1]

-- Resuming

/-- The contents of a tree without the memo. -/
def forgetRoot (t : IncrementalMerkleTree α) : IncrementalMerkleTree α :=
  { t with cachedRoot := none }

/-- A memo is what a fresh computation gives. -/
def MemoFresh (h : TreeHash α) (t : IncrementalMerkleTree α) : Prop :=
  ∀ root, t.cachedRoot = some root → root = computeRoot h t

/-- Two trees with the same contents, each with a fresh memo or none. -/
structure SameTree (h : TreeHash α) (a b : IncrementalMerkleTree α) : Prop where
  contents : forgetRoot a = forgetRoot b
  freshLeft : MemoFresh h a
  freshRight : MemoFresh h b

theorem Holds.fresh {t : IncrementalMerkleTree α} {leaves : List α} (holds : Holds h t leaves)
    (positive : 0 < t.depth) (fits : leaves.length ≤ 2 ^ t.depth)
    : MemoFresh h t := by
  intro root cached
  rw [holds.memo root cached, computeRoot_eq holds positive fits]

theorem forgetRoot_fresh (h : TreeHash α) (t : IncrementalMerkleTree α)
    : MemoFresh h (forgetRoot t) := by
  intro root absurd
  cases absurd

theorem MemoFresh.sameTree {t : IncrementalMerkleTree α} (fresh : MemoFresh h t)
    : SameTree h t (forgetRoot t) :=
  ⟨rfl, fresh, forgetRoot_fresh h t⟩

theorem incrementalTreeRoot_fresh {t : IncrementalMerkleTree α} (fresh : MemoFresh h t)
    : incrementalTreeRoot h t
        = (computeRoot h t, { t with cachedRoot := some (computeRoot h t) }) := by
  rw [incrementalTreeRoot]
  split
  · rename_i root cached
    have same := fresh root cached
    rw [← same, ← cached]
  · rfl

section

variable {a b : IncrementalMerkleTree α} (same : SameTree h a b)
include same

theorem SameTree.computeRoot : computeRoot h a = computeRoot h b := by
  show Sapling.computeRoot h (forgetRoot a) = Sapling.computeRoot h (forgetRoot b)
  rw [same.contents]

theorem SameTree.append (obj : α)
    : incrementalTreeAppend h a obj = incrementalTreeAppend h b obj := by
  have memoFree (t : IncrementalMerkleTree α)
      : incrementalTreeAppend h t obj = incrementalTreeAppend h (forgetRoot t) obj := by
    simp only [incrementalTreeAppend, forgetRoot]
  rw [memoFree a, memoFree b, same.contents]

theorem SameTree.root : (incrementalTreeRoot h a).1 = (incrementalTreeRoot h b).1
        ∧ SameTree h (incrementalTreeRoot h a).2 (incrementalTreeRoot h b).2 := by
  rw [incrementalTreeRoot_fresh same.freshLeft, incrementalTreeRoot_fresh same.freshRight]
  refine ⟨same.computeRoot, same.contents, ?_, ?_⟩
  · intro root cached
    exact (Option.some.inj cached).symm
  · intro root cached
    exact (Option.some.inj cached).symm

end

theorem SameTree.refl_append (h : TreeHash α) (t : IncrementalMerkleTree α) (obj : α)
    : SameTree h (incrementalTreeAppend h t obj) (incrementalTreeAppend h t obj) := by
  have fresh : MemoFresh h (incrementalTreeAppend h t obj) := by
    intro root cached
    rw [incrementalTreeAppend] at cached
    split at cached <;> cases cached
  exact ⟨rfl, fresh, fresh⟩

theorem SameTree.step {h : TreeHash α} {a b : IncrementalMerkleTree α} (same : SameTree h a b)
    (op : TreeOp α) : SameTree h (stepTree h a op) (stepTree h b op) := by
  cases op with
  | append obj =>
    rw [stepTree, stepTree, same.append]
    exact SameTree.refl_append h b obj
  | root => exact same.root.2

theorem SameTree.run {a b : IncrementalMerkleTree α} (same : SameTree h a b) (ops : List (TreeOp α))
    : SameTree h (runTree h a ops) (runTree h b ops) := by
  induction ops generalizing a b with
  | nil => exact same
  | cons op ops ih => exact ih (same.step op)

theorem SameTree.size {a b : IncrementalMerkleTree α} (same : SameTree h a b)
    : incrementalTreeSize a = incrementalTreeSize b := by
  show incrementalTreeSize (forgetRoot a) = incrementalTreeSize (forgetRoot b)
  rw [same.contents]

/-- Two witnesses with the same contents, the memos of their cursors fresh. -/
structure SameWitness (h : TreeHash α) (a b : IncrementalWitness α) : Prop where
  tree : forgetRoot a.tree = forgetRoot b.tree
  filled : a.filled = b.filled
  cursorDepth : a.cursorDepth = b.cursorDepth
  cursor : Option.Rel (SameTree h) a.cursor b.cursor

variable {a b : IncrementalWitness α}

section

variable (same : SameWitness h a b)
include same

theorem SameWitness.cursor_cases : a.cursor = none ∧ b.cursor = none
        ∨ ∃ left right, a.cursor = some left ∧ b.cursor = some right ∧ SameTree h left right := by
  have related := same.cursor
  generalize a.cursor = left, b.cursor = right at related
  cases related with
  | none => exact .inl ⟨rfl, rfl⟩
  | some sameTree => exact .inr ⟨_, _, rfl, rfl, sameTree⟩

theorem SameWitness.nextDepth (skip : Nat) : nextDepth a.tree skip = nextDepth b.tree skip := by
  show Sapling.nextDepth (forgetRoot a.tree) skip = Sapling.nextDepth (forgetRoot b.tree) skip
  rw [same.tree]

theorem SameWitness.takeFiller (filledIdx depth : Nat)
    : ∃ filler next a' b', takeFiller h a filledIdx depth = (filler, next, a')
        ∧ takeFiller h b filledIdx depth = (filler, next, b') ∧ SameWitness h a' b' := by
  simp only [Sapling.takeFiller, same.filled]
  rcases b.filled[filledIdx]? with _ | filler
  · rcases same.cursor_cases with ⟨left, right⟩ | ⟨left, right, isLeft, isRight, sameTree⟩
    · rw [left, right]
      exact ⟨_, _, _, _, rfl, rfl, same⟩
    · rw [isLeft, isRight]
      simp only
      split
      · obtain ⟨sameRoot, sameMemo⟩ := sameTree.root
        refine ⟨_, _, _, { b with cursor := some (incrementalTreeRoot h right).2 }, rfl, ?_,
          { same with filled := rfl, cursor := .some sameMemo }⟩
        rw [sameRoot]
      · exact ⟨_, _, _, _, rfl, rfl, same⟩
  · exact ⟨_, _, _, _, rfl, rfl, same⟩

theorem SameWitness.rootOver (levels d : Nat) (parents : List (Option α)) (filledIdx : Nat)
    (root : α)
    : ∃ answer a' b', witnessRootOver h levels d parents filledIdx a root = (answer, a')
        ∧ witnessRootOver h levels d parents filledIdx b root = (answer, b')
        ∧ SameWitness h a' b' := by
  induction levels generalizing d parents filledIdx a b root with
  | zero => exact ⟨root, a, b, rfl, rfl, same⟩
  | succ levels ih =>
    rw [witnessRootOver, witnessRootOver]
    split
    · exact ih same _ _ _ _
    · obtain ⟨filler, next, a', b', left, right, same'⟩ := same.takeFiller filledIdx d
      rw [left, right]
      exact ih same' _ _ _ _

theorem SameWitness.pathOver (levels d : Nat) (parents : List (Option α)) (filledIdx : Nat)
    : ∃ answer a' b', merklePathOver h levels d parents filledIdx a = (answer, a')
        ∧ merklePathOver h levels d parents filledIdx b = (answer, b')
        ∧ SameWitness h a' b' := by
  induction levels generalizing d parents filledIdx a b with
  | zero => exact ⟨[], a, b, rfl, rfl, same⟩
  | succ levels ih =>
    rw [merklePathOver, merklePathOver]
    split
    · obtain ⟨answer, a', b', left, right, same'⟩ := ih same (d + 1) parents.tail filledIdx
      rw [left, right]
      exact ⟨_, _, _, rfl, rfl, same'⟩
    · obtain ⟨filler, next, a', b', left, right, same'⟩ := same.takeFiller filledIdx d
      obtain ⟨answer, a'', b'', restLeft, restRight, same''⟩ := ih same' (d + 1) parents.tail next
      simp only [left, right, restLeft, restRight]
      exact ⟨_, _, _, rfl, rfl, same''⟩

theorem SameWitness.root : (incrementalWitnessRoot h a).1 = (incrementalWitnessRoot h b).1
        ∧ SameWitness h (incrementalWitnessRoot h a).2 (incrementalWitnessRoot h b).2 := by
  have reads (w : IncrementalWitness α)
      : incrementalWitnessRoot h w = witnessRootOver h
        (max ((forgetRoot w.tree).depth - 1) (min 1 (forgetRoot w.tree).parents.length)) 1
        (forgetRoot w.tree).parents
        (if (forgetRoot w.tree).right.isSome then 0 else if 0 < w.filled.length then 1 else 0) w
        (h.combine ((forgetRoot w.tree).left.getD h.uncommitted)
          ((forgetRoot w.tree).right.getD (w.filled.head?.getD h.uncommitted)) 0) := rfl
  rw [reads a, reads b, same.tree, same.filled]
  obtain ⟨answer, a', b', left, right, same'⟩ := same.rootOver _ 1 _ _ _
  rw [left, right]
  exact ⟨rfl, same'⟩

theorem SameWitness.path
    : (incrementalWitnessMerklePath h a).1 = (incrementalWitnessMerklePath h b).1
        ∧ SameWitness h (incrementalWitnessMerklePath h a).2
          (incrementalWitnessMerklePath h b).2 := by
  have reads (w : IncrementalWitness α)
      : incrementalWitnessMerklePath h w
        = if incrementalTreeSize (forgetRoot w.tree) = 0 then (none, w)
          else
            let base := merklePathBase h ⟨forgetRoot w.tree, w.filled, none, 0⟩
            let above := merklePathOver h ((forgetRoot w.tree).depth - 1) 1
              (forgetRoot w.tree).parents base.2 w
            (some ((base.1 :: above.1).take (forgetRoot w.tree).depth), above.2) := rfl
  rw [reads a, reads b, same.tree, same.filled]
  split
  · exact ⟨rfl, same⟩
  · obtain ⟨answer, a', b', left, right, same'⟩ := same.pathOver
      ((forgetRoot b.tree).depth - 1) 1 (forgetRoot b.tree).parents
      (merklePathBase h ⟨forgetRoot b.tree, b.filled, none, 0⟩).2
    simp only [left, right]
    exact ⟨trivial, same'⟩

theorem SameWitness.pushFilled (sibling : α)
    : SameWitness h (pushFilled a sibling) (pushFilled b sibling) where
  tree := same.tree
  filled := by simp only [Sapling.pushFilled, same.filled]
  cursorDepth := by simp only [Sapling.pushFilled, same.filled, same.nextDepth]
  cursor := .none

theorem SameWitness.append (obj : α)
    : SameWitness h (incrementalWitnessAppend h a obj) (incrementalWitnessAppend h b obj) := by
  simp only [incrementalWitnessAppend]
  rcases same.cursor_cases with ⟨left, right⟩ | ⟨left, right, isLeft, isRight, sameTree⟩
  · rw [left, right]
    simp only [same.filled, same.nextDepth]
    split
    · exact same.pushFilled obj
    · exact { tree := same.tree, filled := rfl, cursorDepth := rfl,
              cursor := .some (SameTree.refl_append h _ obj) }
  · rw [isLeft, isRight]
    simp only [sameTree.append]
    split
    · exact same.pushFilled _
    · exact { same with cursor := .some (SameTree.refl_append h _ obj) }

theorem SameWitness.run (ops : List (WitnessOp α))
    : SameWitness h (runWitness h a ops) (runWitness h b ops) := by
  induction ops generalizing a b with
  | nil => exact same
  | cons op ops ih =>
    cases op with
    | append obj => exact ih (same.append obj)
    | root => exact ih same.root.2
    | path => exact ih same.path.2

end

/--
A tree or a witness from any run within the capacity is read back whole, and from then on answers
as the original does, whatever is appended and asked, also where its cursor is half filled.
-/
theorem saved_resumes (h : TreeHash Uint256) {depth : Nat} (range : depthInRange depth = true)
    (before : List (TreeOp Uint256)) (after : List (WitnessOp Uint256))
    (fits : (appendedLeaves before).length + (replayedLeaves after).length ≤ 2 ^ depth)
    : let t := runTree h (treeInit depth) before
      let w := runWitness h (incrementalWitnessInit t) after
      (∃ t', incrementalTreeDeserialize depth (incrementalTreeSerialize t) = some (t', [])
          ∧ ∀ further, (incrementalTreeRoot h (runTree h t' further)).1
              = (incrementalTreeRoot h (runTree h t further)).1
            ∧ incrementalTreeSize (runTree h t' further)
              = incrementalTreeSize (runTree h t further))
        ∧ ∃ w', incrementalWitnessDeserialize depth (incrementalWitnessSerialize w) = some (w', [])
          ∧ ∀ further, (incrementalWitnessRoot h (runWitness h w' further)).1
              = (incrementalWitnessRoot h (runWitness h w further)).1
            ∧ (incrementalWitnessMerklePath h (runWitness h w' further)).1
              = (incrementalWitnessMerklePath h (runWitness h w further)).1
            ∧ incrementalTreeSize (runWitness h w' further).tree
              = incrementalTreeSize (runWitness h w further).tree := by
  intro t w
  have bounds := range
  simp only [depthInRange, Bool.and_eq_true, decide_eq_true_eq] at bounds
  obtain ⟨holds, isDepth, -⟩ := runTree_init (h := h) bounds.1
    (le_trans (Nat.le_add_right _ _) fits)
  have isDepth : t.depth = depth := isDepth
  have holds : Holds h t (appendedLeaves before) := holds
  have room : (appendedLeaves before).length ≤ 2 ^ depth := by omega
  constructor
  · obtain ⟨wellFormed, parents⟩ := holds.wfcheck bounds.1 room
    have back := incrementalTreeDeserialize_serialize depth wellFormed (by omega) []
    rw [List.append_nil, ← isDepth] at back
    have fresh := holds.fresh (by omega) (by rwa [isDepth])
    refine ⟨forgetRoot t, by rw [← isDepth]; exact back, ?_⟩
    intro further
    have same := fresh.sameTree.run further
    exact ⟨same.root.1.symm, same.size.symm⟩
  · have sameTree : w.tree = t := runWitness_tree h after _
    have resumable : Resumable h w (0 + (replayedLeaves after).length) :=
      runWitness_resumable (incrementalWitnessInit_resumable h t)
    have back := incrementalWitnessDeserialize_serialize (h := h) (w := w)
      (by rw [sameTree, isDepth]; exact range) resumable (by rw [sameTree, isDepth]; omega)
      (by rw [sameTree]; exact holds) (by rw [sameTree, isDepth]; exact room)
    rw [sameTree, isDepth] at back
    refine ⟨_, back, ?_⟩
    intro further
    have start : SameWitness h w
        { w with tree := forgetRoot t, cursor := w.cursor.map forgetRoot } := by
      refine { tree := by rw [sameTree]; rfl, filled := rfl, cursorDepth := rfl, cursor := ?_ }
      rcases isCursor : w.cursor with _ | cursor
      · exact .none
      · obtain ⟨-, positive, leaves, inner, space, -⟩ := resumable.cursor cursor isCursor
        exact .some (inner.fresh positive space.le).sameTree
    have same := start.run further
    refine ⟨same.root.1.symm, same.path.1.symm, ?_⟩
    show incrementalTreeSize (forgetRoot _) = incrementalTreeSize (forgetRoot _)
    rw [same.tree]
    rfl

def leftmostHash : TreeHash Uint256 := ⟨fun left _ _ => left, .fill 0⟩

/-- A witness whose cursor holds one leaf of two. -/
theorem saved_resumes_halfFilled
    : (runWitness leftmostHash (incrementalWitnessInit (runTree leftmostHash (treeInit 3)
          [.append (.fill 1)])) [.append (.fill 2), .append (.fill 3)]).cursor.isSome = true
        ∧ ∃ w', incrementalWitnessDeserialize 3 (incrementalWitnessSerialize
            (runWitness leftmostHash (incrementalWitnessInit (runTree leftmostHash (treeInit 3)
              [.append (.fill 1)])) [.append (.fill 2), .append (.fill 3)])) = some (w', []) :=
  have resumes := (saved_resumes leftmostHash (by decide : depthInRange 3 = true)
    [.append (.fill 1)] [.append (.fill 2), .append (.fill 3)] (by decide)).2
  ⟨by decide, resumes.imp fun _ back => back.1⟩

/-- A tree of depth four with a seventeenth leaf is not read back. -/
theorem overfull_not_read
    : incrementalTreeSize (runTree leftmostHash (treeInit 4)
          (List.replicate 17 (.append (.fill 1)))) = 17
        ∧ incrementalTreeDeserialize 4 (incrementalTreeSerialize (runTree leftmostHash (treeInit 4)
          (List.replicate 17 (.append (.fill 1))))) = none := by
  decide +kernel

end Z23.Sapling
