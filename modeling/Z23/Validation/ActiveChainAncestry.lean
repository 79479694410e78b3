import Z23.Validation.ActiveChainWindow

/-!
The window holds the ancestry of its tip. The fill may stop at the first block that is in its
place, since the slots below it were written for a tip that this block is an ancestor of.
-/

namespace Z23.Validation

open Z23.Chain

/-- Heights count the parents down to a block without one. -/
structure AncestorTree (blocks : BlockStore) : Prop where
  consecutive : Consecutive blocks
  nonneg : ∀ id, 0 ≤ (blocks id).nHeight
  complete : ∀ id, 0 < (blocks id).nHeight → (blocks id).pprev ≠ none

/-- The slots up to a height are the ancestry of a block of that height. -/
def Holds (blocks : BlockStore) (arr : List (Option BlockId)) (height : Nat) (tip : BlockId)
    : Prop :=
  ∀ i ≤ height, arr[i]? = some (parentWalk blocks (height - i) tip)

/-- The window is closed, or it holds the ancestry of its tip. -/
def ChainWindow.Sound (blocks : BlockStore) (c : ChainWindow) : Prop :=
  c.height = -1
    ∨ ∃ (height : Nat) (tip : BlockId), c.height = height ∧ (blocks tip).nHeight = height
      ∧ Holds blocks c.chain height tip

section Fill

variable {blocks : BlockStore}

variable {arr : List (Option BlockId)} {q : BlockId} {h : Nat}

theorem Holds.below {height : Nat} {tip : BlockId} (holds : Holds blocks arr height tip)
    (low : h ≤ height) (there : arr[h]? = some (some q)) : Holds blocks arr h q := by
  have walk : parentWalk blocks (height - h) tip = some q :=
    Option.some.inj ((holds h low).symm.trans there)
  intro i within
  have split : height - i = (height - h) + (h - i) := by omega
  rw [holds i (Nat.le_trans within low), split, parentWalk_add, walk]
  rfl

theorem Holds.congr {arr' : List (Option BlockId)} {height : Nat} {tip : BlockId}
    (holds : Holds blocks arr height tip) (same : ∀ i ≤ height, arr'[i]? = arr[i]?)
    : Holds blocks arr' height tip :=
  fun i within => (same i within).trans (holds i within)

theorem Holds.up {arr : List (Option BlockId)} {h : Nat} {prev q : BlockId}
    (holds : Holds blocks arr h prev) (link : (blocks q).pprev = some prev)
    (there : arr[h + 1]? = some (some q)) : Holds blocks arr (h + 1) q := by
  intro i within
  by_cases top : i = h + 1
  · rw [top, there, Nat.sub_self]
    rfl
  · have walk : h + 1 - i = (h - i) + 1 := by omega
    rw [holds i (by omega), walk, parentWalk, link]
    rfl

theorem AncestorTree.parent (tree : AncestorTree blocks)
    (there : (blocks q).nHeight = (h + 1 : Nat))
    : ∃ prev, (blocks q).pprev = some prev ∧ (blocks prev).nHeight = h := by
  obtain ⟨prev, link⟩ := Option.ne_none_iff_exists'.mp (tree.complete q (by omega))
  refine ⟨prev, link, ?_⟩
  have up := tree.consecutive q prev link
  rw [there] at up
  push_cast at up
  omega

theorem AncestorTree.ancestor (tree : AncestorTree blocks) {id : BlockId} {steps : Nat}
    (high : (steps : Int) ≤ (blocks id).nHeight) : ∃ a, parentWalk blocks steps id = some a := by
  induction steps generalizing id with
  | zero => exact ⟨id, rfl⟩
  | succ steps ih =>
    obtain ⟨prev, link⟩ := Option.ne_none_iff_exists'.mp (tree.complete id (by omega))
    have up := tree.consecutive id prev link
    obtain ⟨a, walked⟩ := @ih prev (by omega)
    refine ⟨a, ?_⟩
    rw [parentWalk, link]
    exact walked

theorem skipHigher_same {budget : Nat} (there : (blocks q).nHeight = h)
    : skipHigher blocks h budget (some q) = (budget, some q) := by
  cases budget with
  | zero => rw [skipHigher, if_neg (by omega)]
  | succ budget => rw [skipHigher, if_neg (by omega)]

/-- What stood in the array up to the visible height, below the slots that are written. -/
def Earlier (blocks : BlockStore) (oldHeight : Int) (arr : List (Option BlockId)) (limit : Nat)
    : Prop :=
  ∀ (h : Nat) (q : BlockId), h < limit → (h : Int) ≤ oldHeight → arr[h]? = some (some q) →
    Holds blocks arr h q

theorem fillLoop_holds (tree : AncestorTree blocks) {oldHeight : Int} {budget : Nat}
    (there : (blocks q).nHeight = h) (enough : h < budget) (room : h < arr.length)
    (earlier : Earlier blocks oldHeight arr (h + 1))
    : Holds blocks (fillLoop blocks oldHeight (h + 1) budget (some q) arr) h q
      ∧ ∀ i, h < i → (fillLoop blocks oldHeight (h + 1) budget (some q) arr)[i]? = arr[i]? := by
  induction h generalizing budget q arr with
  | zero =>
    rw [fillLoop, skipHigher_same there]
    simp only [Option.filter_some, there, decide_true, if_true, reduceCtorEq, false_and, if_false]
    split
    · rename_i stays
      exact ⟨earlier 0 q (Nat.lt_succ_self 0) stays.1 stays.2, fun i _ => rfl⟩
    · have written : ∀ arr' : List (Option BlockId), arr' = arr.set 0 (some q) →
          Holds blocks arr' 0 q ∧ ∀ i, 0 < i → arr'[i]? = arr[i]? := by
        rintro _ rfl
        refine ⟨?_, fun i above => List.getElem?_set_ne (by omega)⟩
        intro i within
        rw [Nat.le_zero.mp within, List.getElem?_set_self room]
        rfl
      split
      · exact written _ rfl
      · exact written _ rfl
  | succ h ih =>
    rw [fillLoop, skipHigher_same there]
    simp only [Option.filter_some, there, decide_true, if_true, reduceCtorEq, false_and, if_false]
    split
    · rename_i stays
      exact ⟨earlier (h + 1) q (Nat.lt_succ_self _) stays.1 stays.2, fun i _ => rfl⟩
    · obtain ⟨prev, link, prevHeight⟩ := tree.parent there
      have earlierBelow : Earlier blocks oldHeight (arr.set (h + 1) (some q)) (h + 1) := by
        intro i x low within found
        rw [List.getElem?_set_ne (by omega)] at found
        refine (earlier i x (by omega) within found).congr fun j below => ?_
        exact List.getElem?_set_ne (by omega)
      rw [if_neg (by omega : budget ≠ 0), link]
      obtain ⟨holds, above⟩ := ih prevHeight (by omega : h < budget - 1)
        (by rw [List.length_set]; omega) earlierBelow
      refine ⟨holds.up link ?_, ?_⟩
      · rw [above (h + 1) (Nat.lt_succ_self h), List.getElem?_set_self room]
      · intro i higher
        rw [above i (by omega), List.getElem?_set_ne (by omega)]

theorem growLocked_some {c grown : ChainWindow} {minHeight : Int} {alloc : Bool}
    (nonneg : 0 ≤ minHeight) (done : activeChainGrowLocked c minHeight alloc = some grown)
    : grown.height = c.height ∧ minHeight.toNat < grown.chain.length
      ∧ ∀ i, i < c.chain.length → grown.chain[i]? = c.chain[i]? := by
  rw [activeChainGrowLocked] at done
  split at done
  · obtain rfl := Option.some.inj done
    exact ⟨rfl, by omega, fun i _ => rfl⟩
  · split at done
    · cases done
    · obtain rfl := Option.some.inj done
      refine ⟨rfl, ?_, fun i within => List.getElem?_append_left within⟩
      rw [List.length_append, List.length_replicate]
      split <;> omega

theorem fillWindow_sound (tree : AncestorTree blocks) {c : ChainWindow} (sound : c.Sound blocks)
    (bi : BlockId) (alloc : Bool)
    : (activeChainFillWindow blocks c bi alloc).2.Sound blocks
      ∧ ((activeChainFillWindow blocks c bi alloc).1 = true →
          (activeChainFillWindow blocks c bi alloc).2.height = (blocks bi).nHeight
          ∧ activeChainCachedTip (activeChainFillWindow blocks c bi alloc).2 = some bi) := by
  rw [activeChainFillWindow]
  dsimp only
  split
  · exact ⟨sound, fun failed => by cases failed⟩
  · rename_i grown done
    have nonneg := tree.nonneg bi
    obtain ⟨sameHeight, room, keeps⟩ := growLocked_some nonneg done
    obtain ⟨height, here⟩ := Int.eq_ofNat_of_zero_le nonneg
    rw [here, Int.toNat_natCast] at room ⊢
    -- What the window held stands below the new tip as it did.
    have earlier : Earlier blocks grown.height (grown.chain.set height (some bi)) height := by
      intro h q low within found
      rw [sameHeight] at within
      rcases sound with closed | ⟨oldHeight, tip, isHeight, -, holds⟩
      · omega
      · have old : ∀ i ≤ h, (grown.chain.set height (some bi))[i]? = c.chain[i]? := by
          intro i below
          have inside : i < c.chain.length := by
            have some := holds i (by omega)
            exact (List.getElem?_eq_some_iff.mp some).1
          rw [List.getElem?_set_ne (by omega), keeps i inside]
        rw [old h (Nat.le_refl h)] at found
        exact (holds.below (by omega) found).congr old
    have filled : Holds blocks (fillLoop blocks grown.height height (height + 1) (blocks bi).pprev
        (grown.chain.set height (some bi))) height bi := by
      cases height with
      | zero =>
        intro i within
        rw [fillLoop, Nat.le_zero.mp within, List.getElem?_set_self room]
        rfl
      | succ h =>
        obtain ⟨prev, link, prevHeight⟩ := tree.parent here
        rw [link]
        obtain ⟨holds, above⟩ := fillLoop_holds tree prevHeight (by omega : h < h + 1 + 1)
          (by rw [List.length_set]; omega) earlier
        refine holds.up link ?_
        rw [above (h + 1) (Nat.lt_succ_self h), List.getElem?_set_self room]
    refine ⟨.inr ⟨height, bi, rfl, here, filled⟩, fun _ => ⟨rfl, ?_⟩⟩
    rw [activeChainCachedTip]
    dsimp only
    rw [if_neg (by omega), Int.toNat_natCast, filled height (Nat.le_refl height), Nat.sub_self]
    rfl

end Fill

-- Extensions

section Extensions

variable {blocks : BlockStore} {c : ChainWindow}

/-- What an extension does is nothing or a fill. -/
def NothingOrFill (blocks : BlockStore) (c : ChainWindow) (result : Bool × ChainWindow) : Prop :=
  result = (true, c) ∨ ∃ cand alloc, result = activeChainFillWindow blocks c cand alloc

theorem extendFast_nothingOrFill (m : List BlockId) (bestHeader : BlockId) (lo hi : Int)
    (alloc : Bool)
    : NothingOrFill blocks c (extendWindowHaveDataFast blocks c m bestHeader lo hi alloc) := by
  rw [extendWindowHaveDataFast]
  split
  · exact .inl rfl
  · split
    · exact .inl rfl
    · dsimp only
      split
      · exact .inl rfl
      · exact .inr ⟨_, _, rfl⟩

theorem extendSlow_nothingOrFill (m : List BlockId) (tip : BlockId) (lo hi : Int)
    (alloc scratch : Bool)
    : NothingOrFill blocks c (extendWindowHaveDataSlow blocks c m tip lo hi alloc scratch) := by
  rw [extendWindowHaveDataSlow]
  dsimp only
  split
  · exact .inl rfl
  · split
    · exact .inl rfl
    · exact .inr ⟨_, _, rfl⟩

theorem ChainWindow.Sound.cachedTip (sound : c.Sound blocks) (shown : 0 ≤ c.height)
    : ∃ tip, activeChainCachedTip c = some tip ∧ (blocks tip).nHeight = c.height
      ∧ Holds blocks c.chain c.height.toNat tip := by
  rcases sound with closed | ⟨height, tip, isHeight, tipHeight, holds⟩
  · omega
  · refine ⟨tip, ?_, by rw [isHeight, tipHeight], by rwa [isHeight, Int.toNat_natCast]⟩
    rw [activeChainCachedTip, isHeight, if_neg (by omega), Int.toNat_natCast,
      holds height (Nat.le_refl height), Nat.sub_self]
    rfl

theorem extendHaveData_nothingOrFill (sound : c.Sound blocks) (m : List BlockId)
    (bestHeader : Option BlockId) (maxHeight : Int) (authority : Option BlockId)
    (alloc scratch : Bool)
    : NothingOrFill blocks c
        (activeChainExtendWindowHaveData blocks c m bestHeader maxHeight authority alloc scratch) := by
  rw [activeChainExtendWindowHaveData]
  split
  · exact .inl rfl
  · rename_i shown
    obtain ⟨tip, cached, -⟩ := sound.cachedTip (by omega)
    have anchor : extendWindowHaveDataAnchorTip blocks c authority alloc = (some tip, c) := by
      simp only [extendWindowHaveDataAnchorTip, cached]
    rw [anchor]
    dsimp only
    split
    · exact extendFast_nothingOrFill m _ _ _ alloc
    · exact extendSlow_nothingOrFill m tip _ _ alloc scratch

end Extensions

-- Runs

/-- What may change of the blocks between moves: their status and their skip pointers. -/
structure IndexNotes where
  status : BlockId → UInt32
  skip : BlockId → Option BlockId

def IndexNotes.on (notes : IndexNotes) (blocks : BlockStore) : BlockStore := fun id =>
  { blocks id with nStatus := notes.status id, pskip := notes.skip id }

/-- The moves of a window, with what each finds outside it. -/
inductive WindowMove where
  | moveTip (hold : Option Int) (bi : Option BlockId) (alloc : Bool)
  | extend (candidate : Option BlockId) (alloc : Bool)
  | extendHaveData (notes : IndexNotes) (m : List BlockId) (bestHeader : Option BlockId)
      (maxHeight : Int) (authority : Option BlockId) (alloc scratch : Bool)

def WindowMove.run (blocks : BlockStore) (c : ChainWindow) : WindowMove → Bool × ChainWindow
  | .moveTip hold bi alloc => activeChainMoveWindowTip blocks hold c bi alloc
  | .extend candidate alloc => activeChainExtendWindow blocks c candidate alloc
  | .extendHaveData notes m bestHeader maxHeight authority alloc scratch =>
    activeChainExtendWindowHaveData (notes.on blocks) c m bestHeader maxHeight authority alloc
      scratch

/-- The window after moves, from an empty one. -/
def windowAfter (blocks : BlockStore) (moves : List WindowMove) : ChainWindow :=
  moves.foldl (fun c move => (move.run blocks c).2) {}

section Runs

variable {blocks : BlockStore} {c : ChainWindow}

theorem NothingOrFill.sound {result : Bool × ChainWindow}
    (done : NothingOrFill blocks c result) (tree : AncestorTree blocks) (sound : c.Sound blocks)
    : result.2.Sound blocks := by
  rcases done with rfl | ⟨cand, alloc, rfl⟩
  · exact sound
  · exact (fillWindow_sound tree sound cand alloc).1

theorem AncestorTree.noted (tree : AncestorTree blocks) (notes : IndexNotes)
    : AncestorTree (notes.on blocks) :=
  ⟨tree.consecutive, tree.nonneg, tree.complete⟩

theorem ChainWindow.Sound.noted (notes : IndexNotes)
    : c.Sound (notes.on blocks) ↔ c.Sound blocks := by
  have walk : ∀ steps id, parentWalk (notes.on blocks) steps id = parentWalk blocks steps id :=
    fun steps id => @parentWalk_congr (notes.on blocks) blocks (fun _ => rfl) steps id
  simp only [ChainWindow.Sound, Holds, walk]
  rfl

theorem WindowMove.run_sound (tree : AncestorTree blocks) (sound : c.Sound blocks)
    (move : WindowMove)
    : (move.run blocks c).2.Sound blocks := by
  cases move with
  | moveTip hold bi alloc =>
    cases bi with
    | none => exact .inl rfl
    | some bi =>
      rw [WindowMove.run, activeChainMoveWindowTip]
      split
      · exact sound
      · exact (fillWindow_sound tree sound bi alloc).1
  | extend candidate alloc =>
    cases candidate with
    | none => exact sound
    | some candidate =>
      rw [WindowMove.run, activeChainExtendWindow]
      split
      · exact sound
      · exact (fillWindow_sound tree sound candidate alloc).1
  | extendHaveData notes m bestHeader maxHeight authority alloc scratch =>
    have soundNow := (ChainWindow.Sound.noted notes).mpr sound
    have done := extendHaveData_nothingOrFill soundNow m bestHeader maxHeight authority alloc
      scratch
    exact (ChainWindow.Sound.noted notes).mp (done.sound (tree.noted notes) soundNow)

theorem windowAfter_sound (tree : AncestorTree blocks) (moves : List WindowMove)
    : (windowAfter blocks moves).Sound blocks := by
  rw [windowAfter]
  have start : ChainWindow.Sound blocks {} := .inl rfl
  generalize ({} : ChainWindow) = c at start
  induction moves generalizing c with
  | nil => exact start
  | cons move moves ih =>
    rw [List.foldl_cons]
    exact ih _ (move.run_sound tree start)

end Runs

/-- In every window that moves lead to, each visible slot holds the ancestor of the tip at its
height, and a tip moved to is the tip shown. -/
theorem window_holds_ancestry {blocks : BlockStore} (tree : AncestorTree blocks)
    (moves : List WindowMove)
    : (0 ≤ (windowAfter blocks moves).height →
        ∃ tip, activeChainCachedTip (windowAfter blocks moves) = some tip
          ∧ (blocks tip).nHeight = (windowAfter blocks moves).height
          ∧ ∀ h : Nat, (h : Int) ≤ (windowAfter blocks moves).height →
            ∃ ancestor, (windowAfter blocks moves).chain[h]? = some (some ancestor)
              ∧ (blocks ancestor).nHeight = h
              ∧ parentWalk blocks ((windowAfter blocks moves).height.toNat - h) tip
                = some ancestor)
      ∧ ∀ (hold : Option Int) (bi : BlockId) (alloc : Bool),
          (activeChainMoveWindowTip blocks hold (windowAfter blocks moves) (some bi) alloc).1
            = true →
          activeChainCachedTip
            (activeChainMoveWindowTip blocks hold (windowAfter blocks moves) (some bi) alloc).2
            = some bi := by
  have sound := windowAfter_sound tree moves
  generalize windowAfter blocks moves = c at sound
  refine ⟨?_, ?_⟩
  · intro shown
    obtain ⟨tip, cached, tipHeight, holds⟩ := sound.cachedTip shown
    refine ⟨tip, cached, tipHeight, ?_⟩
    intro h within
    have high : ((c.height.toNat - h : Nat) : Int) ≤ (blocks tip).nHeight := by omega
    obtain ⟨ancestor, walked⟩ := tree.ancestor high
    refine ⟨ancestor, ?_, ?_, walked⟩
    · rw [holds h (by omega), walked]
    · have down := parentWalk_height tree.consecutive walked
      omega
  · intro hold bi alloc moved
    rw [activeChainMoveWindowTip] at moved ⊢
    split at moved
    · cases moved
    · rename_i passes
      rw [if_neg passes]
      exact ((fillWindow_sound tree sound bi alloc).2 moved).2

/-- A block at a height. -/
def forkBlock (pprev : Option BlockId) (nHeight : Int) : BlockIndex :=
  { hashBlock := Uint256.fill 0, pprev, nHeight }

/-- Three blocks on the first one, and a branch of two behind the first of them. -/
def sampleFork : BlockStore
  | 1 => forkBlock (some 0) 1
  | 2 => forkBlock (some 1) 2
  | 3 => forkBlock (some 2) 3
  | 4 => forkBlock (some 1) 2
  | 5 => forkBlock (some 4) 3
  | _ => forkBlock none 0

theorem sampleFork_tree : AncestorTree sampleFork where
  consecutive := by
    intro id parent link
    unfold sampleFork at link
    split at link
    all_goals cases link
    all_goals rfl
  nonneg := by
    intro id
    unfold sampleFork
    split
    all_goals decide
  complete := by
    intro id positive
    unfold sampleFork at positive
    split at positive
    all_goals first
      | exact Option.some_ne_none _
      | exact absurd positive (by decide)

/-- Up one branch, back to where they part, and up the other past what was left there. -/
theorem window_holds_ancestry_fork
    : ∃ tip, activeChainCachedTip (windowAfter sampleFork [.moveTip none (some 3) true,
          .moveTip none (some 1) true, .extend (some 5) true]) = some tip
        ∧ parentWalk sampleFork 1 tip = some 4 := by
  obtain ⟨tip, cached, -, slots⟩ := (window_holds_ancestry sampleFork_tree
    [.moveTip none (some 3) true, .moveTip none (some 1) true, .extend (some 5) true]).1
    (by decide +kernel)
  obtain ⟨ancestor, slot, -, walked⟩ := slots 2 (by decide +kernel)
  have height : (windowAfter sampleFork [.moveTip none (some 3) true,
      .moveTip none (some 1) true, .extend (some 5) true]).height = 3 := by decide +kernel
  have four : (windowAfter sampleFork [.moveTip none (some 3) true,
      .moveTip none (some 1) true, .extend (some 5) true]).chain[2]? = some (some 4) := by
    decide +kernel
  rw [four] at slot
  rw [height, ← Option.some.inj (Option.some.inj slot)] at walked
  exact ⟨tip, cached, walked⟩

end Z23.Validation
