import Z23.Chain.BlockIndex

/-!
The skip pointers of the block index. A pointer leads to the ancestor at a height computed from the
bits of the block's own height, so that the lookup may take it in place of the parents between.
-/

namespace Z23.Chain

/-- Models `block_index_build_skip`. -/
def blockIndexBuildSkip (blocks : BlockStore) (bi : BlockId) : BlockStore :=
  match (blocks bi).pprev with
  | some prev =>
    blocks.modify bi fun block =>
      { block with
        pskip := blockIndexGetAncestor blocks prev (getSkipHeight block.nHeight.toNat) }
  | none => blocks

/-- Follow the parents a number of times. -/
def parentWalk (blocks : BlockStore) : Nat → BlockId → Option BlockId
  | 0, id => some id
  | steps + 1, id => (blocks id).pprev.bind (parentWalk blocks steps)

/-- A block is one higher than its parent. -/
def Consecutive (blocks : BlockStore) : Prop :=
  ∀ id parent, (blocks id).pprev = some parent →
    (blocks id).nHeight = (blocks parent).nHeight + 1

/-- The skip pointers that are set lead to the ancestors they are for. -/
def SkipSound (blocks : BlockStore) : Prop :=
  ∀ (id skip : BlockId) (h : Nat), (blocks id).nHeight = h → (blocks id).pskip = some skip →
    parentWalk blocks (h - getSkipHeight h) id = some skip

-- Parents

section Parents

variable {blocks : BlockStore}

theorem parentWalk_add (first second : Nat) (id : BlockId)
    : parentWalk blocks (first + second) id
        = (parentWalk blocks first id).bind (parentWalk blocks second) := by
  induction first generalizing id with
  | zero => rw [Nat.zero_add, parentWalk, Option.bind_some]
  | succ first ih =>
    rw [Nat.succ_add, parentWalk, parentWalk]
    cases (blocks id).pprev with
    | none => rfl
    | some prev => exact ih prev

theorem parentWalk_height (consecutive : Consecutive blocks) {steps : Nat} {id target : BlockId}
    (walked : parentWalk blocks steps id = some target)
    : (blocks id).nHeight = (blocks target).nHeight + steps := by
  induction steps generalizing id with
  | zero =>
    obtain rfl := Option.some.inj walked
    exact (Int.add_zero _).symm
  | succ steps ih =>
    rw [parentWalk] at walked
    obtain ⟨prev, link, rest⟩ := Option.bind_eq_some_iff.mp walked
    rw [consecutive id prev link, ih rest]
    push_cast
    omega

theorem parentWalk_congr {a b : BlockStore} (same : ∀ id, (a id).pprev = (b id).pprev) (steps : Nat)
    (id : BlockId) : parentWalk a steps id = parentWalk b steps id := by
  induction steps generalizing id with
  | zero => rfl
  | succ steps ih =>
    rw [parentWalk, parentWalk, same]
    cases (b id).pprev with
    | none => rfl
    | some prev => exact ih prev

end Parents

-- The lookup

theorem invertLowestOne_le (n : Nat) : invertLowestOne n ≤ n - 1 := Nat.and_le_right

theorem getSkipHeight_lt {h : Nat} (positive : 0 < h) : getSkipHeight h < h := by
  rw [getSkipHeight]
  split
  · exact positive
  · split
    · have inner := invertLowestOne_le (h - 1)
      have outer := invertLowestOne_le (invertLowestOne (h - 1))
      omega
    · have below := invertLowestOne_le h
      omega

section Lookup

variable {blocks : BlockStore}

theorem ancestorWalk_eq (consecutive : Consecutive blocks) (sound : SkipSound blocks)
    {height fuel h : Nat} {walk : BlockId} (here : (blocks walk).nHeight = h) (enough : h ≤ fuel)
    (low : height ≤ h)
    : ancestorWalk blocks height fuel walk h = parentWalk blocks (h - height) walk := by
  induction fuel generalizing walk h with
  | zero =>
    have ended : h - height = 0 := by omega
    rw [ended]
    rfl
  | succ fuel ih =>
    rw [ancestorWalk]
    split
    · have ended : h - height = 0 := by omega
      rw [ended]
      rfl
    · rename_i above
      have below := getSkipHeight_lt (Nat.zero_lt_of_lt (Nat.not_le.mp above))
      have byParent
          : (blocks walk).pprev.bind (fun prev => ancestorWalk blocks height fuel prev (h - 1))
            = parentWalk blocks (h - height) walk := by
        have split : h - height = h - 1 - height + 1 := by omega
        rw [split, parentWalk]
        cases link : (blocks walk).pprev with
        | none => rfl
        | some prev =>
          have lower := consecutive walk prev link
          exact ih (by omega) (by omega) (by omega)
      dsimp only
      cases pointer : (blocks walk).pskip with
      | none => exact byParent
      | some skip =>
        dsimp only
        split
        · rename_i take
          have reached : height ≤ getSkipHeight h := by omega
          have jump := sound walk skip h here pointer
          have landed := parentWalk_height consecutive jump
          have split : h - height = h - getSkipHeight h + (getSkipHeight h - height) := by omega
          rw [split, parentWalk_add, jump, Option.bind_some]
          exact ih (by omega) (by omega) reached
        · exact byParent

theorem getAncestor_eq (consecutive : Consecutive blocks) (sound : SkipSound blocks) (bi : BlockId)
    (height : Int)
    : blockIndexGetAncestor blocks bi height
      = if 0 ≤ height ∧ height ≤ (blocks bi).nHeight
        then parentWalk blocks ((blocks bi).nHeight - height).toNat bi else none := by
  rw [blockIndexGetAncestor]
  by_cases outside : (blocks bi).nHeight < height ∨ height < 0
  · rw [if_pos outside, if_neg (by omega)]
  · rw [if_neg outside, if_pos (by omega)]
    have steps : ((blocks bi).nHeight - height).toNat
        = (blocks bi).nHeight.toNat - height.toNat := by omega
    rw [steps]
    exact ancestorWalk_eq consecutive sound (by omega) (Nat.le_refl _) (by omega)

end Lookup

-- Runs

section Runs

variable {blocks : BlockStore}

theorem buildSkip_keeps (blocks : BlockStore) (bi id : BlockId)
    : (blockIndexBuildSkip blocks bi id).pprev = (blocks id).pprev
      ∧ (blockIndexBuildSkip blocks bi id).nHeight = (blocks id).nHeight := by
  rw [blockIndexBuildSkip]
  cases (blocks bi).pprev with
  | none => exact ⟨rfl, rfl⟩
  | some prev =>
    dsimp only
    rcases eq_or_ne id bi with rfl | other
    · rw [BlockStore.modify_self]
      exact ⟨rfl, rfl⟩
    · rw [BlockStore.modify_other _ _ other]
      exact ⟨rfl, rfl⟩

theorem buildSkip_consecutive (consecutive : Consecutive blocks) (bi : BlockId)
    : Consecutive (blockIndexBuildSkip blocks bi) := by
  intro id parent link
  rw [(buildSkip_keeps blocks bi id).1] at link
  rw [(buildSkip_keeps blocks bi id).2, (buildSkip_keeps blocks bi parent).2]
  exact consecutive id parent link

theorem buildSkip_sound (consecutive : Consecutive blocks) (sound : SkipSound blocks)
    (bi : BlockId) : SkipSound (blockIndexBuildSkip blocks bi) := by
  intro id skip h here pointer
  rw [(buildSkip_keeps blocks bi id).2] at here
  rw [parentWalk_congr fun id => (buildSkip_keeps blocks bi id).1]
  rw [blockIndexBuildSkip] at pointer
  cases link : (blocks bi).pprev with
  | none =>
    rw [link] at pointer
    exact sound id skip h here pointer
  | some prev =>
    rw [link] at pointer
    dsimp only at pointer
    rcases eq_or_ne id bi with rfl | other
    · rw [BlockStore.modify_self] at pointer
      dsimp only at pointer
      rw [getAncestor_eq consecutive sound] at pointer
      split at pointer
      · rename_i inside
        have lower := consecutive id prev link
        have back : (blocks id).nHeight.toNat = h := by omega
        rw [back] at pointer inside
        have split : h - getSkipHeight h
            = ((blocks prev).nHeight - getSkipHeight h).toNat + 1 := by omega
        rw [split, parentWalk, link]
        exact pointer
      · cases pointer
    · rw [BlockStore.modify_other _ _ other] at pointer
      exact sound id skip h here pointer

theorem buildSkips_sound (consecutive : Consecutive blocks) (sound : SkipSound blocks)
    (built : List BlockId)
    : Consecutive (built.foldl blockIndexBuildSkip blocks)
      ∧ SkipSound (built.foldl blockIndexBuildSkip blocks)
      ∧ (∀ id, (built.foldl blockIndexBuildSkip blocks id).pprev = (blocks id).pprev)
      ∧ ∀ id, (built.foldl blockIndexBuildSkip blocks id).nHeight = (blocks id).nHeight := by
  induction built generalizing blocks with
  | nil => exact ⟨consecutive, sound, fun _ => rfl, fun _ => rfl⟩
  | cons bi rest ih =>
    obtain ⟨linked, skips, pprev, nHeight⟩ :=
      ih (buildSkip_consecutive consecutive bi) (buildSkip_sound consecutive sound bi)
    rw [List.foldl_cons]
    refine ⟨linked, skips, fun id => ?_, fun id => ?_⟩
    · rw [pprev, (buildSkip_keeps blocks bi id).1]
    · rw [nHeight, (buildSkip_keeps blocks bi id).2]

end Runs

/-- The lookup is the walk along the parents: on blocks with consecutive heights and no skip
pointer but those set for some of them, in the order of `built`, it finds the same block for every
height of the chain, and none outside. -/
theorem getAncestor_eq_parentWalk {blocks : BlockStore} (consecutive : Consecutive blocks)
    (bare : ∀ id, (blocks id).pskip = none) (built : List BlockId) (bi : BlockId) (height : Int)
    : blockIndexGetAncestor (built.foldl blockIndexBuildSkip blocks) bi height
      = if 0 ≤ height ∧ height ≤ (blocks bi).nHeight
        then parentWalk blocks ((blocks bi).nHeight - height).toNat bi else none := by
  have sound : SkipSound blocks := by
    intro id skip h _ pointer
    rw [bare] at pointer
    cases pointer
  obtain ⟨linked, skips, pprev, nHeight⟩ := buildSkips_sound consecutive sound built
  rw [getAncestor_eq linked skips, nHeight]
  split
  · exact parentWalk_congr pprev _ bi
  · rfl

/-- Six blocks in a row. -/
def sampleChain : BlockStore := fun id =>
  { hashBlock := Uint256.fill 0, pprev := if id = 0 then none else some (id - 1), nHeight := id }

/-- Block 5 looks over its skip pointer. -/
theorem getAncestor_eq_parentWalk_row
    : blockIndexGetAncestor ([0, 1, 2, 3, 4, 5].foldl blockIndexBuildSkip sampleChain) 5 1
      = some 1 := by
  have consecutive : Consecutive sampleChain := by
    intro id parent link
    rw [sampleChain] at link
    dsimp only at link
    split at link
    · cases link
    · rename_i positive
      obtain rfl := Option.some.inj link
      have above : ((id - 1 : Nat) : Int) = (id : Int) - 1 :=
        Int.natCast_pred_of_pos (Nat.pos_of_ne_zero positive)
      change (id : Int) = ((id - 1 : Nat) : Int) + 1
      rw [above, Int.sub_add_cancel]
  rw [getAncestor_eq_parentWalk consecutive (fun _ => rfl)]
  rfl

end Z23.Chain
