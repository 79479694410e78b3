import Z23.Primitives

/-!
The block index: one object for each known block, linked to its parent, with a status word that
holds the validity level and the failure flags. An object is named by its address.
-/

namespace Z23.Chain

-- Status

def blockValidTree : UInt32 := 2

def blockValidMask : UInt32 := 7

def blockHaveData : UInt32 := 8

def blockFailedValid : UInt32 := 32

def blockFailedChild : UInt32 := 64

/-- `BLOCK_FAILED_VALID` and `BLOCK_FAILED_CHILD`. -/
def blockFailedMask : UInt32 := 96

/-- `BLOCK_FAILED_MASK` and `BLOCK_FAILED_TRANSIENT`. -/
def blockFailedAnyMask : UInt32 := 1120

abbrev BlockId := Nat

@[ext]
structure BlockIndex where
  hashBlock : Uint256
  pprev : Option BlockId
  pskip : Option BlockId := none
  nChainWork : Nat := 0
  nHeight : Int
  nChainTx : UInt32 := 0
  nStatus : UInt32 := 0
deriving DecidableEq, Repr

/-- The objects by address. -/
abbrev BlockStore := BlockId → BlockIndex

def BlockIndex.isFailed (bi : BlockIndex) : Bool := bi.nStatus &&& blockFailedMask != 0

def blockHasAnyFailure (bi : BlockIndex) : Bool := bi.nStatus &&& blockFailedAnyMask != 0

def blockIndexIsValid (bi : BlockIndex) (upTo : UInt32) : Bool :=
  !blockHasAnyFailure bi && upTo ≤ bi.nStatus &&& blockValidMask

/-- `nStatus |= flag`. -/
def BlockIndex.setFlag (bi : BlockIndex) (flag : UInt32) : BlockIndex :=
  { bi with nStatus := bi.nStatus ||| flag }

/-- `nStatus &= ~BLOCK_FAILED_ANY_MASK`. -/
def BlockIndex.clearFailure (bi : BlockIndex) : BlockIndex :=
  { bi with nStatus := bi.nStatus &&& ~~~blockFailedAnyMask }

/-- The objects with one of them changed. -/
def BlockStore.modify (blocks : BlockStore) (id : BlockId) (f : BlockIndex → BlockIndex)
    : BlockStore :=
  fun other => if other = id then f (blocks id) else blocks other

def BlockStore.modifyAll (blocks : BlockStore) (ids : List BlockId)
    (f : BlockIndex → BlockIndex) : BlockStore :=
  ids.foldl (fun blocks id => blocks.modify id f) blocks

@[simp]
theorem BlockStore.modify_self (blocks : BlockStore) (id : BlockId) (f : BlockIndex → BlockIndex)
    : blocks.modify id f id = f (blocks id) :=
  if_pos rfl

theorem BlockStore.modify_other (blocks : BlockStore) {id other : BlockId}
    (f : BlockIndex → BlockIndex) (different : other ≠ id)
    : blocks.modify id f other = blocks other :=
  if_neg different

theorem or_and_distrib (status flag mask : UInt32)
    : (status ||| flag) &&& mask = (status &&& mask) ||| (flag &&& mask) :=
  UInt32.toBitVec_inj.mp (by simp [BitVec.and_or_distrib_right])

theorem BlockIndex.isFailed_setFlag {flag : UInt32} (failing : flag &&& blockFailedMask ≠ 0)
    (bi : BlockIndex) : (bi.setFlag flag).isFailed = true := by
  simp [isFailed, setFlag, or_and_distrib, failing]

theorem BlockIndex.anyFailure_of_isFailed {bi : BlockIndex} (failed : bi.isFailed = true)
    : blockHasAnyFailure bi = true := by
  rw [blockHasAnyFailure, bne_iff_ne]
  intro none
  rw [isFailed, bne_iff_ne] at failed
  refine failed ?_
  rw [show blockFailedMask = blockFailedAnyMask &&& blockFailedMask from rfl, ← UInt32.and_assoc,
    none, UInt32.zero_and]

theorem BlockIndex.anyFailure_clearFailure (bi : BlockIndex)
    : blockHasAnyFailure bi.clearFailure = false := by
  simp [blockHasAnyFailure, clearFailure, UInt32.and_assoc]

theorem BlockIndex.clearFailure_of_none {bi : BlockIndex} (none : blockHasAnyFailure bi = false)
    : bi.clearFailure = bi := by
  have zero : bi.nStatus &&& blockFailedAnyMask = 0 := by simpa [blockHasAnyFailure] using none
  have ones : blockFailedAnyMask.toBitVec ||| (~~~blockFailedAnyMask).toBitVec
      = BitVec.allOnes 32 := by
    decide
  have split : bi.nStatus &&& blockFailedAnyMask ||| bi.nStatus &&& ~~~blockFailedAnyMask
      = bi.nStatus :=
    UInt32.toBitVec_inj.mp (by
      rw [UInt32.toBitVec_or, UInt32.toBitVec_and, UInt32.toBitVec_and,
        ← BitVec.and_or_distrib_left, ones, BitVec.and_allOnes])
  rw [zero, UInt32.zero_or] at split
  rw [clearFailure, split]

theorem BlockIndex.clearFailure_setFlag {flag : UInt32}
    (failing : flag &&& ~~~blockFailedAnyMask = 0) (bi : BlockIndex)
    : (bi.setFlag flag).clearFailure = bi.clearFailure := by
  simp [clearFailure, setFlag, or_and_distrib, failing]

-- Ancestors

def invertLowestOne (n : Nat) : Nat := n &&& (n - 1)

def getSkipHeight (height : Nat) : Nat :=
  if height < 2 then 0
  else if height % 2 = 1 then invertLowestOne (invertLowestOne (height - 1)) + 1
  else invertLowestOne height

/-- The loop of the lookup; `fuel` is at least the height `h` of `walk`. -/
def ancestorWalk (blocks : BlockStore) (height : Nat) : Nat → BlockId → Nat → Option BlockId
  | 0, walk, _ => some walk
  | fuel + 1, walk, h =>
    if h ≤ height then some walk
    else
      let skipH := getSkipHeight h
      let skipHPrev := getSkipHeight (h - 1)
      let takeSkip := skipH = height
        ∨ height < skipH ∧ ¬(skipHPrev + 2 < skipH ∧ height ≤ skipHPrev)
      match (blocks walk).pskip with
      | some skip =>
        if takeSkip then ancestorWalk blocks height fuel skip skipH
        else (blocks walk).pprev.bind fun prev => ancestorWalk blocks height fuel prev (h - 1)
      | none => (blocks walk).pprev.bind fun prev => ancestorWalk blocks height fuel prev (h - 1)

def blockIndexGetAncestor (blocks : BlockStore) (bi : BlockId) (height : Int) : Option BlockId :=
  if (blocks bi).nHeight < height ∨ height < 0 then none
  else ancestorWalk blocks height.toNat (blocks bi).nHeight.toNat bi (blocks bi).nHeight.toNat

-- Chain state

/-- The window of the active chain by height, and what `active_chain_tip` answers. -/
structure ActiveChain where
  slots : List (Option BlockId)
  tip : Option BlockId
deriving DecidableEq, Repr

def activeChainAt (c : ActiveChain) (height : Int) : Option BlockId :=
  if height < 0 then none else c.slots[height.toNat]?.join

/-- The block map lists its entries in iteration order. -/
structure MainState where
  blocks : BlockStore
  mapBlockIndex : List BlockId
  chainActive : ActiveChain
  pindexBestHeader : Option BlockId

/-- A block that is a number of parent links above another. -/
inductive ParentSteps (blocks : BlockStore) (target : BlockId) : Nat → BlockId → Prop where
  | here : ParentSteps blocks target 0 target
  | up {steps : Nat} {id parent : BlockId} (link : (blocks id).pprev = some parent)
      (below : ParentSteps blocks target steps parent) : ParentSteps blocks target (steps + 1) id

/-- The blocks strictly above another one in the tree. -/
def Descendant (blocks : BlockStore) (id target : BlockId) : Prop :=
  ∃ steps, ParentSteps blocks target (steps + 1) id

/-- The parent of a mapped block is mapped and lower, and no two entries have one hash. -/
structure BlockTree (s : MainState) : Prop where
  nodup : s.mapBlockIndex.Nodup
  mapped : ∀ id ∈ s.mapBlockIndex, ∀ parent, (s.blocks id).pprev = some parent →
    parent ∈ s.mapBlockIndex
  ascends : ∀ id ∈ s.mapBlockIndex, ∀ parent, (s.blocks id).pprev = some parent →
    (s.blocks parent).nHeight < (s.blocks id).nHeight
  oneEntry : ∀ a ∈ s.mapBlockIndex, ∀ b ∈ s.mapBlockIndex,
    (s.blocks a).hashBlock = (s.blocks b).hashBlock → a = b

-- Links

/-- All of a block's data but its status. -/
def BlockIndex.links (bi : BlockIndex) : BlockIndex := { bi with nStatus := 0 }

/-- The objects differ in their status words only. -/
def SameLinks (a b : BlockStore) : Prop :=
  ∀ id, (a id).links = (b id).links

theorem SameLinks.refl (blocks : BlockStore) : SameLinks blocks blocks := fun _ => rfl

theorem SameLinks.trans {a b c : BlockStore} (first : SameLinks a b) (second : SameLinks b c)
    : SameLinks a c :=
  fun id => (first id).trans (second id)

variable {a b : BlockStore}

theorem SameLinks.pprev (same : SameLinks a b) (id : BlockId)
    : (a id).pprev = (b id).pprev := by
  have field := congrArg BlockIndex.pprev (same id)
  exact field

theorem SameLinks.nHeight (same : SameLinks a b) (id : BlockId)
    : (a id).nHeight = (b id).nHeight := by
  have field := congrArg BlockIndex.nHeight (same id)
  exact field

theorem SameLinks.pskip (same : SameLinks a b) (id : BlockId)
    : (a id).pskip = (b id).pskip := by
  have field := congrArg BlockIndex.pskip (same id)
  exact field

theorem SameLinks.hashBlock (same : SameLinks a b) (id : BlockId)
    : (a id).hashBlock = (b id).hashBlock := by
  have field := congrArg BlockIndex.hashBlock (same id)
  exact field

variable {f : BlockIndex → BlockIndex}

theorem SameLinks.modify (blocks : BlockStore) (id : BlockId)
    (onlyStatus : ∀ bi, (f bi).links = bi.links)
    : SameLinks (blocks.modify id f) blocks := by
  intro other
  rcases eq_or_ne other id with rfl | different
  · rw [BlockStore.modify_self, onlyStatus]
  · rw [BlockStore.modify_other blocks f different]

variable {s : MainState}

theorem BlockTree.sameLinks {blocks : BlockStore} (tree : BlockTree s)
    (same : SameLinks blocks s.blocks) : BlockTree { s with blocks } where
  nodup := tree.nodup
  mapped := by
    intro id member parent link
    rw [same.pprev] at link
    exact tree.mapped id member parent link
  ascends := by
    intro id member parent link
    rw [same.pprev] at link
    rw [same.nHeight, same.nHeight]
    exact tree.ascends id member parent link
  oneEntry := by
    intro a aMember b bMember equal
    rw [same.hashBlock, same.hashBlock] at equal
    exact tree.oneEntry a aMember b bMember equal

theorem BlockTree.notOwnParent (tree : BlockTree s) {id : BlockId} (member : id ∈ s.mapBlockIndex)
    : (s.blocks id).pprev ≠ some id := by
  intro link
  exact absurd (tree.ascends id member id link) (lt_irrefl _)

theorem BlockTree.pathHeight (tree : BlockTree s) {target id : BlockId} {steps : Nat}
    (path : ParentSteps s.blocks target steps id) (member : id ∈ s.mapBlockIndex)
    : (s.blocks target).nHeight + steps ≤ (s.blocks id).nHeight
        ∧ target ∈ s.mapBlockIndex := by
  induction path with
  | here => exact ⟨by simp, member⟩
  | @up steps id parent link _ ih =>
    obtain ⟨low, mapped⟩ := ih (tree.mapped id member parent link)
    have above := tree.ascends id member parent link
    exact ⟨by push_cast; omega, mapped⟩

theorem BlockTree.pathUnique (tree : BlockTree s) {target id : BlockId} {first second : Nat}
    (path : ParentSteps s.blocks target first id) (other : ParentSteps s.blocks target second id)
    (member : id ∈ s.mapBlockIndex)
    : first = second := by
  induction path generalizing second with
  | here =>
    cases other with
    | here => rfl
    | up link below =>
      have low := (tree.pathHeight below (tree.mapped target member _ link)).1
      have above := tree.ascends target member _ link
      omega
  | @up steps id parent link below ih =>
    cases other with
    | here =>
      have low := (tree.pathHeight below (tree.mapped target member _ link)).1
      have above := tree.ascends target member _ link
      omega
    | up otherLink otherBelow =>
      obtain rfl := Option.some.inj (link.symm.trans otherLink)
      rw [ih otherBelow (tree.mapped id member _ link)]

theorem setFlag_links (flag : UInt32) (bi : BlockIndex) : (bi.setFlag flag).links = bi.links := rfl

theorem clearFailure_links (bi : BlockIndex) : bi.clearFailure.links = bi.links := rfl

theorem BlockStore.modifyAll_other {blocks : BlockStore} {ids : List BlockId} {id : BlockId}
    (other : id ∉ ids)
    : blocks.modifyAll ids f id = blocks id := by
  induction ids generalizing blocks with
  | nil => rfl
  | cons first rest ih =>
    rw [List.mem_cons, not_or] at other
    exact (ih other.2).trans (blocks.modify_other f other.1)

theorem BlockStore.clearFailure_modify {flag : UInt32}
    (failing : flag &&& ~~~blockFailedAnyMask = 0) (blocks : BlockStore) (id other : BlockId)
    : (blocks.modify id (·.setFlag flag) other).clearFailure = (blocks other).clearFailure := by
  rcases eq_or_ne other id with rfl | different
  · rw [modify_self, BlockIndex.clearFailure_setFlag failing]
  · rw [modify_other _ _ different]

theorem BlockStore.clearFailure_modifyAll {flag : UInt32}
    (failing : flag &&& ~~~blockFailedAnyMask = 0) (blocks : BlockStore) (ids : List BlockId)
    (other : BlockId)
    : (blocks.modifyAll ids (·.setFlag flag) other).clearFailure
        = (blocks other).clearFailure := by
  induction ids generalizing blocks with
  | nil => rfl
  | cons first rest ih =>
    exact (ih (blocks.modify first (·.setFlag flag))).trans
      (clearFailure_modify failing blocks first other)

theorem BlockStore.modifyAll_clearFailure (blocks : BlockStore) (ids : List BlockId) (id : BlockId)
    : blocks.modifyAll ids BlockIndex.clearFailure id
        = if id ∈ ids then (blocks id).clearFailure else blocks id := by
  induction ids generalizing blocks with
  | nil => rfl
  | cons first rest ih =>
    rw [modifyAll, List.foldl_cons, ← modifyAll, ih]
    rcases eq_or_ne id first with rfl | different
    · rw [modify_self, BlockIndex.clearFailure_of_none (BlockIndex.anyFailure_clearFailure _)]
      simp
    · rw [modify_other _ _ different]
      simp [different]

theorem SameLinks.modifyAll (blocks : BlockStore) (ids : List BlockId)
    (onlyStatus : ∀ bi, (f bi).links = bi.links)
    : SameLinks (blocks.modifyAll ids f) blocks := by
  induction ids generalizing blocks with
  | nil => exact .refl blocks
  | cons first rest ih => exact (ih _).trans (.modify blocks first onlyStatus)

theorem SameLinks.ancestorWalk (same : SameLinks a b) (height fuel : Nat) (walk : BlockId) (h : Nat)
    : ancestorWalk a height fuel walk h = ancestorWalk b height fuel walk h := by
  induction fuel generalizing walk h with
  | zero => rfl
  | succ fuel ih => simp only [Chain.ancestorWalk, same.pskip, same.pprev, ih]

theorem SameLinks.getAncestor (same : SameLinks a b) (bi : BlockId) (height : Int)
    : blockIndexGetAncestor a bi height = blockIndexGetAncestor b bi height := by
  rw [blockIndexGetAncestor, blockIndexGetAncestor, same.nHeight, same.ancestorWalk]

end Z23.Chain
