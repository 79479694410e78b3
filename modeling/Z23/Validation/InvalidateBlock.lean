import Mathlib.Data.List.Sort
import Z23.Chain.BlockIndex

/-!
Operator invalidation of a block: the target is marked, and a sweep of the block map by height
marks the children of failed blocks. The sweep is skipped when the target's parent is failed.
-/

namespace Z23.Validation

open Z23.Chain

-- Marking

inductive PropagateFailedChildResult where
  | ok
  | skipParentFailed
  | skipRateLimited
  | mallocFailed
deriving DecidableEq, Repr

def propagateFailedChildMinIntervalSec : Int := 10

/-- Whether the parent of a block has a permanent failure. -/
def parentFailed (blocks : BlockStore) (id : BlockId) : Bool :=
  match (blocks id).pprev with
  | some parent => (blocks parent).isFailed
  | none => false

/-- The pass over the collected blocks, and the number of blocks it marks. -/
def sweepFailedChild (blocks : BlockStore) : List BlockId → BlockStore × Nat
  | [] => (blocks, 0)
  | id :: rest =>
    let marks := !(blocks id).isFailed && parentFailed blocks id
    let swept := sweepFailedChild
      (if marks then blocks.modify id (·.setFlag blockFailedChild) else blocks) rest
    (swept.1, swept.2 + if marks then 1 else 0)

/-- The entries above a block, lowest first. -/
def blocksAbove (blocks : BlockStore) (map : List BlockId) (root : BlockId) : List BlockId :=
  (map.filter fun id => (blocks root).nHeight < (blocks id).nHeight).insertionSort
    fun a b => (blocks a).nHeight ≤ (blocks b).nHeight

structure PropagateOutcome where
  result : PropagateFailedChildResult
  blocks : BlockStore
  lastPropagateSec : Option Int
  propagated : Option Nat

/-- Without a time of the last walk there is no rate limit. -/
def processBlockPropagateFailedChild (blocks : BlockStore) (map : List BlockId) (root : BlockId)
    (nowSec : Int) (lastPropagateSec : Option Int) (mallocOk : Bool) : PropagateOutcome :=
  if parentFailed blocks root then ⟨.skipParentFailed, blocks, lastPropagateSec, none⟩
  else if lastPropagateSec.any fun last => nowSec - last < propagateFailedChildMinIntervalSec then
    ⟨.skipRateLimited, blocks, lastPropagateSec, none⟩
  else
    let lastPropagateSec := lastPropagateSec.map fun _ => nowSec
    if !mallocOk then ⟨.mallocFailed, blocks, lastPropagateSec, none⟩
    else
      let (swept, propagated) := sweepFailedChild blocks (blocksAbove blocks map root)
      ⟨.ok, swept, lastPropagateSec, some propagated⟩

def invalidateSameBlock (a b : BlockIndex) : Bool :=
  a.nHeight == b.nHeight && a.hashBlock == b.hashBlock

/-- Other objects of the target's block on the active chain and on the best header's chain. -/
def liveTwins (s : MainState) (target : BlockId) : List BlockId :=
  let height := (s.blocks target).nHeight
  let active := activeChainAt s.chainActive height
  let headerTwin := s.pindexBestHeader.bind fun best =>
    if height ≤ (s.blocks best).nHeight then blockIndexGetAncestor s.blocks best height else none
  let isTwin (id : BlockId) :=
    id != target && invalidateSameBlock (s.blocks id) (s.blocks target)
  active.toList.filter isTwin
    ++ headerTwin.toList.filter fun id => isTwin id && active != some id

def invalidateMarkLiveTwins (s : MainState) (target : BlockId) : MainState :=
  { s with blocks := s.blocks.modifyAll (liveTwins s target) (·.setFlag blockFailedValid) }

/-- The state and the number of marked descendants. -/
def processBlockMarkInvalid (s : MainState) (target : BlockId) (mallocOk : Bool)
    : MainState × Nat :=
  let s := { s with blocks := s.blocks.modify target (·.setFlag blockFailedValid) }
  let s := invalidateMarkLiveTwins s target
  let outcome :=
    processBlockPropagateFailedChild s.blocks s.mapBlockIndex target 0 none mallocOk
  ({ s with blocks := outcome.blocks }, outcome.propagated.getD 0)

-- The sweep

theorem parentFailed_congr {a b : BlockStore} {id : BlockId} (same : SameLinks a b)
    (sameParent : ∀ parent, (b id).pprev = some parent → a parent = b parent)
    : parentFailed a id = parentFailed b id := by
  rw [parentFailed, parentFailed, same.pprev]
  split
  · rename_i parent link
    rw [sameParent parent link]
  · rfl

theorem sweepFailedChild_sameLinks (blocks : BlockStore) (ids : List BlockId)
    : SameLinks (sweepFailedChild blocks ids).1 blocks := by
  induction ids generalizing blocks with
  | nil => exact .refl blocks
  | cons id rest ih =>
    refine (ih _).trans ?_
    split
    · exact .modify blocks id (setFlag_links blockFailedChild)
    · exact .refl blocks

theorem sweepFailedChild_other {blocks : BlockStore} {ids : List BlockId} {id : BlockId}
    (other : id ∉ ids) : (sweepFailedChild blocks ids).1 id = blocks id := by
  induction ids generalizing blocks with
  | nil => rfl
  | cons first rest ih =>
    rw [List.mem_cons, not_or] at other
    refine (ih other.2).trans ?_
    split
    · exact blocks.modify_other _ other.1
    · rfl

/--
A block of the list is marked when it has no failure of its own and its parent has one at the end
of the sweep: a parent comes before its children, so it has its last status when they are met.
-/
theorem sweepFailedChild_mem {blocks : BlockStore} {ids : List BlockId}
    (sorted : ids.Pairwise fun a b => (blocks a).nHeight ≤ (blocks b).nHeight)
    (nodup : ids.Nodup)
    (ascends : ∀ id ∈ ids, ∀ parent, (blocks id).pprev = some parent →
      (blocks parent).nHeight < (blocks id).nHeight)
    : (∀ id ∈ ids, (sweepFailedChild blocks ids).1 id
          = if !(blocks id).isFailed && parentFailed (sweepFailedChild blocks ids).1 id
            then (blocks id).setFlag blockFailedChild else blocks id)
        ∧ (sweepFailedChild blocks ids).2
          = ids.countP fun id =>
            !(blocks id).isFailed && parentFailed (sweepFailedChild blocks ids).1 id := by
  induction ids generalizing blocks with
  | nil => simp [sweepFailedChild]
  | cons first rest ih =>
    obtain ⟨low, sorted⟩ := List.pairwise_cons.mp sorted
    obtain ⟨fresh, nodup⟩ := List.nodup_cons.mp nodup
    have parentBefore : ∀ parent, (blocks first).pprev = some parent →
        parent ∉ first :: rest := by
      intro parent link member
      have above := ascends first List.mem_cons_self parent link
      rcases List.mem_cons.mp member with rfl | later
      · omega
      · have order := low parent later
        omega
    have sameFirst : parentFailed (sweepFailedChild blocks (first :: rest)).1 first
        = parentFailed blocks first :=
      parentFailed_congr (sweepFailedChild_sameLinks blocks (first :: rest))
        fun parent link => sweepFailedChild_other (parentBefore parent link)
    generalize isNext : (if !(blocks first).isFailed && parentFailed blocks first
      then blocks.modify first (·.setFlag blockFailedChild) else blocks) = next
    have links : SameLinks next blocks := by
      rw [← isNext]
      split
      · exact .modify blocks first (setFlag_links blockFailedChild)
      · exact .refl blocks
    have others : ∀ id, id ≠ first → next id = blocks id := by
      intro id different
      rw [← isNext]
      split
      · exact blocks.modify_other _ different
      · rfl
    obtain ⟨members, count⟩ := @ih next (by simpa only [links.nHeight] using sorted) nodup (by
      intro id member parent link
      rw [links.pprev] at link
      rw [links.nHeight, links.nHeight]
      exact ascends id (List.mem_cons_of_mem _ member) parent link)
    have isOut
        : (sweepFailedChild blocks (first :: rest)).1 = (sweepFailedChild next rest).1 := by
      rw [sweepFailedChild, isNext]
    have inRest : ∀ id ∈ rest, next id = blocks id :=
      fun id member => others id (fun same => fresh (same ▸ member))
    constructor
    · intro id member
      rcases List.mem_cons.mp member with rfl | later
      · rw [sameFirst, isOut, sweepFailedChild_other fresh, ← isNext]
        split
        · exact blocks.modify_self _ _
        · rfl
      · rw [isOut, members id later, inRest id later]
    · rw [List.countP_cons, sameFirst, isOut, sweepFailedChild, isNext]
      simp only [count]
      congr 1
      exact List.countP_congr fun id member => by rw [inRest id member]

-- Twins

theorem invalidateSameBlock_congr {a b : BlockStore} (same : SameLinks a b) (id target : BlockId)
    : invalidateSameBlock (a id) (a target) = invalidateSameBlock (b id) (b target) := by
  simp only [invalidateSameBlock, same.nHeight, same.hashBlock]

variable {s : MainState}

theorem liveTwins_congr {blocks : BlockStore} (same : SameLinks blocks s.blocks) (target : BlockId)
    : liveTwins { s with blocks } target = liveTwins s target := by
  simp only [liveTwins, same.nHeight, same.getAncestor, invalidateSameBlock_congr same]

theorem mem_liveTwins {target id : BlockId} (member : id ∈ liveTwins s target)
    : id ≠ target ∧ invalidateSameBlock (s.blocks id) (s.blocks target) = true := by
  simp only [liveTwins, List.mem_append, List.mem_filter, Bool.and_eq_true, bne_iff_ne] at member
  rcases member with ⟨-, twin⟩ | ⟨-, twin, -⟩
  · exact twin
  · exact twin

theorem liveTwins_unmapped (tree : BlockTree s) {target id : BlockId}
    (mapped : target ∈ s.mapBlockIndex) (member : id ∈ s.mapBlockIndex)
    : id ∉ liveTwins s target := by
  intro twin
  obtain ⟨different, same⟩ := mem_liveTwins twin
  rw [invalidateSameBlock, Bool.and_eq_true, beq_iff_eq, beq_iff_eq] at same
  exact different (tree.oneEntry id member target mapped same.2)

-- What marking does

/-- The objects when the target and its twins have their flags. -/
def flagTarget (s : MainState) (target : BlockId) : BlockStore :=
  (s.blocks.modify target (·.setFlag blockFailedValid)).modifyAll (liveTwins s target)
    (·.setFlag blockFailedValid)

theorem flagTarget_links (s : MainState) (target : BlockId)
    : SameLinks (flagTarget s target) s.blocks :=
  (SameLinks.modifyAll _ _ (setFlag_links blockFailedValid)).trans
    (.modify s.blocks target (setFlag_links blockFailedValid))

theorem flagTarget_self (s : MainState) (target : BlockId)
    : flagTarget s target target = (s.blocks target).setFlag blockFailedValid := by
  rw [flagTarget, BlockStore.modifyAll_other (fun twin => (mem_liveTwins twin).1 rfl),
    BlockStore.modify_self]

theorem flagTarget_other {target id : BlockId} (different : id ≠ target)
    (noTwin : id ∉ liveTwins s target) : flagTarget s target id = s.blocks id := by
  rw [flagTarget, BlockStore.modifyAll_other noTwin, BlockStore.modify_other _ _ different]

theorem parentFailed_flagTarget (tree : BlockTree s) {target id : BlockId}
    (mapped : target ∈ s.mapBlockIndex) (member : id ∈ s.mapBlockIndex)
    (noChild : (s.blocks id).pprev ≠ some target)
    : parentFailed (flagTarget s target) id = parentFailed s.blocks id := by
  refine parentFailed_congr (flagTarget_links s target) fun parent link => ?_
  refine flagTarget_other ?_ (liveTwins_unmapped tree mapped (tree.mapped id member parent link))
  rintro rfl
  exact noChild link

theorem processBlockMarkInvalid_eq (tree : BlockTree s) {target : BlockId}
    (mapped : target ∈ s.mapBlockIndex) (mallocOk : Bool)
    : processBlockMarkInvalid s target mallocOk
        = if parentFailed s.blocks target || !mallocOk then
            ({ s with blocks := flagTarget s target }, 0)
          else
            let swept := sweepFailedChild (flagTarget s target)
              (blocksAbove (flagTarget s target) s.mapBlockIndex target)
            ({ s with blocks := swept.1 }, swept.2) := by
  have sameParent := parentFailed_flagTarget tree mapped mapped (tree.notOwnParent mapped)
  have twins : liveTwins { s with
      blocks := s.blocks.modify target (·.setFlag blockFailedValid) } target
        = liveTwins s target :=
    liveTwins_congr (.modify s.blocks target (setFlag_links blockFailedValid)) target
  simp only [processBlockMarkInvalid, invalidateMarkLiveTwins, twins]
  rw [← flagTarget, processBlockPropagateFailedChild, sameParent]
  cases parentFailed s.blocks target with
  | true => rfl
  | false =>
    cases mallocOk with
    | true => rfl
    | false => rfl

theorem mem_blocksAbove {blocks : BlockStore} {map : List BlockId} {root id : BlockId}
    : id ∈ blocksAbove blocks map root
        ↔ id ∈ map ∧ (blocks root).nHeight < (blocks id).nHeight := by
  rw [blocksAbove, List.mem_insertionSort, List.mem_filter, decide_eq_true_eq]

theorem blocksAbove_sorted (blocks : BlockStore) (map : List BlockId) (root : BlockId)
    : (blocksAbove blocks map root).Pairwise
        fun a b => (blocks a).nHeight ≤ (blocks b).nHeight := by
  have total : Std.Total fun a b : BlockId => (blocks a).nHeight ≤ (blocks b).nHeight :=
    ⟨fun a b => le_total _ _⟩
  have trans : IsTrans BlockId fun a b => (blocks a).nHeight ≤ (blocks b).nHeight :=
    ⟨fun _ _ _ => le_trans⟩
  exact List.pairwise_insertionSort _ _

/-- Whether the sweep from a target marks a block, read off the statuses at its end. -/
def sweepMarks (s : MainState) (target : BlockId) (swept : BlockStore) (id : BlockId) : Bool :=
  id != target && (s.blocks target).nHeight < (s.blocks id).nHeight
    && !(s.blocks id).isFailed && parentFailed swept id

/-- What the statuses are after an invalidation that was not skipped. -/
structure Swept (s : MainState) (target : BlockId) (swept : BlockStore) (marked : Nat)
    : Prop where
  links : SameLinks swept s.blocks
  self : swept target = (s.blocks target).setFlag blockFailedValid
  others : ∀ id ∈ s.mapBlockIndex, id ≠ target → swept id
    = if sweepMarks s target swept id then (s.blocks id).setFlag blockFailedChild else s.blocks id
  unmapped : ∀ id, id ∉ s.mapBlockIndex → swept id = flagTarget s target id
  count : marked = s.mapBlockIndex.countP (sweepMarks s target swept)

theorem processBlockMarkInvalid_swept (tree : BlockTree s) {target : BlockId}
    (mapped : target ∈ s.mapBlockIndex) (free : parentFailed s.blocks target = false)
    : ∃ swept marked, processBlockMarkInvalid s target true = ({ s with blocks := swept }, marked)
        ∧ Swept s target swept marked := by
  have links := flagTarget_links s target
  have isAbove {id : BlockId} : id ∈ blocksAbove (flagTarget s target) s.mapBlockIndex target
      ↔ id ∈ s.mapBlockIndex ∧ (s.blocks target).nHeight < (s.blocks id).nHeight := by
    rw [mem_blocksAbove, links.nHeight, links.nHeight]
  have base : ∀ id ∈ s.mapBlockIndex, id ≠ target → flagTarget s target id = s.blocks id :=
    fun id member different => flagTarget_other different (liveTwins_unmapped tree mapped member)
  have nodup : (blocksAbove (flagTarget s target) s.mapBlockIndex target).Nodup :=
    (List.perm_insertionSort _ _).nodup_iff.mpr (tree.nodup.filter _)
  obtain ⟨members, count⟩ := sweepFailedChild_mem
    (blocksAbove_sorted (flagTarget s target) s.mapBlockIndex target) nodup (by
      intro id above parent link
      rw [links.pprev] at link
      rw [links.nHeight, links.nHeight]
      exact tree.ascends id (isAbove.mp above).1 parent link)
  rw [processBlockMarkInvalid_eq tree mapped, free]
  refine ⟨_, _, rfl, ?_⟩
  generalize isSwept : sweepFailedChild (flagTarget s target)
    (blocksAbove (flagTarget s target) s.mapBlockIndex target) = out at members count ⊢
  have outside : ∀ id, id ∉ blocksAbove (flagTarget s target) s.mapBlockIndex target →
      out.1 id = flagTarget s target id := by
    intro id other
    rw [← isSwept]
    exact sweepFailedChild_other other
  have notAbove : target ∉ blocksAbove (flagTarget s target) s.mapBlockIndex target :=
    fun above => lt_irrefl _ (isAbove.mp above).2
  refine { links := ?_, self := ?_, others := ?_, unmapped := ?_, count := ?_ }
  · rw [← isSwept]
    exact (sweepFailedChild_sameLinks _ _).trans links
  · rw [outside target notAbove, flagTarget_self]
  · intro id member different
    by_cases above : (s.blocks target).nHeight < (s.blocks id).nHeight
    · rw [members id (isAbove.mpr ⟨member, above⟩), base id member different, sweepMarks]
      simp [different, above]
    · rw [outside id (fun listed => above (isAbove.mp listed).2), base id member different,
        sweepMarks]
      simp [above]
  · intro id unmapped
    exact outside id fun listed => unmapped (isAbove.mp listed).1
  · rw [count, blocksAbove, (List.perm_insertionSort _ _).countP_eq, List.countP_filter]
    refine List.countP_congr fun id member => ?_
    rcases eq_or_ne id target with rfl | different
    · simp [sweepMarks]
    · rw [base id member different, sweepMarks, links.nHeight]
      simp only [different, bne_iff_ne, ne_eq, not_false_iff, Bool.and_eq_true, decide_eq_true_eq]
      tauto

-- Coverage

/-- Every mapped child of a failed block is failed. -/
def FailureClosed (map : List BlockId) (blocks : BlockStore) : Prop :=
  ∀ id ∈ map, parentFailed blocks id = true → (blocks id).isFailed = true

/-- The descendants of a target carry a failure flag, and nothing else but the target changed. -/
structure SubtreeCovered (s : MainState) (target : BlockId) (s' : MainState) : Prop where
  subtree : ∀ id ∈ s.mapBlockIndex, Descendant s.blocks id target →
    blockHasAnyFailure (s'.blocks id) = true
  outside : ∀ id, invalidateSameBlock (s.blocks id) (s.blocks target) = false →
    ¬Descendant s.blocks id target → s'.blocks id = s.blocks id

theorem parentFailed_of_link {blocks : BlockStore} {id parent : BlockId}
    (link : (blocks id).pprev = some parent)
    : parentFailed blocks id = (blocks parent).isFailed := by
  rw [parentFailed, link]

theorem link_of_parentFailed {blocks : BlockStore} {id : BlockId}
    (failed : parentFailed blocks id = true)
    : ∃ parent, (blocks id).pprev = some parent ∧ (blocks parent).isFailed = true := by
  rw [parentFailed] at failed
  split at failed
  · rename_i parent link
    exact ⟨parent, link, failed⟩
  · cases failed

theorem FailureClosed.descendant (tree : BlockTree s)
    (closed : FailureClosed s.mapBlockIndex s.blocks) {target id : BlockId}
    (failed : (s.blocks target).isFailed = true) {steps : Nat}
    (path : ParentSteps s.blocks target steps id) (member : id ∈ s.mapBlockIndex)
    : (s.blocks id).isFailed = true := by
  induction path with
  | here => exact failed
  | @up steps id parent link _ ih =>
    refine closed id member ?_
    rw [parentFailed_of_link link]
    exact ih (tree.mapped id member parent link)

variable {swept : BlockStore} {marked : Nat}

theorem Swept.child {target id parent : BlockId} (sweep : Swept s target swept marked)
    (member : id ∈ s.mapBlockIndex) (above : (s.blocks target).nHeight < (s.blocks id).nHeight)
    (link : (s.blocks id).pprev = some parent) (failed : (swept parent).isFailed = true)
    : (swept id).isFailed = true := by
  have different : id ≠ target := by
    rintro rfl
    exact lt_irrefl _ above
  have parentNow : parentFailed swept id = true := by
    rwa [parentFailed_of_link (by rw [sweep.links.pprev, link])]
  rw [sweep.others id member different]
  cases before : (s.blocks id).isFailed with
  | true => simp [sweepMarks, before]
  | false =>
    rw [if_pos (by simp [sweepMarks, different, above, before, parentNow])]
    exact BlockIndex.isFailed_setFlag (by decide) _

theorem Swept.descendant (tree : BlockTree s) {target id : BlockId}
    (sweep : Swept s target swept marked) {steps : Nat}
    (path : ParentSteps s.blocks target steps id) (member : id ∈ s.mapBlockIndex)
    : (swept id).isFailed = true := by
  induction path with
  | here =>
    rw [sweep.self]
    exact BlockIndex.isFailed_setFlag (by decide) _
  | @up steps id parent link below ih =>
    have mapped := tree.mapped id member parent link
    have low := (tree.pathHeight below mapped).1
    have step := tree.ascends id member parent link
    exact sweep.child member (by omega) link (ih mapped)

theorem Swept.outside (tree : BlockTree s) (closed : FailureClosed s.mapBlockIndex s.blocks)
    {target : BlockId} (sweep : Swept s target swept marked) {id : BlockId}
    (member : id ∈ s.mapBlockIndex) (different : id ≠ target)
    (apart : ¬Descendant s.blocks id target) : swept id = s.blocks id := by
  induction size : ((s.blocks id).nHeight - (s.blocks target).nHeight).toNat
    using Nat.strong_induction_on generalizing id with
  | _ size ih =>
    rw [sweep.others id member different]
    split
    · rename_i marks
      simp only [sweepMarks, Bool.and_eq_true, bne_iff_ne, ne_eq, decide_eq_true_eq,
        Bool.not_eq_true'] at marks
      obtain ⟨⟨⟨-, above⟩, free⟩, failedNow⟩ := marks
      obtain ⟨parent, link, failed⟩ := link_of_parentFailed failedNow
      rw [sweep.links.pprev] at link
      have step := tree.ascends id member parent link
      have notTarget : parent ≠ target := by
        rintro rfl
        exact apart ⟨0, .up link .here⟩
      have parentApart : ¬Descendant s.blocks parent target := by
        rintro ⟨steps, path⟩
        exact apart ⟨steps + 1, .up link path⟩
      have same := ih _ (by omega) (tree.mapped id member parent link) notTarget parentApart rfl
      rw [same] at failed
      have contradiction := closed id member (by rwa [parentFailed_of_link link])
      rw [free] at contradiction
      cases contradiction
    · rfl

theorem Swept.closed (tree : BlockTree s) (closed : FailureClosed s.mapBlockIndex s.blocks)
    {target : BlockId} (sweep : Swept s target swept marked)
    : FailureClosed s.mapBlockIndex swept := by
  intro id member failedNow
  obtain ⟨parent, link, failed⟩ := link_of_parentFailed failedNow
  rw [sweep.links.pprev] at link
  by_cases above : (s.blocks target).nHeight < (s.blocks id).nHeight
  · exact sweep.child member above link failed
  · rcases eq_or_ne id target with rfl | different
    · rw [sweep.self]
      exact BlockIndex.isFailed_setFlag (by decide) _
    · have step := tree.ascends id member parent link
      have low (other : BlockId) (mapped : other ∈ s.mapBlockIndex) (notTarget : other ≠ target)
          (below : ¬(s.blocks target).nHeight < (s.blocks other).nHeight)
          : swept other = s.blocks other := by
        rw [sweep.others other mapped notTarget, sweepMarks]
        simp [below]
      have parentLow := low parent (tree.mapped id member parent link) (by rintro rfl; omega)
        (by omega)
      rw [parentLow] at failed
      rw [low id member different above]
      exact closed id member (by rwa [parentFailed_of_link link])

theorem invalidateSameBlock_self (bi : BlockIndex) : invalidateSameBlock bi bi = true := by
  simp [invalidateSameBlock]

theorem flagTarget_outside {target id : BlockId}
    (apart : invalidateSameBlock (s.blocks id) (s.blocks target) = false)
    : flagTarget s target id = s.blocks id := by
  refine flagTarget_other ?_ ?_
  · rintro rfl
    rw [invalidateSameBlock_self] at apart
    cases apart
  · intro twin
    rw [(mem_liveTwins twin).2] at apart
    cases apart

theorem processBlockMarkInvalid_covers (tree : BlockTree s)
    (closed : FailureClosed s.mapBlockIndex s.blocks) {target : BlockId}
    (mapped : target ∈ s.mapBlockIndex)
    : SubtreeCovered s target (processBlockMarkInvalid s target true).1
        ∧ FailureClosed s.mapBlockIndex (processBlockMarkInvalid s target true).1.blocks := by
  cases parent : parentFailed s.blocks target with
  | true =>
    have failed := closed target mapped parent
    have base : ∀ id ∈ s.mapBlockIndex, id ≠ target → flagTarget s target id = s.blocks id :=
      fun id member different =>
        flagTarget_other different (liveTwins_unmapped tree mapped member)
    have stays : ∀ id ∈ s.mapBlockIndex, (s.blocks id).isFailed = true →
        (flagTarget s target id).isFailed = true := by
      intro id member before
      rcases eq_or_ne id target with rfl | different
      · rw [flagTarget_self]
        exact BlockIndex.isFailed_setFlag (by decide) _
      · rwa [base id member different]
    rw [processBlockMarkInvalid_eq tree mapped, parent]
    refine ⟨{ subtree := ?_, outside := ?_ }, ?_⟩
    · rintro id member ⟨steps, path⟩
      exact BlockIndex.anyFailure_of_isFailed
        (stays id member (closed.descendant tree failed path member))
    · intro id apart _
      exact flagTarget_outside apart
    · intro id member failedNow
      refine stays id member ?_
      by_cases child : (s.blocks id).pprev = some target
      · exact closed id member (by rwa [parentFailed_of_link child])
      · refine closed id member ?_
        rw [← parentFailed_flagTarget tree mapped member child]
        exact failedNow
  | false =>
    obtain ⟨swept, marked, same, sweep⟩ := processBlockMarkInvalid_swept tree mapped parent
    rw [same]
    refine ⟨{ subtree := ?_, outside := ?_ }, sweep.closed tree closed⟩
    · rintro id member ⟨steps, path⟩
      exact BlockIndex.anyFailure_of_isFailed (sweep.descendant tree path member)
    · intro id apart noDescendant
      by_cases member : id ∈ s.mapBlockIndex
      · refine sweep.outside tree closed member ?_ noDescendant
        rintro rfl
        rw [invalidateSameBlock_self] at apart
        cases apart
      · rw [show ({ s with blocks := swept } : MainState).blocks id = swept id from rfl,
          sweep.unmapped id member]
        exact flagTarget_outside apart

end Z23.Validation
