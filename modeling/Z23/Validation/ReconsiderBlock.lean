import Z23.Lib.Bytes
import Z23.Validation.InvalidateBlock

/-!
Reconsideration of a block: the failure flags of the target and of its descendants are cleared,
each descendant found by a walk of bounded length towards the target.
-/

namespace Z23.Validation

open Z23.Chain

-- Clearing

def maxPprevSteps : Nat := 200000

/-- The walk from a block `w` towards the target; `lastH` is the height of the block before. -/
def pprevReaches (blocks : BlockStore) (target : BlockId) : Nat → Option BlockId → Int → Bool
  | 0, _, _ => false
  | _ + 1, none, _ => false
  | steps + 1, some w, lastH =>
    if (blocks w).nHeight < (blocks target).nHeight then false
    else if lastH ≤ (blocks w).nHeight then false
    else if w = target then true
    else pprevReaches blocks target steps (blocks w).pprev (blocks w).nHeight

def invalidatePprevReachesTarget (blocks : BlockStore) (p target : BlockId) : Bool :=
  pprevReaches blocks target maxPprevSteps (blocks p).pprev (blocks p).nHeight

/-- Whether the clearing pass takes the failure flags off a block. -/
def clearsFailure (blocks : BlockStore) (target id : BlockId) : Bool :=
  id != target && blockHasAnyFailure (blocks id)
    && (blocks target).nHeight < (blocks id).nHeight
    && invalidatePprevReachesTarget blocks id target

def invalidateClearFailedDescendants (target : BlockId) : BlockStore → List BlockId →
    BlockStore × Nat
  | blocks, [] => (blocks, 0)
  | blocks, id :: rest =>
    let clears := clearsFailure blocks target id
    let out := invalidateClearFailedDescendants target
      (if clears then blocks.modify id BlockIndex.clearFailure else blocks) rest
    (out.1, out.2 + if clears then 1 else 0)

def invalidateClearLiveTwins (s : MainState) (target : BlockId) : MainState :=
  { s with blocks := s.blocks.modifyAll (liveTwins s target) BlockIndex.clearFailure }

/-- The state and the number of blocks that were cleared. -/
def processBlockClearInvalid (s : MainState) (target : BlockId) : MainState × Nat :=
  let own := if blockHasAnyFailure (s.blocks target) then 1 else 0
  let s :=
    if blockHasAnyFailure (s.blocks target) then
      { s with blocks := s.blocks.modify target BlockIndex.clearFailure }
    else s
  let s := invalidateClearLiveTwins s target
  let (blocks, cleared) := invalidateClearFailedDescendants target s.blocks s.mapBlockIndex
  ({ s with blocks }, own + cleared)

-- What clearing does

theorem pprevReaches_congr {a b : BlockStore} (same : SameLinks a b) (target : BlockId)
    (steps : Nat) (w : Option BlockId) (lastH : Int)
    : pprevReaches a target steps w lastH = pprevReaches b target steps w lastH := by
  induction steps generalizing w lastH with
  | zero => cases w <;> rfl
  | succ steps ih =>
    cases w with
    | none => rfl
    | some w => simp only [pprevReaches, same.nHeight, same.pprev, ih]

theorem pprevReaches_iff {s : MainState} (tree : BlockTree s) {target : BlockId} (steps : Nat)
    {w : BlockId} {lastH : Int} (member : w ∈ s.mapBlockIndex)
    (below : (s.blocks w).nHeight < lastH)
    : pprevReaches s.blocks target steps (some w) lastH = true
        ↔ ∃ links < steps, ParentSteps s.blocks target links w := by
  induction steps generalizing w lastH with
  | zero => simp [pprevReaches]
  | succ steps ih =>
    rw [pprevReaches]
    by_cases low : (s.blocks w).nHeight < (s.blocks target).nHeight
    · rw [if_pos low]
      refine ⟨by simp, ?_⟩
      rintro ⟨links, -, path⟩
      have above := (tree.pathHeight path member).1
      omega
    rw [if_neg low, if_neg (by omega)]
    by_cases found : w = target
    · rw [if_pos found]
      exact ⟨fun _ => ⟨0, by omega, found ▸ .here⟩, fun _ => rfl⟩
    rw [if_neg found]
    cases link : (s.blocks w).pprev with
    | none =>
      have stuck : pprevReaches s.blocks target steps none (s.blocks w).nHeight = false := by
        cases steps <;> rfl
      rw [stuck]
      refine ⟨by simp, ?_⟩
      rintro ⟨links, -, path⟩
      cases path with
      | here => exact absurd rfl found
      | up other _ =>
        rw [link] at other
        cases other
    | some parent =>
      rw [ih (tree.mapped w member parent link) (tree.ascends w member parent link)]
      constructor
      · rintro ⟨links, few, path⟩
        exact ⟨links + 1, by omega, .up link path⟩
      · rintro ⟨links, few, path⟩
        cases path with
        | here => exact absurd rfl found
        | @up links _ _ other path =>
          obtain rfl := Option.some.inj (link.symm.trans other)
          exact ⟨links, by omega, path⟩

theorem invalidatePprevReachesTarget_iff {s : MainState} (tree : BlockTree s)
    {id target : BlockId} (member : id ∈ s.mapBlockIndex)
    : invalidatePprevReachesTarget s.blocks id target = true
        ↔ ∃ links < maxPprevSteps, ParentSteps s.blocks target (links + 1) id := by
  rw [invalidatePprevReachesTarget]
  cases link : (s.blocks id).pprev with
  | none =>
    refine ⟨by simp [maxPprevSteps, pprevReaches], ?_⟩
    rintro ⟨links, -, path⟩
    cases path with
    | up other _ =>
      rw [link] at other
      cases other
  | some parent =>
    rw [pprevReaches_iff tree maxPprevSteps (tree.mapped id member parent link)
      (tree.ascends id member parent link)]
    constructor
    · rintro ⟨links, few, path⟩
      exact ⟨links, few, .up link path⟩
    · rintro ⟨links, few, path⟩
      cases path with
      | up other path =>
        obtain rfl := Option.some.inj (link.symm.trans other)
        exact ⟨links, few, path⟩

theorem invalidatePprevReachesTarget_congr {a b : BlockStore} (same : SameLinks a b)
    (id target : BlockId)
    : invalidatePprevReachesTarget a id target = invalidatePprevReachesTarget b id target := by
  rw [invalidatePprevReachesTarget, invalidatePprevReachesTarget, same.pprev, same.nHeight,
    pprevReaches_congr same]

theorem clearsFailure_congr {a b : BlockStore} (same : SameLinks a b) {target id : BlockId}
    (sameStatus : a id = b id) : clearsFailure a target id = clearsFailure b target id := by
  rw [clearsFailure, clearsFailure, sameStatus, same.nHeight,
    invalidatePprevReachesTarget_congr same]

theorem invalidateClearFailedDescendants_spec {target : BlockId} {blocks : BlockStore}
    {ids : List BlockId} (nodup : ids.Nodup)
    : (∀ id, (invalidateClearFailedDescendants target blocks ids).1 id
          = if id ∈ ids ∧ clearsFailure blocks target id = true then (blocks id).clearFailure
            else blocks id)
        ∧ (invalidateClearFailedDescendants target blocks ids).2
          = ids.countP (clearsFailure blocks target) := by
  induction ids generalizing blocks with
  | nil => simp [invalidateClearFailedDescendants]
  | cons first rest ih =>
    obtain ⟨fresh, nodup⟩ := List.nodup_cons.mp nodup
    generalize isNext : (if clearsFailure blocks target first
      then blocks.modify first BlockIndex.clearFailure else blocks) = next
    have links : SameLinks next blocks := by
      rw [← isNext]
      split
      · exact .modify blocks first clearFailure_links
      · exact .refl blocks
    have others : ∀ id, id ≠ first → next id = blocks id := by
      intro id different
      rw [← isNext]
      split
      · exact blocks.modify_other _ different
      · rfl
    obtain ⟨members, count⟩ := @ih next nodup
    constructor
    · intro id
      rw [invalidateClearFailedDescendants, isNext]
      simp only [members id]
      rcases eq_or_ne id first with rfl | different
      · rw [if_neg (fun both => fresh both.1), ← isNext]
        by_cases clears : clearsFailure blocks target id = true
        · simp [clears]
        · simp [clears]
      · rw [others id different, clearsFailure_congr links (others id different)]
        simp [different]
    · rw [invalidateClearFailedDescendants, isNext, List.countP_cons]
      simp only [count]
      congr 1
      refine List.countP_congr fun id member => ?_
      rw [clearsFailure_congr links (others id fun same => fresh (same ▸ member))]

/-- The objects when the target and its twins have lost their flags. -/
def unflagTarget (s : MainState) (target : BlockId) : BlockStore :=
  (s.blocks.modify target BlockIndex.clearFailure).modifyAll (liveTwins s target)
    BlockIndex.clearFailure

theorem unflagTarget_links (s : MainState) (target : BlockId)
    : SameLinks (unflagTarget s target) s.blocks :=
  (SameLinks.modifyAll _ _ clearFailure_links).trans (.modify s.blocks target clearFailure_links)

theorem unflagTarget_self (s : MainState) (target : BlockId)
    : unflagTarget s target target = (s.blocks target).clearFailure := by
  rw [unflagTarget, BlockStore.modifyAll_other (fun twin => (mem_liveTwins twin).1 rfl),
    BlockStore.modify_self]

theorem unflagTarget_other {s : MainState} {target id : BlockId} (different : id ≠ target)
    (noTwin : id ∉ liveTwins s target) : unflagTarget s target id = s.blocks id := by
  rw [unflagTarget, BlockStore.modifyAll_other noTwin, BlockStore.modify_other _ _ different]

theorem processBlockClearInvalid_eq (s : MainState) (target : BlockId)
    : processBlockClearInvalid s target
        = let out :=
            invalidateClearFailedDescendants target (unflagTarget s target) s.mapBlockIndex
          ({ s with blocks := out.1 },
            (if blockHasAnyFailure (s.blocks target) then 1 else 0) + out.2) := by
  have idle : blockHasAnyFailure (s.blocks target) = false →
      s.blocks.modify target BlockIndex.clearFailure = s.blocks := by
    intro none
    funext id
    rcases eq_or_ne id target with rfl | different
    · rw [BlockStore.modify_self, BlockIndex.clearFailure_of_none none]
    · rw [BlockStore.modify_other _ _ different]
  have twins : liveTwins { s with blocks := s.blocks.modify target BlockIndex.clearFailure } target
      = liveTwins s target :=
    liveTwins_congr (.modify s.blocks target clearFailure_links) target
  simp only [processBlockClearInvalid, invalidateClearLiveTwins, unflagTarget]
  cases failed : blockHasAnyFailure (s.blocks target) with
  | true => simp only [if_true, twins]
  | false => simp only [Bool.false_eq_true, if_false, idle failed]

/-- What the statuses are after a reconsideration. -/
structure Cleared (s : MainState) (target : BlockId) (blocks : BlockStore) (cleared : Nat)
    : Prop where
  links : SameLinks blocks s.blocks
  self : blocks target = (s.blocks target).clearFailure
  others : ∀ id ∈ s.mapBlockIndex, id ≠ target → blocks id
    = if clearsFailure s.blocks target id then (s.blocks id).clearFailure else s.blocks id
  unmapped : ∀ id, id ∉ s.mapBlockIndex → blocks id = unflagTarget s target id
  count : cleared = (if blockHasAnyFailure (s.blocks target) then 1 else 0)
    + s.mapBlockIndex.countP (clearsFailure s.blocks target)

theorem processBlockClearInvalid_cleared {s : MainState} (tree : BlockTree s) {target : BlockId}
    (mapped : target ∈ s.mapBlockIndex)
    : ∃ blocks cleared, processBlockClearInvalid s target = ({ s with blocks }, cleared)
        ∧ Cleared s target blocks cleared := by
  have links := unflagTarget_links s target
  have base : ∀ id ∈ s.mapBlockIndex, id ≠ target → unflagTarget s target id = s.blocks id :=
    fun id member different => unflagTarget_other different (liveTwins_unmapped tree mapped member)
  have never (blocks : BlockStore) : clearsFailure blocks target target = false := by
    simp [clearsFailure]
  have sameClears : ∀ id ∈ s.mapBlockIndex,
      clearsFailure (unflagTarget s target) target id = clearsFailure s.blocks target id := by
    intro id member
    rcases eq_or_ne id target with rfl | different
    · rw [never, never]
    · exact clearsFailure_congr links (base id member different)
  obtain ⟨members, count⟩ := @invalidateClearFailedDescendants_spec target
    (unflagTarget s target) s.mapBlockIndex tree.nodup
  refine ⟨_, _, processBlockClearInvalid_eq s target, ?_⟩
  refine { links := ?_, self := ?_, others := ?_, unmapped := ?_, count := ?_ }
  · intro id
    rw [members id]
    split
    · rw [clearFailure_links, links id]
    · exact links id
  · rw [members target, never, unflagTarget_self]
    simp
  · intro id member different
    rw [members id, sameClears id member, base id member different]
    simp [member]
  · intro id unmapped
    rw [members id]
    simp [unmapped]
  · rw [count]
    congr 1
    exact List.countP_congr fun id member => by rw [sameClears id member]

theorem Cleared.closed {s : MainState} (tree : BlockTree s)
    (closed : FailureClosed s.mapBlockIndex s.blocks) {target : BlockId}
    (mapped : target ∈ s.mapBlockIndex) (free : parentFailed s.blocks target = false)
    {blocks : BlockStore} {cleared : Nat} (clear : Cleared s target blocks cleared)
    : FailureClosed s.mapBlockIndex blocks := by
  have unfailed (bi : BlockIndex) : bi.clearFailure.isFailed = false := by
    cases failed : bi.clearFailure.isFailed with
    | false => rfl
    | true =>
      have any := BlockIndex.anyFailure_of_isFailed failed
      rw [BlockIndex.anyFailure_clearFailure] at any
      cases any
  have kept : ∀ id ∈ s.mapBlockIndex, (blocks id).isFailed = true →
      blocks id = s.blocks id ∧ id ≠ target ∧ clearsFailure s.blocks target id = false := by
    intro id member failed
    rcases eq_or_ne id target with rfl | different
    · rw [clear.self, unfailed] at failed
      cases failed
    · have now := clear.others id member different
      split at now
      · rw [now, unfailed] at failed
        cases failed
      · rename_i stays
        exact ⟨now, different, by simpa using stays⟩
  intro id member failedNow
  obtain ⟨parent, link, failed⟩ := link_of_parentFailed failedNow
  rw [clear.links.pprev] at link
  have parentMapped := tree.mapped id member parent link
  obtain ⟨sameParent, notTarget, stays⟩ := kept parent parentMapped failed
  rw [sameParent] at failed
  have before := closed id member (by rwa [parentFailed_of_link link])
  have different : id ≠ target := by
    rintro rfl
    rw [parentFailed_of_link link, failed] at free
    cases free
  rw [clear.others id member different]
  split
  · rename_i clears
    simp only [clearsFailure, Bool.and_eq_true] at clears
    obtain ⟨links, few, path⟩ := (invalidatePprevReachesTarget_iff tree member).mp clears.2
    cases path with
    | up other path =>
      obtain rfl := Option.some.inj (link.symm.trans other)
      cases path with
      | here => exact absurd rfl notTarget
      | @up links _ _ next path =>
        have reaches := (invalidatePprevReachesTarget_iff tree parentMapped).mpr
          ⟨links, by omega, .up next path⟩
        have low := (tree.pathHeight (.up next path) parentMapped).1
        have above : (s.blocks target).nHeight < (s.blocks parent).nHeight := by
          push_cast at low
          omega
        simp [clearsFailure, notTarget, above, reaches,
          BlockIndex.anyFailure_of_isFailed failed] at stays
  · exact before

-- Runs

inductive InvalidateOp where
  | mark (target : BlockId)
  | clear (target : BlockId)
deriving DecidableEq, Repr

def InvalidateOp.target : InvalidateOp → BlockId
  | .mark target => target
  | .clear target => target

def stepInvalidate (s : MainState) : InvalidateOp → MainState
  | .mark target => (processBlockMarkInvalid s target true).1
  | .clear target => (processBlockClearInvalid s target).1

/-- Right after every invalidation of a run the subtree is covered. -/
def RunCovered : MainState → List InvalidateOp → Prop
  | _, [] => True
  | s, op :: ops =>
    (∀ target, op = .mark target → SubtreeCovered s target (stepInvalidate s op))
      ∧ RunCovered (stepInvalidate s op) ops

/-- No step of a run reconsiders a block whose parent is failed at that moment. -/
def NoClearUnderFailed : MainState → List InvalidateOp → Prop
  | _, [] => True
  | s, op :: ops =>
    (∀ target, op = .clear target → parentFailed s.blocks target = false)
      ∧ NoClearUnderFailed (stepInvalidate s op) ops

theorem stepInvalidate_closed {s : MainState} (tree : BlockTree s)
    (closed : FailureClosed s.mapBlockIndex s.blocks) {op : InvalidateOp}
    (mapped : op.target ∈ s.mapBlockIndex)
    (free : ∀ target, op = .clear target → parentFailed s.blocks target = false)
    : ∃ blocks, stepInvalidate s op = { s with blocks } ∧ SameLinks blocks s.blocks
        ∧ FailureClosed s.mapBlockIndex blocks := by
  cases op with
  | mark target =>
    have mapped : target ∈ s.mapBlockIndex := mapped
    have closedNext := (processBlockMarkInvalid_covers tree closed mapped).2
    rw [stepInvalidate]
    rw [processBlockMarkInvalid_eq tree mapped] at closedNext ⊢
    split
    · rename_i skipped
      rw [if_pos skipped] at closedNext
      exact ⟨_, rfl, flagTarget_links s target, closedNext⟩
    · rename_i walked
      rw [if_neg walked] at closedNext
      exact ⟨_, rfl, (sweepFailedChild_sameLinks _ _).trans (flagTarget_links s target), closedNext⟩
  | clear target =>
    have mapped : target ∈ s.mapBlockIndex := mapped
    obtain ⟨blocks, cleared, same, clear⟩ := processBlockClearInvalid_cleared tree mapped
    rw [stepInvalidate, same]
    exact ⟨blocks, rfl, clear.links, clear.closed tree closed mapped (free target rfl)⟩

/--
Invalidation covers the subtree, and nothing else, after any mix of invalidations and
reconsiderations in which no block is reconsidered while its parent is failed, from a map where
every child of a failed block is failed.
-/
theorem invalidations_cover {s : MainState} (tree : BlockTree s)
    (closed : FailureClosed s.mapBlockIndex s.blocks) {ops : List InvalidateOp}
    (mapped : ∀ op ∈ ops, op.target ∈ s.mapBlockIndex) (orderly : NoClearUnderFailed s ops)
    : RunCovered s ops := by
  induction ops generalizing s with
  | nil => trivial
  | cons op ops ih =>
    obtain ⟨free, orderly⟩ := orderly
    have here := mapped op List.mem_cons_self
    obtain ⟨blocks, same, links, closedNext⟩ := stepInvalidate_closed tree closed here free
    refine ⟨?_, ?_⟩
    · rintro target rfl
      exact (processBlockMarkInvalid_covers tree closed here).1
    · rw [same] at orderly ⊢
      exact ih (tree.sameLinks links) closedNext
        (List.forall_mem_cons.mp mapped).2 orderly

/-- A chain of blocks without failures, each one's address its height. -/
def plainChain (height : Nat) : MainState where
  blocks id :=
    { hashBlock := Uint256.ofNatLE id
      pprev := if id = 0 then none else some (id - 1)
      nHeight := id }
  mapBlockIndex := List.range (height + 1)
  chainActive := ⟨[], none⟩
  pindexBestHeader := none

theorem plainChain_tree {height : Nat} (short : height < 256 ^ 32)
    : BlockTree (plainChain height) where
  nodup := List.nodup_range
  mapped := by
    intro id member parent link
    simp only [plainChain, List.mem_range] at member link ⊢
    split at link
    · cases link
    · cases link
      omega
  ascends := by
    intro id member parent link
    simp only [plainChain] at link ⊢
    split at link
    · cases link
    · rename_i positive
      cases link
      exact Int.ofNat_lt.mpr (Nat.sub_one_lt positive)
  oneEntry := by
    intro a aMember b bMember same
    simp only [plainChain, List.mem_range] at aMember bMember same
    have values := congrArg (fun hash => Lib.Bytes.natLE hash.data) same
    simp only [Uint256.ofNatLE] at values
    rwa [Lib.Bytes.natLE_bytesLE (by omega), Lib.Bytes.natLE_bytesLE (by omega)] at values

theorem plainChain_unfailed (height : Nat) (id : BlockId)
    : blockHasAnyFailure ((plainChain height).blocks id) = false := by
  simp [plainChain, blockHasAnyFailure]

theorem plainChain_closed (height : Nat)
    : FailureClosed (plainChain height).mapBlockIndex (plainChain height).blocks := by
  intro id _ failed
  obtain ⟨parent, -, absurd⟩ := link_of_parentFailed failed
  have any := BlockIndex.anyFailure_of_isFailed absurd
  rw [plainChain_unfailed] at any
  cases any

theorem invalidations_cover_plain
    : RunCovered (plainChain 3) [.mark 2, .clear 2, .mark 1] := by
  refine invalidations_cover (plainChain_tree (by decide)) (plainChain_closed 3) (by decide) ?_
  refine ⟨by simp, ?_, by simp, trivial⟩
  rintro target same
  cases same
  decide

/--
Invalidating block one, reconsidering its child and invalidating the child again leaves the
grandchild without a failure flag.
-/
theorem invalidation_misses_grandchild
    : ¬RunCovered (plainChain 3) [.mark 1, .clear 2, .mark 2] := by
  rintro ⟨-, -, covered, -⟩
  have flagged := (covered 2 rfl).subtree 3 (by decide) ⟨0, .up rfl .here⟩
  revert flagged
  decide

-- Undoing

/-- Reconsidering a block after invalidating it restores all statuses, and the counts agree. -/
def Undone (s : MainState) (target : BlockId) (mallocOk : Bool) : Prop :=
  let marked := processBlockMarkInvalid s target mallocOk
  let cleared := processBlockClearInvalid marked.1 target
  cleared.1.blocks = s.blocks ∧ cleared.2 = marked.2 + 1

/-- Every mapped block over the target is within the steps of the clearing walk. -/
def WithinReach (s : MainState) (target : BlockId) : Prop :=
  ∀ id ∈ s.mapBlockIndex, ∀ links, ParentSteps s.blocks target links id → links ≤ maxPprevSteps

theorem Cleared.restores {s : MainState} (clean : ∀ id, blockHasAnyFailure (s.blocks id) = false)
    {target : BlockId} {marked blocks : BlockStore} {cleared : Nat}
    (links : SameLinks marked s.blocks)
    (self : marked target = (s.blocks target).setFlag blockFailedValid)
    (unmapped : ∀ id, id ∉ s.mapBlockIndex → marked id = flagTarget s target id)
    (clear : Cleared { s with blocks := marked } target blocks cleared)
    : blocks target = s.blocks target
        ∧ ∀ id, id ∉ s.mapBlockIndex → blocks id = s.blocks id := by
  have unset : blockFailedValid &&& ~~~blockFailedAnyMask = 0 := by decide
  have takesBack : ∀ id, (flagTarget s target id).clearFailure = s.blocks id := by
    intro id
    rw [flagTarget, BlockStore.clearFailure_modifyAll unset, BlockStore.clearFailure_modify unset,
      BlockIndex.clearFailure_of_none (clean id)]
  have target_back : blocks target = s.blocks target := by
    have cleared := clear.self
    simp only [self] at cleared
    rw [cleared, BlockIndex.clearFailure_setFlag unset,
      BlockIndex.clearFailure_of_none (clean target)]
  refine ⟨target_back, ?_⟩
  intro id outside
  rcases eq_or_ne id target with rfl | different
  · exact target_back
  · rw [clear.unmapped id outside, unflagTarget, BlockStore.modifyAll_clearFailure,
      BlockStore.modify_other _ _ different, liveTwins_congr links]
    simp only [unmapped id outside]
    split
    · exact takesBack id
    · rename_i noTwin
      exact flagTarget_other different noTwin

theorem noFailure_closed {s : MainState} (clean : ∀ id, blockHasAnyFailure (s.blocks id) = false)
    : FailureClosed s.mapBlockIndex s.blocks ∧ ∀ id, (s.blocks id).isFailed = false
        ∧ parentFailed s.blocks id = false := by
  have unfailed : ∀ id, (s.blocks id).isFailed = false := by
    intro id
    cases failed : (s.blocks id).isFailed with
    | false => rfl
    | true =>
      have any := BlockIndex.anyFailure_of_isFailed failed
      rw [clean id] at any
      cases any
  have free : ∀ id, parentFailed s.blocks id = false := by
    intro id
    rw [parentFailed]
    split
    · exact unfailed _
    · rfl
  refine ⟨?_, fun id => ⟨unfailed id, free id⟩⟩
  intro id _ failed
  rw [free id] at failed
  cases failed

theorem Swept.marks_iff {s : MainState} (tree : BlockTree s)
    (clean : ∀ id, blockHasAnyFailure (s.blocks id) = false) {target : BlockId}
    {swept : BlockStore} {marked : Nat} (sweep : Swept s target swept marked)
    {id : BlockId} (member : id ∈ s.mapBlockIndex)
    : sweepMarks s target swept id = true ↔ Descendant s.blocks id target := by
  obtain ⟨closed, unfailed⟩ := noFailure_closed clean
  constructor
  · intro marks
    by_contra apart
    have different : id ≠ target := by
      rintro rfl
      simp [sweepMarks] at marks
    have same := sweep.outside tree closed member different apart
    rw [sweep.others id member different, if_pos marks] at same
    have failed :=
      BlockIndex.isFailed_setFlag (by decide : blockFailedChild &&& blockFailedMask ≠ 0)
      (s.blocks id)
    rw [same, (unfailed id).1] at failed
    cases failed
  · rintro ⟨steps, path⟩
    have high := (tree.pathHeight path member).1
    have different : id ≠ target := by
      rintro rfl
      push_cast at high
      omega
    have above : (s.blocks target).nHeight < (s.blocks id).nHeight := by
      push_cast at high
      omega
    cases path with
    | @up _ _ parent link below =>
      have failed := sweep.descendant tree below (tree.mapped id member _ link)
      have parentNow : parentFailed swept id = true := by
        rwa [parentFailed_of_link (by rw [sweep.links.pprev, link])]
      simp [sweepMarks, different, above, (unfailed id).1, parentNow]

theorem undone_of_mallocFailed {s : MainState} (tree : BlockTree s)
    (clean : ∀ id, blockHasAnyFailure (s.blocks id) = false) {target : BlockId}
    (mapped : target ∈ s.mapBlockIndex) : Undone s target false := by
  have links := flagTarget_links s target
  obtain ⟨blocks, cleared, same, clear⟩ :=
    processBlockClearInvalid_cleared (tree.sameLinks links) mapped
  obtain ⟨self, unmapped⟩ := clear.restores clean links (flagTarget_self s target)
    fun _ _ => rfl
  have unmarked : ∀ id ∈ s.mapBlockIndex, id ≠ target → flagTarget s target id = s.blocks id :=
    fun id member different => flagTarget_other different (liveTwins_unmapped tree mapped member)
  have idle : ∀ id ∈ s.mapBlockIndex, clearsFailure (flagTarget s target) target id = false := by
    intro id member
    rcases eq_or_ne id target with rfl | different
    · simp [clearsFailure]
    · rw [clearsFailure, unmarked id member different, clean id]
      simp
  have failedTarget : blockHasAnyFailure (flagTarget s target target) = true := by
    rw [flagTarget_self]
    exact BlockIndex.anyFailure_of_isFailed (BlockIndex.isFailed_setFlag (by decide) _)
  rw [Undone, processBlockMarkInvalid_eq tree mapped, if_pos (by simp)]
  simp only [same]
  constructor
  · funext id
    by_cases member : id ∈ s.mapBlockIndex
    · rcases eq_or_ne id target with rfl | different
      · exact self
      · have now := clear.others id member different
        simp only [idle id member] at now
        exact now.trans (unmarked id member different)
    · exact unmapped id member
  · have none : s.mapBlockIndex.countP (clearsFailure (flagTarget s target) target) = 0 :=
      List.countP_eq_zero.mpr fun id member => by simp [idle id member]
    have count := clear.count
    simp only [failedTarget, none] at count
    exact count

theorem undone_iff_withinReach {s : MainState} (tree : BlockTree s)
    (clean : ∀ id, blockHasAnyFailure (s.blocks id) = false) {target : BlockId}
    (mapped : target ∈ s.mapBlockIndex) : Undone s target true ↔ WithinReach s target := by
  obtain ⟨closed, unfailed⟩ := noFailure_closed clean
  obtain ⟨swept, marked, sameMark, sweep⟩ :=
    processBlockMarkInvalid_swept tree mapped (unfailed target).2
  obtain ⟨blocks, cleared, sameClear, clear⟩ :=
    processBlockClearInvalid_cleared (tree.sameLinks sweep.links) mapped
  obtain ⟨self, unmapped⟩ := clear.restores clean sweep.links sweep.self sweep.unmapped
  have clearsWhen : ∀ id ∈ s.mapBlockIndex, clearsFailure swept target id = true
      ↔ sweepMarks s target swept id = true
        ∧ ∃ links < maxPprevSteps, ParentSteps s.blocks target (links + 1) id := by
    intro id member
    rw [← invalidatePprevReachesTarget_iff tree member, clearsFailure,
      invalidatePprevReachesTarget_congr sweep.links, sweep.links.nHeight, sweep.links.nHeight]
    cases marks : sweepMarks s target swept id with
    | true =>
      have different : id ≠ target := by
        rintro rfl
        simp [sweepMarks] at marks
      have above : (s.blocks target).nHeight < (s.blocks id).nHeight := by
        simp only [sweepMarks, Bool.and_eq_true, decide_eq_true_eq] at marks
        exact marks.1.1.2
      have failed : blockHasAnyFailure (swept id) = true := by
        rw [sweep.others id member different, if_pos marks]
        exact BlockIndex.anyFailure_of_isFailed (BlockIndex.isFailed_setFlag (by decide) _)
      simp [different, above, failed]
    | false =>
      rcases eq_or_ne id target with rfl | different
      · simp
      · rw [sweep.others id member different, marks]
        simp [clean id]
  have restored : ∀ id ∈ s.mapBlockIndex, blocks id = s.blocks id
      ↔ (sweepMarks s target swept id = true → clearsFailure swept target id = true) := by
    intro id member
    rcases eq_or_ne id target with rfl | different
    · simp [self, sweepMarks]
    have now : blocks id = if clearsFailure swept target id then (swept id).clearFailure
        else swept id := clear.others id member different
    have marked := sweep.others id member different
    cases marks : sweepMarks s target swept id with
    | true =>
      rw [if_pos marks] at marked
      rw [now, marked]
      cases clears : clearsFailure swept target id with
      | true =>
        simp [BlockIndex.clearFailure_setFlag (by decide : blockFailedChild
          &&& ~~~blockFailedAnyMask = 0), BlockIndex.clearFailure_of_none (clean id)]
      | false =>
        have failed := BlockIndex.anyFailure_of_isFailed (BlockIndex.isFailed_setFlag
          (by decide : blockFailedChild &&& blockFailedMask ≠ 0) (s.blocks id))
        have changed : (s.blocks id).setFlag blockFailedChild ≠ s.blocks id := by
          intro same
          rw [same, clean id] at failed
          cases failed
        simp [changed]
    | false =>
      rw [marks] at marked
      have idle : clearsFailure swept target id = false := by
        simpa [marks] using clearsWhen id member
      simp [now, idle, marked]
  have failedTarget : blockHasAnyFailure (swept target) = true := by
    rw [sweep.self]
    exact BlockIndex.anyFailure_of_isFailed (BlockIndex.isFailed_setFlag (by decide) _)
  have count : cleared = 1 + s.mapBlockIndex.countP (clearsFailure swept target) := by
    have counted := clear.count
    simpa only [failedTarget, if_true] using counted
  rw [Undone, sameMark]
  simp only [sameClear]
  constructor
  · rintro ⟨same, -⟩ id member links path
    rcases Nat.eq_zero_or_pos links with rfl | positive
    · exact Nat.zero_le _
    · obtain ⟨below, rfl⟩ : ∃ below, links = below + 1 := ⟨links - 1, by omega⟩
      have marks := (sweep.marks_iff tree clean member).mpr ⟨below, path⟩
      have clears := (restored id member).mp (by rw [same]) marks
      obtain ⟨-, reached, few, other⟩ := (clearsWhen id member).mp clears
      have equal := tree.pathUnique path other member
      omega
  · intro reach
    have all : ∀ id ∈ s.mapBlockIndex, sweepMarks s target swept id = true →
        clearsFailure swept target id = true := by
      intro id member marks
      obtain ⟨links, path⟩ := (sweep.marks_iff tree clean member).mp marks
      exact (clearsWhen id member).mpr ⟨marks, links, reach id member (links + 1) path, path⟩
    constructor
    · funext id
      by_cases member : id ∈ s.mapBlockIndex
      · exact (restored id member).mpr (all id member)
      · exact unmapped id member
    · rw [count, sweep.count, Nat.add_comm]
      congr 1
      refine List.countP_congr fun id member => ⟨?_, all id member⟩
      exact fun clears => ((clearsWhen id member).mp clears).1

/--
Reconsideration undoes invalidation exactly when the sweep could not run or every descendant of
the block is within the steps of the clearing walk.
-/
theorem reconsider_undoes_invalidate_iff {s : MainState} (tree : BlockTree s)
    (clean : ∀ id, blockHasAnyFailure (s.blocks id) = false) {target : BlockId}
    (mapped : target ∈ s.mapBlockIndex) (mallocOk : Bool)
    : Undone s target mallocOk ↔ mallocOk = false ∨ WithinReach s target := by
  cases mallocOk with
  | false => simp [undone_of_mallocFailed tree clean mapped]
  | true => simp [undone_iff_withinReach tree clean mapped]

theorem reconsider_undoes_invalidate_plain : Undone (plainChain 3) 1 true := by
  have tree := plainChain_tree (by decide : 3 < 256 ^ 32)
  refine (reconsider_undoes_invalidate_iff tree (plainChain_unfailed 3) (by decide) true).mpr
    (.inr ?_)
  intro id member links path
  have low := List.mem_range.mp member
  have high := (tree.pathHeight path member).1
  simp only [plainChain] at high
  rw [maxPprevSteps]
  omega

theorem plainChain_steps (height start : Nat) {steps id : Nat} (high : id = start + steps)
    : ParentSteps (plainChain height).blocks start steps id := by
  induction steps generalizing id with
  | zero =>
    subst high
    exact .here
  | succ steps ih =>
    subst high
    exact .up (by simp [plainChain]) (ih rfl)

theorem plainChain_mapped {height id : Nat} (low : id < height + 1)
    : id ∈ (plainChain height).mapBlockIndex :=
  List.mem_range.mpr low

/-- On a chain with 200001 blocks above block one, the topmost block keeps its failure flag. -/
theorem reconsider_misses_deep_block : ¬Undone (plainChain 200002) 1 true := by
  rw [undone_iff_withinReach (plainChain_tree (by norm_num)) (plainChain_unfailed _)
    (plainChain_mapped (by omega))]
  intro reach
  have tooFar := reach 200002 (plainChain_mapped (by omega)) 200001
    (plainChain_steps 200002 1 (by omega))
  rw [maxPprevSteps] at tooFar
  omega

end Z23.Validation
