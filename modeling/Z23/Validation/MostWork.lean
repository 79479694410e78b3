import Mathlib.Data.Set.Finite.Lemmas
import Mathlib.Tactic.FinCases
import Z23.Chain.BlockIndex

/-!
The most-work selector: a scan of the block map that keeps a running best block, starting from the
active tip. A candidate's ancestry is looked at down to the height of the running best only.
-/

namespace Z23.Validation

open Z23.Chain

-- The selector

structure MostWorkSelectionStats where
  skippedNoChaintx : Nat := 0
  skippedFailed : Nat := 0
  skippedInvalid : Nat := 0
  skippedBadAncestry : Nat := 0
  refusedBelowTip : Bool := false
  refusedBelowTipHeight : Int := -1
  refusedBelowTipTipHeight : Int := -1
deriving DecidableEq, Repr

/-- Whether the active chain has another, failed block at the candidate's height. -/
def incumbentFailed (blocks : BlockStore) (c : ActiveChain) (cand : BlockId) : Bool :=
  match activeChainAt c (blocks cand).nHeight with
  | some incumbent => incumbent != cand && blockHasAnyFailure (blocks incumbent)
  | none => false

def activeChainSelectionCandidateBeatsBest (blocks : BlockStore) (c : ActiveChain)
    (cand : BlockId) : Option BlockId → Bool
  | none => true
  | some best =>
    if (blocks best).nChainWork < (blocks cand).nChainWork then true
    else if (blocks cand).nChainWork < (blocks best).nChainWork then false
    else incumbentFailed blocks c cand

/-- Eligibility of an entry, and the counters of what speaks against it. -/
def selectMostWorkIndexEligible (blocks : BlockStore) (id : BlockId)
    (stats : MostWorkSelectionStats) : Bool × MostWorkSelectionStats :=
  let bi := blocks id
  if blockHasAnyFailure bi then (false, { stats with skippedFailed := stats.skippedFailed + 1 })
  else if !blockIndexIsValid bi blockValidTree then
    (false, { stats with skippedInvalid := stats.skippedInvalid + 1 })
  else if bi.nChainTx == 0 && bi.nStatus &&& blockHaveData == 0 then
    (false, { stats with skippedNoChaintx := stats.skippedNoChaintx + 1 })
  else (true, stats)

/-- The loop of the ancestry check; there are `fuel` blocks at most above the floor. -/
def ancestryClean (blocks : BlockStore) (floorH : Int) : Nat → BlockId → Bool
  | 0, _ => true
  | fuel + 1, check =>
    if (blocks check).nHeight ≤ floorH then true
    else if blockHasAnyFailure (blocks check) then false
    else
      match (blocks check).pprev with
      | none => true
      | some prev => ancestryClean blocks floorH fuel prev

def bestHeight (blocks : BlockStore) : Option BlockId → Int
  | some best => (blocks best).nHeight
  | none => -1

def selectMostWorkAncestryClean (blocks : BlockStore) (id : BlockId) (best : Option BlockId)
    : Bool :=
  let floorH := bestHeight blocks best
  ancestryClean blocks floorH ((blocks id).nHeight - floorH).toNat id

/-- One entry of the scan. -/
def selectMostWorkStep (blocks : BlockStore) (c : ActiveChain)
    (state : Option BlockId × MostWorkSelectionStats) (id : BlockId)
    : Option BlockId × MostWorkSelectionStats :=
  let (best, stats) := state
  let (eligible, stats) := selectMostWorkIndexEligible blocks id stats
  if !eligible then (best, stats)
  else if activeChainSelectionCandidateBeatsBest blocks c id best then
    if selectMostWorkAncestryClean blocks id best then (some id, stats)
    else (best, { stats with skippedBadAncestry := stats.skippedBadAncestry + 1 })
  else (best, stats)

def selectMostWorkRefuseBelowTip (blocks : BlockStore) (tip best : Option BlockId)
    (stats : MostWorkSelectionStats) : Option BlockId × MostWorkSelectionStats :=
  match tip, best with
  | some tipId, some bestId =>
    if bestId ≠ tipId ∧ (blocks bestId).nHeight < (blocks tipId).nHeight then
      (tip, { stats with
        refusedBelowTip := true
        refusedBelowTipHeight := (blocks bestId).nHeight
        refusedBelowTipTipHeight := (blocks tipId).nHeight })
    else (best, stats)
  | _, _ => (best, stats)

/-- The map is given by its entries in iteration order. -/
def selectMostWorkEligible (blocks : BlockStore) (c : ActiveChain) (map : List BlockId)
    : Option BlockId × MostWorkSelectionStats :=
  let (best, stats) := map.foldl (selectMostWorkStep blocks c) (c.tip, {})
  selectMostWorkRefuseBelowTip blocks c.tip best stats

-- Candidates

def isEligible (blocks : BlockStore) (id : BlockId) : Bool :=
  !blockHasAnyFailure (blocks id) && blockIndexIsValid (blocks id) blockValidTree
    && !((blocks id).nChainTx == 0 && (blocks id).nStatus &&& blockHaveData == 0)

theorem selectMostWorkIndexEligible_fst (blocks : BlockStore) (id : BlockId)
    (stats : MostWorkSelectionStats)
    : (selectMostWorkIndexEligible blocks id stats).1 = isEligible blocks id := by
  simp only [selectMostWorkIndexEligible, isEligible]
  split
  · simp_all
  · split
    · simp_all
    · split
      · simp_all
      · simp_all
        tauto

/-- The active chain: the slots of the window up to the tip. -/
def onActiveChain (blocks : BlockStore) (c : ActiveChain) (id : BlockId) : Bool :=
  (blocks id).nHeight ≤ bestHeight blocks c.tip
    && activeChainAt c (blocks id).nHeight == some id

/-- The blocks from a block down to its fork point with the active chain. -/
inductive OnForkPath (blocks : BlockStore) (c : ActiveChain) : BlockId → BlockId → Prop where
  | here (id : BlockId) : OnForkPath blocks c id id
  | up {id parent other : BlockId} (apart : onActiveChain blocks c id = false)
      (link : (blocks id).pprev = some parent) (path : OnForkPath blocks c parent other)
      : OnForkPath blocks c id other

def ForkPathClean (blocks : BlockStore) (c : ActiveChain) (id : BlockId) : Prop :=
  ∀ other, OnForkPath blocks c id other → blockHasAnyFailure (blocks other) = false

section

variable (s : MainState)

def tipHeight : Int := bestHeight s.blocks s.chainActive.tip

def BelowTip (id : BlockId) : Prop :=
  ∃ tip, s.chainActive.tip = some tip ∧ (s.blocks id).nHeight < (s.blocks tip).nHeight

def work (id : BlockId) : Nat := (s.blocks id).nChainWork

/-- An eligible entry of the map that beats the tip. -/
structure Candidate (id : BlockId) : Prop where
  mapped : id ∈ s.mapBlockIndex
  eligible : isEligible s.blocks id = true
  beatsTip : activeChainSelectionCandidateBeatsBest s.blocks s.chainActive id
    s.chainActive.tip = true

/-- A candidate at or above the tip with a failure-free path to the active chain. -/
structure SoundCandidate (id : BlockId) : Prop where
  candidate : Candidate s id
  high : ¬BelowTip s id
  clean : ForkPathClean s.blocks s.chainActive id

structure BestSound (id : BlockId) : Prop where
  sound : SoundCandidate s id
  most : ∀ other, SoundCandidate s other → work s other ≤ work s id

/-- A failed block on a candidate's path is above the tip and above all it could follow. -/
def Fenced (id : BlockId) : Prop :=
  ∃ failed, OnForkPath s.blocks s.chainActive id failed
    ∧ blockHasAnyFailure (s.blocks failed) = true
    ∧ tipHeight s < (s.blocks failed).nHeight
    ∧ ∀ other, Candidate s other → other ≠ id → work s other ≤ work s id →
      (s.blocks other).nHeight < (s.blocks failed).nHeight

/--
Candidates over failed blocks are outdone or fenced, and candidates below the tip do not hide the
best sound ones.
-/
structure SoundWins : Prop where
  tainted : ∀ id, Candidate s id → ¬BelowTip s id →
    ¬ForkPathClean s.blocks s.chainActive id →
    (∃ sound, SoundCandidate s sound ∧ work s id < work s sound) ∨ Fenced s id
  low : ∀ id, Candidate s id → BelowTip s id → ∀ sound, BestSound s sound →
    work s id < work s sound ∧ selectMostWorkAncestryClean s.blocks sound (some id) = true

/-- A candidate below the tip outdoes all those at or above it, and is never turned down. -/
structure LowWins (id : BlockId) : Prop where
  candidate : Candidate s id
  low : BelowTip s id
  most : ∀ other, Candidate s other → ¬BelowTip s other → work s other < work s id
  clean : ∀ other, Candidate s other → BelowTip s other →
    selectMostWorkAncestryClean s.blocks id (some other) = true

/-- What the selector answers for an order of the map. -/
def selected (order : List BlockId) : Option BlockId :=
  (selectMostWorkEligible s.blocks s.chainActive order).1

/-- A block chosen over the tip is on no failed branch, and no better such block is left. -/
structure WellSelected (order : List BlockId) : Prop where
  clean : ∀ id, selected s order = some id → s.chainActive.tip ≠ some id →
    ForkPathClean s.blocks s.chainActive id
  most : ∀ id, selected s order = some id → s.chainActive.tip ≠ some id →
    ∀ other ∈ order, isEligible s.blocks other = true →
      ¬BelowTip s other → ForkPathClean s.blocks s.chainActive other →
      work s other ≤ work s id

end

-- The ancestry check

variable {s : MainState}

theorem OnForkPath.low (tree : BlockTree s) {id other : BlockId}
    (path : OnForkPath s.blocks s.chainActive id other) (mapped : id ∈ s.mapBlockIndex)
    : (s.blocks other).nHeight ≤ (s.blocks id).nHeight := by
  induction path with
  | here id => exact le_rfl
  | @up id parent other _ link _ ih =>
    have below := ih (tree.mapped id mapped parent link)
    have step := tree.ascends id mapped parent link
    omega

variable {c : ActiveChain} {floorH : Int}

theorem onActiveChain_above {blocks : BlockStore}
    (high : ∀ tip, c.tip = some tip → (blocks tip).nHeight ≤ floorH) {id : BlockId}
    (above : floorH < (blocks id).nHeight) : onActiveChain blocks c id = false := by
  rw [onActiveChain, Bool.and_eq_false_iff, decide_eq_false_iff_not]
  cases isTip : c.tip with
  | none =>
    by_cases negative : (blocks id).nHeight < 0
    · exact .inr (by simp [activeChainAt, negative])
    · exact .inl (by rw [bestHeight]; omega)
  | some tip =>
    have below := high tip isTip
    exact .inl (by rw [bestHeight]; omega)

theorem ancestryClean_of_forkPath {blocks : BlockStore}
    (high : ∀ tip, c.tip = some tip → (blocks tip).nHeight ≤ floorH) (fuel : Nat) {id : BlockId}
    (clean : ForkPathClean blocks c id) : ancestryClean blocks floorH fuel id = true := by
  induction fuel generalizing id with
  | zero => rfl
  | succ fuel ih =>
    rw [ancestryClean]
    split
    · rfl
    · rename_i above
      have apart := onActiveChain_above high (by omega : floorH < (blocks id).nHeight)
      rw [clean id (.here id)]
      simp only [Bool.false_eq_true, if_false]
      split
      · rfl
      · rename_i parent link
        exact ih fun other path => clean other (.up apart link path)

theorem ancestryClean_of_failed (tree : BlockTree s) {id failed : BlockId}
    (path : OnForkPath s.blocks s.chainActive id failed)
    (isFailed : blockHasAnyFailure (s.blocks failed) = true)
    (above : floorH < (s.blocks failed).nHeight) (mapped : id ∈ s.mapBlockIndex) {fuel : Nat}
    (enough : ((s.blocks id).nHeight - floorH).toNat ≤ fuel)
    : ancestryClean s.blocks floorH fuel id = false := by
  induction path generalizing fuel with
  | here id =>
    obtain ⟨less, rfl⟩ : ∃ less, fuel = less + 1 := ⟨fuel - 1, by omega⟩
    rw [ancestryClean, if_neg (by omega), if_pos isFailed]
  | @up id parent failed _ link path ih =>
    have parentMapped := tree.mapped id mapped parent link
    have step := tree.ascends id mapped parent link
    have low := path.low tree parentMapped
    obtain ⟨less, rfl⟩ : ∃ less, fuel = less + 1 := ⟨fuel - 1, by omega⟩
    rw [ancestryClean, if_neg (by omega)]
    split
    · rfl
    · rw [link]
      exact ih isFailed above parentMapped (by omega)

theorem beats_cases {blocks : BlockStore} {cand best : BlockId}
    : activeChainSelectionCandidateBeatsBest blocks c cand (some best) = true
        ↔ (blocks best).nChainWork < (blocks cand).nChainWork
          ∨ (blocks best).nChainWork = (blocks cand).nChainWork
            ∧ incumbentFailed blocks c cand = true := by
  rcases lt_trichotomy (blocks best).nChainWork (blocks cand).nChainWork with less | same | more
  · simp [activeChainSelectionCandidateBeatsBest, less]
  · simp [activeChainSelectionCandidateBeatsBest, same]
  · simp [activeChainSelectionCandidateBeatsBest, more, more.not_gt, more.ne']

theorem Candidate.atLeastTip {id tip : BlockId} (candidate : Candidate s id)
    (isTip : s.chainActive.tip = some tip) : work s tip ≤ work s id := by
  have beats := candidate.beatsTip
  rw [isTip, beats_cases] at beats
  rcases beats with less | ⟨same, -⟩
  · exact le_of_lt less
  · exact le_of_eq same

theorem beatsTip_of_beats {id : BlockId} {best : Option BlockId}
    (known : best = s.chainActive.tip ∨ ∃ other, best = some other ∧ Candidate s other)
    (beats : activeChainSelectionCandidateBeatsBest s.blocks s.chainActive id best = true)
    : activeChainSelectionCandidateBeatsBest s.blocks s.chainActive id s.chainActive.tip
        = true := by
  rcases known with rfl | ⟨other, rfl, candidate⟩
  · exact beats
  · cases isTip : s.chainActive.tip with
    | none => rfl
    | some tip =>
      have atLeast := candidate.atLeastTip isTip
      simp only [work] at atLeast
      rw [beats_cases] at beats ⊢
      rcases beats with less | ⟨same, failed⟩
      · exact .inl (lt_of_le_of_lt atLeast less)
      · rcases lt_or_eq_of_le atLeast with less | equal
        · exact .inl (by omega)
        · exact .inr ⟨by omega, failed⟩

-- The scan

/-- The running best is the tip, or a candidate of a kind that the scan may keep. -/
def Kept (s : MainState) (keep : BlockId → Prop) (best : Option BlockId) : Prop :=
  best = s.chainActive.tip ∨ ∃ id, best = some id ∧ Candidate s id ∧ keep id

def workOf (s : MainState) : Option BlockId → Nat
  | some id => work s id
  | none => 0

theorem selectMostWorkStep_cases {keep : BlockId → Prop} {best : Option BlockId}
    (kept : Kept s keep best) (stats : MostWorkSelectionStats) {id : BlockId}
    (mapped : id ∈ s.mapBlockIndex)
    : ((selectMostWorkStep s.blocks s.chainActive (best, stats) id).1 = some id
          ∧ Candidate s id ∧ selectMostWorkAncestryClean s.blocks id best = true
          ∧ activeChainSelectionCandidateBeatsBest s.blocks s.chainActive id best = true)
        ∨ (selectMostWorkStep s.blocks s.chainActive (best, stats) id).1 = best
          ∧ (Candidate s id →
            activeChainSelectionCandidateBeatsBest s.blocks s.chainActive id best = true →
            selectMostWorkAncestryClean s.blocks id best = false) := by
  have known : best = s.chainActive.tip ∨ ∃ other, best = some other ∧ Candidate s other :=
    kept.imp_right fun ⟨other, same, candidate, _⟩ => ⟨other, same, candidate⟩
  have eligible := selectMostWorkIndexEligible_fst s.blocks id stats
  simp only [selectMostWorkStep, eligible]
  cases isEligible : isEligible s.blocks id with
  | false =>
    refine .inr ⟨by simp, ?_⟩
    intro candidate
    rw [candidate.eligible] at isEligible
    cases isEligible
  | true =>
    cases beats : activeChainSelectionCandidateBeatsBest s.blocks s.chainActive id best with
    | false => exact .inr ⟨by simp, by simp⟩
    | true =>
      cases clean : selectMostWorkAncestryClean s.blocks id best with
      | true =>
        exact .inl ⟨by simp, ⟨mapped, isEligible, beatsTip_of_beats known beats⟩, rfl, rfl⟩
      | false => exact .inr ⟨by simp, fun _ _ => rfl⟩

theorem work_le_of_beats {id : BlockId} {best : Option BlockId}
    (beats : activeChainSelectionCandidateBeatsBest s.blocks s.chainActive id best = true)
    : workOf s best ≤ work s id := by
  cases best with
  | none => exact Nat.zero_le _
  | some best =>
    rcases beats_cases.mp beats with less | ⟨same, -⟩
    · exact le_of_lt less
    · exact le_of_eq same

theorem work_le_of_not_beats {id : BlockId} {best : Option BlockId}
    (beats : activeChainSelectionCandidateBeatsBest s.blocks s.chainActive id best ≠ true)
    : work s id ≤ workOf s best := by
  cases best with
  | none => exact absurd rfl beats
  | some best =>
    rw [ne_eq, beats_cases, not_or] at beats
    exact not_lt.mp beats.1

/-- What the scan keeps of its running best, and the candidates that it never passes over. -/
structure ScanRule (s : MainState) (keep wins : BlockId → Prop) : Prop where
  keeps
    : ∀ best id, Kept s keep best → Candidate s id →
        activeChainSelectionCandidateBeatsBest s.blocks s.chainActive id best = true →
        selectMostWorkAncestryClean s.blocks id best = true → Kept s keep (some id)
  candidate : ∀ id, wins id → Candidate s id
  taken
    : ∀ best id, Kept s keep best → wins id →
        selectMostWorkAncestryClean s.blocks id best = true

theorem ScanRule.scan {keep wins : BlockId → Prop} (rule : ScanRule s keep wins)
    {order : List BlockId} (mapped : ∀ id ∈ order, id ∈ s.mapBlockIndex)
    {state : Option BlockId × MostWorkSelectionStats} (start : Kept s keep state.1)
    : let best := (order.foldl (selectMostWorkStep s.blocks s.chainActive) state).1
      Kept s keep best ∧ workOf s state.1 ≤ workOf s best
        ∧ ∀ id ∈ order, wins id → work s id ≤ workOf s best := by
  induction order generalizing state with
  | nil => exact ⟨start, le_rfl, by simp⟩
  | cons id rest ih =>
    obtain ⟨best, stats⟩ := state
    have here := mapped id List.mem_cons_self
    have later := (List.forall_mem_cons.mp mapped).2
    have step : Kept s keep (selectMostWorkStep s.blocks s.chainActive (best, stats) id).1
        ∧ workOf s best
          ≤ workOf s (selectMostWorkStep s.blocks s.chainActive (best, stats) id).1
        ∧ (wins id → work s id
          ≤ workOf s (selectMostWorkStep s.blocks s.chainActive (best, stats) id).1) := by
      rcases selectMostWorkStep_cases start stats here with
        ⟨same, candidate, clean, beats⟩ | ⟨same, refused⟩
      · rw [same]
        exact ⟨rule.keeps best id start candidate beats clean, work_le_of_beats beats,
          fun _ => le_rfl⟩
      · rw [same]
        refine ⟨start, le_rfl, fun winner => ?_⟩
        by_cases beats :
            activeChainSelectionCandidateBeatsBest s.blocks s.chainActive id best = true
        · have unclean := refused (rule.candidate id winner) beats
          rw [rule.taken best id start winner] at unclean
          cases unclean
        · exact work_le_of_not_beats beats
    obtain ⟨kept, grows, met⟩ := ih later step.1
    refine ⟨kept, le_trans step.2.1 grows, ?_⟩
    intro other member winner
    rcases List.mem_cons.mp member with rfl | after
    · exact le_trans (step.2.2 winner) grows
    · exact met other after winner

-- The selected block

/-- The running best when the scan ends, before it is refused. -/
def scanned (s : MainState) (order : List BlockId) : Option BlockId :=
  (order.foldl (selectMostWorkStep s.blocks s.chainActive) (s.chainActive.tip, {})).1

theorem ScanRule.scanned {keep wins : BlockId → Prop} (rule : ScanRule s keep wins)
    {order : List BlockId} (perm : order.Perm s.mapBlockIndex)
    : Kept s keep (scanned s order)
      ∧ ∀ id, wins id → work s id ≤ workOf s (scanned s order) := by
  obtain ⟨kept, -, met⟩ := rule.scan (fun id member => perm.mem_iff.mp member)
    (show Kept s keep ((s.chainActive.tip, {}) : Option BlockId × MostWorkSelectionStats).1
      from .inl rfl)
  exact ⟨kept, fun id winner => met id (perm.mem_iff.mpr (rule.candidate id winner).mapped) winner⟩

theorem selected_cases {keep : BlockId → Prop} {order : List BlockId}
    (kept : Kept s keep (scanned s order))
    : selected s order = s.chainActive.tip
        ∧ (scanned s order = s.chainActive.tip
          ∨ ∃ id, scanned s order = some id ∧ Candidate s id ∧ keep id ∧ BelowTip s id)
      ∨ ∃ id, selected s order = some id ∧ scanned s order = some id ∧ Candidate s id ∧ keep id
        ∧ ¬BelowTip s id := by
  simp only [selected, selectMostWorkEligible, ← scanned.eq_def]
  rcases kept with same | ⟨id, same, candidate, keeps⟩
  · rw [same]
    refine .inl ⟨?_, .inl rfl⟩
    cases isTip : s.chainActive.tip with
    | none => rfl
    | some tip => simp [selectMostWorkRefuseBelowTip]
  · rw [same]
    by_cases low : BelowTip s id
    · refine .inl ⟨?_, .inr ⟨id, rfl, candidate, keeps, low⟩⟩
      obtain ⟨tip, isTip, below⟩ := low
      have different : id ≠ tip := by
        rintro rfl
        exact lt_irrefl _ below
      simp [isTip, selectMostWorkRefuseBelowTip, different, below]
    · refine .inr ⟨id, ?_, rfl, candidate, keeps, low⟩
      cases isTip : s.chainActive.tip with
      | none => rfl
      | some tip =>
        have above : ¬(s.blocks id).nHeight < (s.blocks tip).nHeight :=
          fun below => low ⟨tip, isTip, below⟩
        simp [selectMostWorkRefuseBelowTip, above]

theorem Candidate.atLeastTipOf {id : BlockId} (candidate : Candidate s id)
    : workOf s s.chainActive.tip ≤ work s id :=
  work_le_of_beats candidate.beatsTip

/-- What the scan may keep where the sound candidates win. -/
def KeptUnderSound (s : MainState) (id : BlockId) : Prop :=
  SoundCandidate s id ∨ BelowTip s id ∨ ∃ sound, SoundCandidate s sound ∧ work s id < work s sound

theorem Fenced.refused (tree : BlockTree s) {id : BlockId} (fenced : Fenced s id)
    (mapped : id ∈ s.mapBlockIndex) {best : Option BlockId}
    (known : best = s.chainActive.tip ∨ ∃ other, best = some other ∧ Candidate s other ∧
      other ≠ id ∧ work s other ≤ work s id)
    : selectMostWorkAncestryClean s.blocks id best = false := by
  obtain ⟨failed, path, isFailed, aboveTip, aboveOthers⟩ := fenced
  refine ancestryClean_of_failed tree path isFailed ?_ mapped le_rfl
  rcases known with rfl | ⟨other, rfl, candidate, different, less⟩
  · exact aboveTip
  · exact aboveOthers other candidate different less

theorem SoundWins.keeps (tree : BlockTree s) (wins : SoundWins s) {best : Option BlockId}
    {id : BlockId} (kept : Kept s (KeptUnderSound s) best) (candidate : Candidate s id)
    (beats : activeChainSelectionCandidateBeatsBest s.blocks s.chainActive id best = true)
    (clean : selectMostWorkAncestryClean s.blocks id best = true)
    : Kept s (KeptUnderSound s) (some id) := by
  by_cases low : BelowTip s id
  · exact .inr ⟨id, rfl, candidate, .inr (.inl low)⟩
  by_cases path : ForkPathClean s.blocks s.chainActive id
  · exact .inr ⟨id, rfl, candidate, .inl ⟨candidate, low, path⟩⟩
  rcases wins.tainted id candidate low path with outdone | fenced
  · exact .inr ⟨id, rfl, candidate, .inr (.inr outdone)⟩
  · by_cases again : best = some id
    · exact again ▸ kept
    · have refused := fenced.refused tree candidate.mapped (kept.imp_right ?_)
      · rw [clean] at refused
        cases refused
      · rintro ⟨other, rfl, otherCandidate, -⟩
        exact ⟨other, rfl, otherCandidate, fun same => again (congrArg some same),
          work_le_of_beats beats⟩

/-- The check turns a best sound candidate down against nothing that the scan keeps. -/
theorem SoundWins.taken (wins : SoundWins s) {best : Option BlockId} {id : BlockId}
    (kept : Kept s (KeptUnderSound s) best) (winner : BestSound s id)
    : selectMostWorkAncestryClean s.blocks id best = true := by
  rcases kept with rfl | ⟨other, rfl, candidate, -⟩
  · refine ancestryClean_of_forkPath ?_ _ winner.sound.clean
    intro tip isTip
    rw [isTip, bestHeight]
  · by_cases low : BelowTip s other
    · exact (wins.low other candidate low id winner).2
    · refine ancestryClean_of_forkPath ?_ _ winner.sound.clean
      intro tip isTip
      exact not_lt.mp fun below => low ⟨tip, isTip, below⟩

theorem exists_bestSound {id : BlockId} (sound : SoundCandidate s id)
    : ∃ best, BestSound s best := by
  have finite : {id | SoundCandidate s id}.Finite :=
    s.mapBlockIndex.finite_toSet.subset fun _ member => member.candidate.mapped
  obtain ⟨best, isSound, most⟩ := Set.exists_max_image _ (work s) finite ⟨id, sound⟩
  exact ⟨best, isSound, most⟩

theorem SoundWins.selects (tree : BlockTree s) (wins : SoundWins s) {order : List BlockId}
    (perm : order.Perm s.mapBlockIndex)
    : (selected s order = s.chainActive.tip
        ∨ ∃ id, selected s order = some id ∧ SoundCandidate s id)
      ∧ (∀ best, BestSound s best → workOf s (selected s order) = work s best)
      ∧ ((∀ best, ¬BestSound s best) → selected s order = s.chainActive.tip) := by
  have rule : ScanRule s (KeptUnderSound s) (BestSound s) :=
    ⟨fun _ _ => wins.keeps tree, fun _ winner => winner.sound.candidate, fun _ _ => wins.taken⟩
  obtain ⟨kept, reached⟩ := rule.scanned perm
  rcases selected_cases kept with ⟨same, isScanned⟩ | ⟨id, same, isScanned, candidate, keeps, high⟩
  · refine ⟨.inl same, ?_, fun _ => same⟩
    intro best winner
    have atLeast := reached best winner
    rcases isScanned with isTip | ⟨id, isScanned, candidate, -, low⟩
    · rw [isTip] at atLeast
      rw [same]
      exact le_antisymm winner.sound.candidate.atLeastTipOf atLeast
    · rw [isScanned] at atLeast
      exact absurd (wins.low id candidate low best winner).1 (not_lt.mpr atLeast)
  · have isSound : SoundCandidate s id := by
      rcases keeps with sound | low | ⟨sound, isSound, more⟩
      · exact sound
      · exact absurd low high
      · obtain ⟨best, winner⟩ := exists_bestSound isSound
        have atLeast := reached best winner
        rw [isScanned] at atLeast
        exact absurd (lt_of_lt_of_le more (winner.most sound isSound)) (not_lt.mpr atLeast)
    refine ⟨.inr ⟨id, same, isSound⟩, ?_, ?_⟩
    · intro best winner
      have atLeast := reached best winner
      rw [isScanned] at atLeast
      rw [same]
      exact le_antisymm (winner.most id isSound) atLeast
    · intro none
      obtain ⟨best, winner⟩ := exists_bestSound isSound
      exact absurd winner (none best)

theorem LowWins.selects {id : BlockId} (wins : LowWins s id) {order : List BlockId}
    (perm : order.Perm s.mapBlockIndex)
    : selected s order = s.chainActive.tip := by
  have taken : ∀ best, Kept s (fun _ => True) best →
      selectMostWorkAncestryClean s.blocks id best = true := by
    intro best kept
    obtain ⟨tip, isTip, below⟩ := wins.low
    have passes : ∀ floorH, (s.blocks id).nHeight ≤ floorH →
        ancestryClean s.blocks floorH ((s.blocks id).nHeight - floorH).toNat id = true := by
      intro floorH low
      rw [Int.toNat_eq_zero.mpr (by omega), ancestryClean]
    rcases kept with rfl | ⟨other, rfl, candidate, -⟩
    · rw [isTip]
      exact passes _ (le_of_lt below)
    · by_cases low : BelowTip s other
      · exact wins.clean other candidate low
      · refine passes _ (le_of_lt (lt_of_lt_of_le below ?_))
        exact not_lt.mp fun lower => low ⟨tip, isTip, lower⟩
  have rule : ScanRule s (fun _ => True) (· = id) :=
    ⟨fun _ other _ candidate _ _ => .inr ⟨other, rfl, candidate, trivial⟩,
      fun _ same => same ▸ wins.candidate, fun best _ kept same => same ▸ taken best kept⟩
  obtain ⟨kept, reached⟩ := rule.scanned perm
  have atLeast := reached id rfl
  rcases selected_cases kept with ⟨same, -⟩ | ⟨other, -, isScanned, candidate, -, high⟩
  · exact same
  · rw [isScanned] at atLeast
    exact absurd (wins.most other candidate high) (not_lt.mpr atLeast)

theorem SoundCandidate.work_le_selected (tree : BlockTree s) (wins : SoundWins s)
    {order : List BlockId} (perm : order.Perm s.mapBlockIndex) {id : BlockId}
    (sound : SoundCandidate s id) : work s id ≤ workOf s (selected s order) := by
  obtain ⟨best, winner⟩ := exists_bestSound sound
  rw [(wins.selects tree perm).2.1 best winner]
  exact winner.most id sound

theorem SoundWins.wellSelected (tree : BlockTree s) (wins : SoundWins s) {order : List BlockId}
    (perm : order.Perm s.mapBlockIndex) : WellSelected s order := by
  have isSound : ∀ id, selected s order = some id → s.chainActive.tip ≠ some id →
      SoundCandidate s id := by
    intro id same notTip
    rcases (wins.selects tree perm).1 with isTip | ⟨other, isOther, sound⟩
    · exact absurd (isTip.symm.trans same) notTip
    · rw [isOther, Option.some_inj] at same
      exact same ▸ sound
  constructor
  · intro id same notTip
    exact (isSound id same notTip).clean
  · intro id same notTip other member eligible high path
    have sound := isSound id same notTip
    by_cases beats : activeChainSelectionCandidateBeatsBest s.blocks s.chainActive other
        s.chainActive.tip = true
    · have reached := SoundCandidate.work_le_selected tree wins perm
        ⟨⟨perm.mem_iff.mp member, eligible, beats⟩, high, path⟩
      rwa [same] at reached
    · exact le_trans (work_le_of_not_beats beats) sound.candidate.atLeastTipOf

/-- A header with block data, by parent, height and work. -/
def dataBlock (id : BlockId) (parent : Option BlockId) (height : Int) (chainWork : Nat)
    (status : UInt32) : BlockIndex where
  hashBlock := .fill (UInt8.ofNat id)
  pprev := parent
  nChainWork := chainWork
  nHeight := height
  nStatus := blockHaveData ||| status

/--
A chain of three blocks with a branch of two blocks and a branch of one block above its tip. The
first block of the long branch has the given failure flags.
-/
def forkedMap (flags : UInt32) : MainState where
  blocks id :=
    match id with
    | 0 => dataBlock 0 none 0 1 blockValidTree
    | 1 => dataBlock 1 (some 0) 1 10 blockValidTree
    | 2 => dataBlock 2 (some 1) 2 20 blockValidTree
    | 3 => dataBlock 3 (some 2) 3 30 (blockValidTree ||| flags)
    | 4 => dataBlock 4 (some 3) 4 40 blockValidTree
    | id => dataBlock id (some 2) 3 25 blockValidTree
  mapBlockIndex := [0, 1, 2, 3, 4, 5]
  chainActive := { slots := [some 0, some 1, some 2], tip := some 2 }
  pindexBestHeader := none

theorem forkedMap_hash (flags : UInt32) (id : BlockId)
    : ((forkedMap flags).blocks id).hashBlock = .fill (UInt8.ofNat id) := by
  simp only [forkedMap]
  split
  all_goals rfl

theorem forkedMap_tree (flags : UInt32) : BlockTree (forkedMap flags) where
  nodup := by simp [forkedMap]
  mapped := by
    intro id member parent link
    fin_cases member <;> cases link <;> simp [forkedMap]
  ascends := by
    intro id member parent link
    fin_cases member <;> cases link <;> simp [forkedMap, dataBlock]
  oneEntry := by
    intro a aMember b bMember same
    rw [forkedMap_hash, forkedMap_hash] at same
    fin_cases aMember <;> fin_cases bMember <;> first | rfl | exact absurd same (by decide)

theorem forkedMap_unfailed (id : BlockId)
    : blockHasAnyFailure ((forkedMap 0).blocks id) = false := by
  have unfailed : (blockHaveData ||| blockValidTree) &&& blockFailedAnyMask = 0 := by decide
  simp only [forkedMap]
  split
  all_goals simp [blockHasAnyFailure, dataBlock, unfailed]

theorem forkedMap_soundWins : SoundWins (forkedMap 0) where
  tainted := by
    intro id _ _ failed
    exact absurd (fun other _ => forkedMap_unfailed other) failed
  low := by
    rintro id candidate ⟨tip, isTip, below⟩
    cases isTip
    have beats := candidate.beatsTip
    have mapped := candidate.mapped
    fin_cases mapped <;> first
      | exact absurd beats (by decide)
      | exact absurd below (by decide)

end Z23.Validation
