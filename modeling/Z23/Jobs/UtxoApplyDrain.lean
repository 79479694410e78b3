import Z23.Jobs.UtxoApplyLive

/-!
The batched drain of the utxo_apply stage: one outer transaction around many steps, closed only
when the commit invariants hold. The row meter catches a block that spends an outpoint twice,
where it is armed.
-/

namespace Z23.Jobs

open Z23.Lib.FiniteMap Z23.Storage

-- The drain

def ciWipe (st : StageState) : StageState :=
  { st.setStore (coinsKvDeltaCancel st.db.store) with window := {} }

/-- The row meter is armed only off the overlay. -/
def reducerCommitInvariantsBatchBegin (st : StageState) : StageState :=
  let st := ciWipe st
  match st.db.store.overlay with
  | some _ => { st with window := { active := true, countGated := true } }
  | none =>
    { st.setStore (coinsKvDeltaBegin st.db.store) with window := { active := true } }

def reducerCommitInvariantsDisableCoinsCheck (st : StageState) : StageState :=
  if !st.window.active then st
  else
    { st.setStore (coinsKvDeltaCancel st.db.store) with
      window := { st.window with countGated := true } }

/-- The verdict on an open window; the window is wiped in every case. -/
def CommitWindow.verdict (window : CommitWindow) (meter : Option Int) : Bool :=
  if !window.active then true
  else if window.reorg then true
  else if window.violation then false
  else if window.coinsTouched && !window.countGated then
    meter == some window.expectedNet
  else true

def reducerCommitInvariantsVerify (st : StageState) : StageState × Bool :=
  (ciWipe st, st.window.verdict st.db.store.meter)

/-- Models `utxo_apply_drain_batch_open` after a successful BEGIN. -/
def utxoApplyDrainBatchOpen (cfg : StageConfig) (st : StageState) : StageState :=
  let st := { st with batchOpen := true, dirty := false, audited := false }
  let st := reducerCommitInvariantsBatchBegin st
  match cfg.lookup with
  | .live => st
  | .installed _ => reducerCommitInvariantsDisableCoinsCheck st

theorem utxoApplyDrainBatchOpen_frame (cfg : StageConfig) (st : StageState)
    : ∃ window meter, utxoApplyDrainBatchOpen cfg st =
        { db := { st.db with store := { st.db.store with meter := meter } }
          window := window
          batchOpen := true
          dirty := false
          audited := false } := by
  obtain ⟨⟨⟨coins, overlay, meter⟩⟩⟩ := st
  rw [utxoApplyDrainBatchOpen]
  cases cfg.lookup <;> cases overlay <;> exact ⟨_, _, rfl⟩

/-- The loop of `utxo_apply_drain_steps`: the state, the number of advances, the folded blocks. -/
def utxoApplyDrainSteps (cfg : StageConfig) (st : StageState)
    : List StepInput → StageState × Nat × List Block
  | [] => (st, 0, [])
  | input :: rest =>
    let step := utxoApplyStageStepOnce cfg st input
    match step.result with
    | .advanced =>
      let (final, advanced, folded) := utxoApplyDrainSteps cfg step.state rest
      (final, advanced + 1, step.folded ++ folded)
    | _ => (step.state, 0, step.folded)

/--
One call of the drain. `steps` ends where the step limit or the time budget would end the loop;
`begins` says that BEGIN succeeds; `commits` that the coupling check, the pre-commit hook and
COMMIT let the batch through.
-/
structure DrainCall where
  steps : List StepInput
  begins : Bool
  commits : Bool

/-- `folded` are the blocks that the call leaves applied and committed. -/
structure DrainOutcome where
  state : StageState
  committed : Bool
  folded : List Block

/-- The end of the batch: verify, then COMMIT or ROLLBACK. -/
def utxoApplyDrainBatchClose (saved : ApplyDb) (commits : Bool)
    (ran : StageState × Nat × List Block) : DrainOutcome :=
  let (st, advanced, folded) := ran
  let wanted := advanced > 0 || st.dirty
  let (st, verified) :=
    if wanted then reducerCommitInvariantsVerify st else (ciWipe st, false)
  if verified && commits then ⟨{ st with batchOpen := false }, true, folded⟩
  else ⟨{ st with db := st.db.rollbackTo saved, batchOpen := false }, false, []⟩

/-- Outside a batch every step commits itself. -/
def utxoApplyStageDrain (cfg : StageConfig) (st : StageState) (call : DrainCall)
    : DrainOutcome :=
  if call.begins then
    let st := utxoApplyDrainBatchOpen cfg st
    utxoApplyDrainBatchClose st.db call.commits (utxoApplyDrainSteps cfg st call.steps)
  else
    let (st, _, folded) := utxoApplyDrainSteps cfg st call.steps
    ⟨st, false, folded⟩

-- The row surplus of a block

theorem rowCount_le_dropAll (coins : CoinTable) (ops : List Outpoint)
    : rowCount coins ≤ rowCount (dropAll coins ops) + ops.length := by
  induction ops generalizing coins with
  | nil => simp [dropAll]
  | cons op rest ih =>
    have step : dropAll coins (op :: rest) = dropAll (coins.erase op) rest := rfl
    have removed := rowCount_erase coins op
    have below := ih (coins.erase op)
    rw [step, List.length_cons]
    split at removed <;> omega

theorem nodup_of_rowCount_dropAll {coins : CoinTable} {ops : List Outpoint}
    (exact : rowCount coins = rowCount (dropAll coins ops) + ops.length)
    : ops.Nodup ∧ ∀ op ∈ ops, op ∈ coins := by
  induction ops generalizing coins with
  | nil => exact ⟨.nil, by simp⟩
  | cons op rest ih =>
    have step : dropAll coins (op :: rest) = dropAll (coins.erase op) rest := rfl
    have removed := rowCount_erase coins op
    have below := rowCount_le_dropAll (coins.erase op) rest
    rw [step, List.length_cons] at exact
    split at removed
    · rename_i present
      have inner : rowCount (coins.erase op)
          = rowCount (dropAll (coins.erase op) rest) + rest.length := by omega
      obtain ⟨distinct, inErased⟩ := ih inner
      refine ⟨List.nodup_cons.mpr ⟨fun again => ?_, distinct⟩, ?_⟩
      · exact (Finmap.notMem_erase_self) (inErased op again)
      · intro other member
        rcases List.mem_cons.mp member with rfl | later
        · exact present
        · exact (Finmap.mem_erase.mp (inErased other later)).2
    · omega

/-- The inputs of the block name no outpoint twice. -/
def SpendsOnce (blk : Block) : Prop := (blk.vtx.flatMap spentOutpoints).Nodup

/-- What the keys of a coin set say about an accepted delta. -/
structure Authored (cfg : ApplyConfig) (coins : CoinTable) (blk : Block) (s : DeltaSummary)
    : Prop where
  distinct : (s.added.map DeltaEntry.outpoint).Nodup
  fresh : ∀ e ∈ s.added, e.outpoint ∉ coins
  known : ∀ e ∈ s.spent, e.outpoint ∈ s.added.map DeltaEntry.outpoint ∨ e.outpoint ∈ coins
  scripts : ∀ e ∈ s.added, e.script.length ≤ maxScriptSize
  spends
    : blk.hash ≠ cfg.params.hashGenesisBlock →
        s.spent.map DeltaEntry.outpoint = blk.vtx.flatMap spentOutpoints

theorem utxoApplyComputeBlockDelta_authored {cfg : ApplyConfig} {coins : CoinTable}
    {height : UInt32} {lookup : LookupFn} {blk : Block} (answers : AnswersFrom lookup coins)
    (accepted : (utxoApplyComputeBlockDelta cfg blk height lookup).Accepted)
    : Authored cfg coins blk (utxoApplyComputeBlockDelta cfg blk height lookup) := by
  by_cases genesis : blk.hash = cfg.params.hashGenesisBlock
  · rw [utxoApplyComputeBlockDelta, if_pos genesis]
    exact ⟨.nil, by simp [deltaSummaryInit], by simp [deltaSummaryInit],
      by simp [deltaSummaryInit], fun other => absurd genesis other⟩
  · obtain ⟨idx, init, run⟩ := utxoApplyComputeBlockDelta_accepted genesis accepted
    generalize utxoApplyComputeBlockDelta cfg blk height lookup = s at run
    simp only [utxoDeltaRun, Lib.FoldM.bind_eq_ok, pure, Except.pure, Except.ok.injEq] at run
    obtain ⟨final, foldRun, _, -, _, -, rfl⟩ := run
    obtain ⟨folded, records⟩ := utxoDeltaFoldTransactions_ok init answers foldRun
    refine ⟨records.indexes.distinct, records.fresh, ?_, records.addedScripts,
      fun _ => folded.spent⟩
    intro e member
    have inExtended := Finmap.mem_of_lookup_eq_some (records.restores e member)
    rwa [withAdded, mem_putAll, map_fst_addRow] at inExtended

theorem StageState.deltaOf_authored {cfg : StageConfig} {st : StageState} {blk : Block}
    {coins : CoinTable} (isLive : cfg.lookup = .live) (presents : st.db.store.Presents coins)
    (accepted : (st.deltaOf cfg blk).Accepted)
    : Authored cfg.apply coins blk (st.deltaOf cfg blk) := by
  obtain ⟨seen, shows⟩ := exists_shown coins
  have sameKeys : ∀ op, op ∈ seen ↔ op ∈ coins := by
    intro op
    rw [← Finmap.lookup_isSome, shows, Option.isSome_map, Finmap.lookup_isSome]
  have answers : AnswersFrom (cfg.lookup.over st.db.store) seen := by
    rw [isLive]
    exact utxoApplyStageLookupLive_answers presents shows
  have authored := utxoApplyComputeBlockDelta_authored answers accepted
  exact {
    distinct := authored.distinct
    fresh := fun e member present => authored.fresh e member ((sameKeys _).mpr present)
    known := fun e member => (authored.known e member).imp_right (sameKeys _).mp
    scripts := authored.scripts
    spends := authored.spends
  }

/-- How many more rows a block leaves than its counts account for. -/
def rowSurplus (coins : CoinTable) (s : DeltaSummary) (height : UInt32) : Int :=
  rowCount (appliedTable coins s height) - rowCount coins
    - ((s.added.length : Int) - (s.spent.length : Int))

section Surplus

variable {cfg : ApplyConfig} {coins : CoinTable} {blk : Block} {s : DeltaSummary}

theorem Authored.rowCount_withAdded (authored : Authored cfg coins blk s) (height : UInt32)
    : rowCount (withAdded coins height s.added) = rowCount coins + s.added.length := by
  rw [rowCount, withAdded, total_putAll]
  · simp [rowCount, Function.comp_def]
  · rw [map_fst_addRow]
    exact authored.distinct
  · rw [map_fst_addRow]
    intro op member
    obtain ⟨e, inAdded, rfl⟩ := List.mem_map.mp member
    exact authored.fresh e inAdded

theorem Authored.rowSurplus_nonneg (authored : Authored cfg coins blk s) (height : UInt32)
    : 0 ≤ rowSurplus coins s height := by
  have added := authored.rowCount_withAdded height
  have dropped := rowCount_le_dropAll (withAdded coins height s.added)
    (s.spent.map DeltaEntry.outpoint)
  rw [List.length_map] at dropped
  rw [rowSurplus, appliedTable]
  omega

theorem Authored.spendsOnce (authored : Authored cfg coins blk s) {height : UInt32}
    (even : rowSurplus coins s height = 0) (notGenesis : blk.hash ≠ cfg.params.hashGenesisBlock)
    : SpendsOnce blk := by
  have added := authored.rowCount_withAdded height
  rw [rowSurplus, appliedTable] at even
  have exact : rowCount (withAdded coins height s.added)
      = rowCount (dropAll (withAdded coins height s.added) (s.spent.map DeltaEntry.outpoint))
        + (s.spent.map DeltaEntry.outpoint).length := by
    rw [List.length_map]
    omega
  rw [SpendsOnce, ← authored.spends notGenesis]
  exact (nodup_of_rowCount_dropAll exact).1

end Surplus

-- The armed meter

/--
The meter runs: it is never behind the expected net, and level with it only while every folded
block spends each outpoint once.
-/
structure Metered (cfg : StageConfig) (st : StageState) (folded : List Block) : Prop where
  off : st.db.store.overlay = none
  active : st.window.active = true
  forward : st.window.reorg = false
  counted : st.window.countGated = false
  level
    : ∃ rows : Int, st.db.store.meter = some rows ∧ st.window.expectedNet ≤ rows
        ∧ (rows = st.window.expectedNet →
            ∀ blk ∈ folded, blk.hash ≠ cfg.apply.params.hashGenesisBlock → SpendsOnce blk)
  touched : folded ≠ [] → st.window.coinsTouched = true

theorem CommitWindow.noteShielded_open {window : CommitWindow} (active : window.active = true)
    (forward : window.reorg = false) (violates : Bool)
    : window.noteShielded violates
        = { window with violation := window.violation || violates } := by
  simp [CommitWindow.noteShielded, active, forward]

section Metered

variable {cfg : StageConfig} {st next : StageState} {folded : List Block}

theorem Metered.spendsOnce (metered : Metered cfg st folded)
    (passed : st.window.verdict st.db.store.meter = true)
    : ∀ blk ∈ folded, blk.hash ≠ cfg.apply.params.hashGenesisBlock → SpendsOnce blk := by
  obtain ⟨rows, meter, -, sound⟩ := metered.level
  intro blk member
  have touched := metered.touched (List.ne_nil_of_mem member)
  simp only [CommitWindow.verdict, metered.active, metered.forward, metered.counted, touched,
    meter] at passed
  refine sound ?_ blk member
  simp only [Bool.not_true, Bool.false_eq_true, if_false, Bool.not_false, Bool.and_self,
    if_true] at passed
  split at passed
  · simp at passed
  · simpa using passed

theorem Metered.forget {blk : Block} (metered : Metered cfg st (folded ++ [blk]))
    : Metered cfg st folded := by
  obtain ⟨rows, meter, behind, sound⟩ := metered.level
  exact {
    off := metered.off
    active := metered.active
    forward := metered.forward
    counted := metered.counted
    level := ⟨rows, meter, behind, fun even blk member =>
      sound even blk (List.mem_append_left _ member)⟩
    touched := fun _ => metered.touched (by simp)
  }

theorem Metered.still (metered : Metered cfg st folded) (violates : Bool)
    (store : next.db.store = st.db.store)
    (window : next.window = st.window ∨ next.window = st.window.noteShielded violates)
    : Metered cfg next folded := by
  have noted : ∃ violation, next.window = { st.window with violation := violation } := by
    rcases window with same | noted
    · exact ⟨st.window.violation, same⟩
    · exact ⟨_, noted.trans
        (CommitWindow.noteShielded_open metered.active metered.forward violates)⟩
  obtain ⟨violation, window⟩ := noted
  obtain ⟨off, active, forward, counted, level, touched⟩ := metered
  constructor <;> simp only [store, window] <;> assumption

theorem Metered.author (metered : Metered cfg st folded) (blk : Block) {violates : Bool}
    (isLive : cfg.lookup = .live) (accepted : (st.deltaOf cfg blk).Accepted)
    (off : next.db.store.overlay = none)
    (meter : next.db.store.meter
      = (applyCoinsKv st.db.store (st.deltaOf cfg blk) (UInt32.ofNat st.db.cursor)).meter)
    (window : next.window = (st.window.noteShielded violates).noteCoins
      (st.deltaOf cfg blk).added.length (st.deltaOf cfg blk).spent.length)
    : Metered cfg next (folded ++ [blk]) := by
  have authored := StageState.deltaOf_authored isLive
    (CoinStore.presents_of_off metered.off) accepted
  have surplus := authored.rowSurplus_nonneg (UInt32.ofNat st.db.cursor)
  obtain ⟨rows, before, behind, sound⟩ := metered.level
  rw [applyCoinsKv_off metered.off] at meter
  simp only [CoinStore.write, before, Option.map_some] at meter
  rw [CommitWindow.noteShielded_open metered.active metered.forward, CommitWindow.noteCoins,
    if_neg (by simp [metered.active, metered.forward])] at window
  exact {
    off := off
    active := by rw [window]; exact metered.active
    forward := by rw [window]; exact metered.forward
    counted := by rw [window]; exact metered.counted
    level := by
      refine ⟨_, meter, ?_, ?_⟩
      · simp only [window]
        rw [rowSurplus] at surplus
        omega
      · simp only [window]
        intro even
        have levelBefore : rows = st.window.expectedNet := by
          rw [rowSurplus] at surplus
          omega
        have noSurplus : rowSurplus st.db.store.coins (st.deltaOf cfg blk)
            (UInt32.ofNat st.db.cursor) = 0 := by
          rw [rowSurplus] at surplus ⊢
          omega
        intro other member notGenesis
        rcases List.mem_append.mp member with old | new
        · exact sound levelBefore other old notGenesis
        · obtain rfl := List.mem_singleton.mp new
          exact authored.spendsOnce noSurplus notGenesis
    touched := by simp [window]
  }

theorem utxoApplyReorgAudit_quiet {input : StepInput}
    (quiet : st.shouldAudit = true →
      utxoApplyReorgDetectDivergence input.chain st.db ((st.db.cursor : Int) - 1) = false)
    : (utxoApplyReorgAudit st input).1 = { st with audited := true } := by
  rw [utxoApplyReorgAudit]
  split
  · rename_i audits
    have cases := utxoApplyReorgUnwindIfNeeded_cases input.chain input.unwindFault st.db
    generalize utxoApplyReorgUnwindIfNeeded input.chain input.unwindFault st.db = ran at cases ⊢
    obtain ⟨db, outcome⟩ := ran
    cases cases with
    | idle outcome still =>
      cases outcome with
      | unwound fork => exact absurd rfl (still fork)
      | nothingToDo => rfl
      | refused => rfl
      | failed => rfl
    | rolledBack first count diverged =>
      rw [quiet audits] at diverged
      simp at diverged
    | unwound diverged unwinds =>
      rw [quiet audits] at diverged
      simp at diverged
  · rename_i audited
    have isAudited : st.audited = true := by
      simp only [StageState.shouldAudit, Bool.not_eq_true', Bool.not_eq_false, Bool.and_eq_true]
        at audited
      exact audited.2
    rw [← isAudited]

theorem Metered.run (metered : Metered cfg st folded) (isLive : cfg.lookup = .live) (offer : Offer)
    : Metered cfg (stageRunOnce cfg .none st offer).state
          (folded ++ (stageRunOnce cfg .none st offer).folded)
        ∧ (stageRunOnce cfg .none st offer).state.batchOpen = st.batchOpen
        ∧ (stageRunOnce cfg .none st offer).state.audited = st.audited := by
  have cases := stageRunOnce_cases cfg .none st offer
  generalize stageRunOnce cfg .none st offer = outcome at cases ⊢
  cases cases with
  | untouched violates result stays nothing =>
    rw [List.append_nil]
    exact ⟨metered.still violates rfl (.inr rfl), rfl, rfl⟩
  | torn violates authors struck => simp at struck
  | undone violates authors =>
    rw [List.append_nil]
    refine ⟨(metered.author _ isLive authors.accepted ?_ rfl rfl).forget, rfl, rfl⟩
    exact coinsKvSpendMany_addMany_off metered.off _ _
  | skipped offered skip =>
    rw [List.append_nil]
    exact ⟨metered.still false rfl (.inl rfl), rfl, rfl⟩
  | folded authors step =>
    obtain ⟨violates, window⟩ := step.window
    refine ⟨metered.author _ isLive authors.accepted ?_ (by rw [step.store]) window, step.batchOpen,
      step.audited⟩
    rw [step.store]
    exact coinsKvSpendMany_addMany_off metered.off _ _

theorem Metered.step {input : StepInput} (metered : Metered cfg st folded)
    (isLive : cfg.lookup = .live) (faultless : input.fault = .none)
    (quiet : st.shouldAudit = true →
      utxoApplyReorgDetectDivergence input.chain st.db ((st.db.cursor : Int) - 1) = false)
    : Metered cfg (utxoApplyStageStepOnce cfg st input).state
          (folded ++ (utxoApplyStageStepOnce cfg st input).folded)
        ∧ (utxoApplyStageStepOnce cfg st input).state.batchOpen = st.batchOpen
        ∧ (utxoApplyStageStepOnce cfg st input).state.audited = true := by
  have audit := utxoApplyReorgAudit_quiet quiet
  rw [utxoApplyStageStepOnce]
  generalize utxoApplyReorgAudit st input = audited at audit ⊢
  obtain ⟨st', passed⟩ := audited
  obtain rfl : st' = { st with audited := true } := audit
  have meteredHere : Metered cfg { st with audited := true } folded :=
    metered.still false rfl (.inl rfl)
  cases passed with
  | false => exact ⟨by simpa using meteredHere, rfl, rfl⟩
  | true =>
    obtain ⟨after, batchOpen, isAudited⟩ := meteredHere.run isLive input.offer
    simp only [faultless, after.off, Option.isSome_none, Bool.and_false, Bool.false_and,
      Bool.false_eq_true, if_false]
    exact ⟨after, batchOpen, isAudited⟩

theorem Metered.drainSteps {inputs : List StepInput} (metered : Metered cfg st folded)
    (isLive : cfg.lookup = .live) (batched : st.batchOpen = true)
    (faultless : ∀ input ∈ inputs, input.fault = .none)
    (quiet : st.audited = true ∨ ∀ input ∈ inputs.head?,
      utxoApplyReorgDetectDivergence input.chain st.db ((st.db.cursor : Int) - 1) = false)
    : Metered cfg (utxoApplyDrainSteps cfg st inputs).1
        (folded ++ (utxoApplyDrainSteps cfg st inputs).2.2) := by
  induction inputs generalizing st folded with
  | nil => simpa [utxoApplyDrainSteps] using metered
  | cons input rest ih =>
    have quietHere : st.shouldAudit = true →
        utxoApplyReorgDetectDivergence input.chain st.db ((st.db.cursor : Int) - 1)
          = false := by
      intro audits
      rcases quiet with audited | quiet
      · simp [StageState.shouldAudit, batched, audited] at audits
      · exact quiet input rfl
    obtain ⟨after, stillBatched, isAudited⟩ :=
      metered.step isLive (faultless input List.mem_cons_self) quietHere
    rw [utxoApplyDrainSteps]
    split
    · rw [← List.append_assoc]
      exact ih after (stillBatched.trans batched)
        (List.forall_mem_cons.mp faultless).2 (.inl isAudited)
    · exact after

end Metered

-- Double spends in a drain

/--
The row meter covers the whole call: a batch is open, the overlay is off, the lookup is the live
one, the reorg audit of the batch finds no divergence, and the store answers every statement.
-/
structure Armed (cfg : StageConfig) (st : StageState) (call : DrainCall) : Prop where
  begins : call.begins = true
  off : st.db.store.overlay = none
  isLive : cfg.lookup = .live
  forward
    : ∀ input ∈ call.steps.head?,
        utxoApplyReorgDetectDivergence input.chain st.db ((st.db.cursor : Int) - 1) = false
  faultless : ∀ input ∈ call.steps, input.fault = .none

/-- The block on offer, if any, names no outpoint twice. -/
def Offer.OffersOnce (offer : Offer) : Prop :=
  ∀ phashBlock blk shielded violates,
    offer = .block phashBlock blk shielded violates → SpendsOnce blk

theorem utxoApplyStageStepOnce_folded {cfg : StageConfig} {st : StageState} {input : StepInput}
    {blk : Block} (member : blk ∈ (utxoApplyStageStepOnce cfg st input).folded)
    : ∃ phashBlock shielded violates,
        input.offer = .block phashBlock blk shielded violates := by
  rw [utxoApplyStageStepOnce] at member
  split at member
  · simp at member
  · rename_i audited _
    have folded : blk ∈ (stageRunOnce cfg input.fault audited input.offer).folded := by
      simp only at member
      split at member <;> exact member
    have cases := stageRunOnce_cases cfg input.fault audited input.offer
    generalize stageRunOnce cfg input.fault audited input.offer = outcome at cases folded
    cases cases with
    | folded authors step =>
      obtain rfl := List.mem_singleton.mp folded
      obtain ⟨phashBlock, nullifiers, anchors, pool, violates, offered⟩ := authors.offered
      exact ⟨_, _, _, offered⟩
    | _ => simp at folded

theorem utxoApplyDrainSteps_folded {cfg : StageConfig} {st : StageState} {inputs : List StepInput}
    {blk : Block} (member : blk ∈ (utxoApplyDrainSteps cfg st inputs).2.2)
    : ∃ input ∈ inputs, ∃ phashBlock shielded violates,
        input.offer = .block phashBlock blk shielded violates := by
  induction inputs generalizing st with
  | nil => simp [utxoApplyDrainSteps] at member
  | cons input rest ih =>
    rw [utxoApplyDrainSteps] at member
    split at member
    · rcases List.mem_append.mp member with here | later
      · exact ⟨input, List.mem_cons_self, utxoApplyStageStepOnce_folded here⟩
      · obtain ⟨other, inRest, offered⟩ := ih later
        exact ⟨other, List.mem_cons_of_mem _ inRest, offered⟩
    · exact ⟨input, List.mem_cons_self, utxoApplyStageStepOnce_folded member⟩

theorem Armed.metered {cfg : StageConfig} {st : StageState} {call : DrainCall}
    (armed : Armed cfg st call)
    : Metered cfg (utxoApplyDrainBatchOpen cfg st) [] := by
  have off := armed.off
  simp only [utxoApplyDrainBatchOpen, armed.isLive, reducerCommitInvariantsBatchBegin, ciWipe,
    StageState.setStore, coinsKvDeltaCancel, off]
  exact {
    off := rfl
    active := rfl
    forward := rfl
    counted := rfl
    level := ⟨0, rfl, le_refl _, by simp⟩
    touched := by simp
  }

theorem utxoApplyDrainBatchClose_folded {saved : ApplyDb} {commits : Bool}
    {ran : StageState × Nat × List Block} {blk : Block}
    (member : blk ∈ (utxoApplyDrainBatchClose saved commits ran).folded)
    : blk ∈ ran.2.2 ∧ ran.1.window.verdict ran.1.db.store.meter = true := by
  obtain ⟨st, advanced, folded⟩ := ran
  simp only [utxoApplyDrainBatchClose] at member
  split at member
  · split at member
    · rename_i closed
      simp only [reducerCommitInvariantsVerify, Bool.and_eq_true] at closed
      exact ⟨member, closed.1⟩
    · simp at member
  · simp at member

/-- The call is covered by the meter, or no block on offer names an outpoint twice. -/
def DrainGuarded (cfg : StageConfig) (st : StageState) (call : DrainCall) : Prop :=
  Armed cfg st call ∨ ∀ input ∈ call.steps, input.offer.OffersOnce

theorem DrainGuarded.spendsOnce {cfg : StageConfig} {st : StageState} {call : DrainCall}
    (guarded : DrainGuarded cfg st call)
    : ∀ blk ∈ (utxoApplyStageDrain cfg st call).folded,
        blk.hash ≠ cfg.apply.params.hashGenesisBlock → SpendsOnce blk := by
  intro blk member notGenesis
  rw [utxoApplyStageDrain] at member
  rcases guarded with armed | offersOnce
  · rw [if_pos armed.begins] at member
    obtain ⟨folded, passed⟩ := utxoApplyDrainBatchClose_folded member
    have metered := armed.metered
    obtain ⟨window, meter, opened⟩ := utxoApplyDrainBatchOpen_frame cfg st
    rw [opened] at metered folded passed
    have after := metered.drainSteps armed.isLive rfl armed.faultless (.inr armed.forward)
    exact after.spendsOnce passed blk folded notGenesis
  · have offered : ∃ input ∈ call.steps, ∃ phashBlock shielded violates,
        input.offer = .block phashBlock blk shielded violates := by
      split at member
      · exact utxoApplyDrainSteps_folded (utxoApplyDrainBatchClose_folded member).1
      · exact utxoApplyDrainSteps_folded member
    obtain ⟨input, inSteps, phashBlock, shielded, violates, offer⟩ := offered
    exact offersOnce input inSteps phashBlock blk shielded violates offer

/-- Any number of calls in a row, with the blocks that they leave committed. -/
def utxoApplyStageDrains (cfg : StageConfig) (st : StageState)
    : List DrainCall → StageState × List Block
  | [] => (st, [])
  | call :: rest =>
    let outcome := utxoApplyStageDrain cfg st call
    let (final, folded) := utxoApplyStageDrains cfg outcome.state rest
    (final, outcome.folded ++ folded)

/-- Every call of the run is guarded in the state it starts from. -/
def DrainsGuarded (cfg : StageConfig) (st : StageState) : List DrainCall → Prop
  | [] => True
  | call :: rest =>
    DrainGuarded cfg st call ∧ DrainsGuarded cfg (utxoApplyStageDrain cfg st call).state rest

/--
No run of drains commits a block that spends an outpoint twice, as long as the row meter covers
each call or no such block is on offer in it.
-/
theorem utxoApplyStageDrains_spendsOnce {cfg : StageConfig} {st : StageState}
    {calls : List DrainCall} (guarded : DrainsGuarded cfg st calls)
    : ∀ blk ∈ (utxoApplyStageDrains cfg st calls).2,
        blk.hash ≠ cfg.apply.params.hashGenesisBlock → SpendsOnce blk := by
  induction calls generalizing st with
  | nil => simp [utxoApplyStageDrains]
  | cons call rest ih =>
    intro blk member
    rcases List.mem_append.mp member with here | later
    · exact guarded.1.spendsOnce blk here
    · exact ih guarded.2 blk later

/-- The sample coins at height 200, with the overlay off or empty. -/
def sampleState (overlay : Option (Table Outpoint (Option Coin))) : StageState where
  db := { sampleDb with store := ⟨sampleCoins, overlay, none⟩ }
  window := {}
  batchOpen := false
  dirty := false
  audited := false

/-- A committing call that offers one block. -/
def sampleCall (blk : Block) : DrainCall where
  steps := [⟨otherChain 8, .none, .block blk.hash blk (.accept [] [] none) false, .none, false⟩]
  begins := true
  commits := true

/-- The chained block passes the armed meter. -/
theorem utxoApplyStageDrains_spendsOnce_chained
    : (utxoApplyStageDrains sampleStageConfig (sampleState none) [sampleCall chainedBlock]).2
          = [chainedBlock]
        ∧ SpendsOnce chainedBlock := by
  have committed : (utxoApplyStageDrains sampleStageConfig (sampleState none)
      [sampleCall chainedBlock]).2 = [chainedBlock] := by
    decide +kernel
  have armed : Armed sampleStageConfig (sampleState none) (sampleCall chainedBlock) := {
    begins := rfl
    off := rfl
    isLive := rfl
    forward := by simp [sampleCall]; decide +kernel
    faultless := by simp [sampleCall]
  }
  have guarded : DrainsGuarded sampleStageConfig (sampleState none) [sampleCall chainedBlock] :=
    ⟨.inl armed, trivial⟩
  refine ⟨committed, utxoApplyStageDrains_spendsOnce guarded chainedBlock ?_ (by decide)⟩
  rw [committed]
  exact List.mem_singleton_self _

/-- With the overlay on, the drain commits a block that spends one outpoint twice. -/
theorem utxoApplyStageDrains_double_spend
    : (utxoApplyStageDrain sampleStageConfig (sampleState (some ∅))
          (sampleCall doubleSpendBlock)).committed = true
        ∧ (utxoApplyStageDrain sampleStageConfig (sampleState (some ∅))
            (sampleCall doubleSpendBlock)).folded = [doubleSpendBlock]
        ∧ (∀ tx ∈ doubleSpendBlock.vtx, (tx.vin.map TxIn.prevout).Nodup)
        ∧ ¬ SpendsOnce doubleSpendBlock := by
  refine ⟨by decide +kernel, by decide +kernel, by decide +kernel, ?_⟩
  rw [SpendsOnce]
  decide +kernel

end Z23.Jobs
