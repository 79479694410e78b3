import Z23.Jobs.UtxoApplyDrain

/-!
The coin set after a rollback. SQLite undoes the coins table but not the RAM overlay, so the
coin set that lookups see survives a rollback exactly while the overlay is off or the undone
part left the set as it was.
-/

namespace Z23.Jobs

open Z23.Lib.FiniteMap Z23.Storage

-- Where writes go

/-- The two stores answer every lookup alike. -/
def SameCoins (now saved : CoinStore) : Prop :=
  ∀ op, coinsKvGetPrevout now op = coinsKvGetPrevout saved op

theorem SameCoins.trans {first second third : CoinStore} (left : SameCoins first second)
    (right : SameCoins second third) : SameCoins first third :=
  fun op => (left op).trans (right op)

/-- The store came from another one by writes: to the overlay while it is on, else to the table. -/
structure WrittenFrom (saved now : CoinStore) : Prop where
  mode : now.overlay.isSome = saved.overlay.isSome
  table : saved.overlay.isSome = true → now.coins = saved.coins

theorem WrittenFrom.refl (store : CoinStore) : WrittenFrom store store := ⟨rfl, fun _ => rfl⟩

theorem WrittenFrom.trans {first second third : CoinStore} (left : WrittenFrom first second)
    (right : WrittenFrom second third) : WrittenFrom first third where
  mode := right.mode.trans left.mode
  table on := (right.table (left.mode.trans on)).trans (left.table on)

theorem writtenFrom_foldl {α : Type} {write : CoinStore → α → CoinStore}
    (writes : ∀ store row, WrittenFrom store (write store row)) (rows : List α) (store : CoinStore)
    : WrittenFrom store (rows.foldl write store) := by
  induction rows generalizing store with
  | nil => exact .refl store
  | cons row rest ih => exact (writes store row).trans (ih (write store row))

theorem writtenFrom_add (store : CoinStore) (op : Outpoint) (coin : Coin)
    : WrittenFrom store (coinsKvAdd store op coin) := by
  cases active : store.overlay with
  | none => exact ⟨by simp [coinsKvAdd, active], by simp [active]⟩
  | some overlay => exact ⟨by simp [coinsKvAdd, active], by simp [coinsKvAdd, active]⟩

theorem writtenFrom_spend (store : CoinStore) (op : Outpoint)
    : WrittenFrom store (coinsKvSpend store op) := by
  cases active : store.overlay with
  | none => exact ⟨by simp [coinsKvSpend, active], by simp [active]⟩
  | some overlay => exact ⟨by simp [coinsKvSpend, active], by simp [coinsKvSpend, active]⟩

theorem writtenFrom_blobReplay {α : Type} {parse : List UInt8 → Option (α × List UInt8)}
    {write : CoinStore → α → CoinStore} (writes : ∀ store row, WrittenFrom store (write store row))
    (fuel : Nat) (blob : List UInt8) (store : CoinStore)
    : WrittenFrom store (blobReplay parse write fuel blob store).1 := by
  induction fuel generalizing blob store with
  | zero => cases blob <;> exact .refl store
  | succ fuel ih =>
    cases blob with
    | nil => exact .refl store
    | cons byte rest =>
      rw [blobReplay]
      split
      · exact .refl store
      · rename_i entry p parsed
        exact (writes store entry).trans (ih p (write store entry))

theorem writtenFrom_emitInverseDelta (db : ApplyDb) (height : Int)
    : WrittenFrom db.store (utxoApplyEmitInverseDelta db height).1.store := by
  have readd : ∀ blob, WrittenFrom db.store (inverseReaddSpent db.store blob).1 := by
    intro blob
    rw [inverseReaddSpent]
    exact writtenFrom_blobReplay
      (fun store (row : Outpoint × Coin) => writtenFrom_add store row.1 row.2) _ _ _
  rw [utxoApplyEmitInverseDelta]
  split
  · exact .refl _
  · rename_i row found
    have first := readd row.spentBlob
    split
    · rename_i store readded
      rwa [readded] at first
    · rename_i store readded
      rw [readded] at first
      exact first.trans (writtenFrom_blobReplay writtenFrom_spend _ row.addedBlob store)

theorem writtenFrom_inverseDeltas (db : ApplyDb) (first count : Nat)
    : WrittenFrom db.store (inverseDeltas db first count).1.store := by
  induction count generalizing db with
  | zero => exact .refl _
  | succ count ih =>
    have here := writtenFrom_emitInverseDelta db (first + count : Nat)
    rw [inverseDeltas]
    split
    · rename_i stopped emitted
      rwa [emitted] at here
    · rename_i next emitted
      rw [emitted] at here
      exact here.trans (ih next)

theorem writtenFrom_spendMany_addMany (store : CoinStore) (rows : List (Outpoint × Coin))
    (ops : List Outpoint)
    : WrittenFrom store (coinsKvSpendMany (coinsKvAddMany store rows) ops) :=
  (writtenFrom_foldl (fun store row => writtenFrom_add store row.1 row.2) rows store).trans
    (writtenFrom_foldl writtenFrom_spend ops _)

section

variable {saved now : CoinStore} (written : WrittenFrom saved now)
include written

theorem WrittenFrom.rollbackTo : WrittenFrom saved (CoinStore.rollbackTo now saved) where
  mode := written.mode
  table _ := rfl

theorem WrittenFrom.sameCoins_of_off (off : saved.overlay = none)
    : SameCoins (CoinStore.rollbackTo now saved) saved := by
  have nowOff : now.overlay = none := by
    have mode := written.mode
    rw [off, Option.isSome_none] at mode
    exact Option.isNone_iff_eq_none.mp (Option.isSome_eq_false_iff.mp mode)
  intro op
  simp [coinsKvGetPrevout, CoinStore.rollbackTo, nowOff, off]

theorem WrittenFrom.sameCoins_of_on (on : saved.overlay.isSome = true)
    : SameCoins (CoinStore.rollbackTo now saved) now := by
  intro op
  simp only [coinsKvGetPrevout, CoinStore.rollbackTo, written.table on]

end

-- Steps and drains

theorem Unwinds.writtenFrom {chain : ChainView} {db after : ApplyDb} {fork : Int}
    (unwinds : Unwinds chain db after fork)
    : WrittenFrom db.store after.store := by
  have loop := writtenFrom_inverseDeltas db (fork + 1).toNat (db.cursor - (fork + 1).toNat)
  have wrote := unwinds.wrote
  simp only [utxoApplyReorgUnwindWrites] at wrote
  split at wrote
  · simp at wrote
  · rename_i reached undone
    rw [undone] at loop
    obtain ⟨rfl, -⟩ := Prod.mk.inj wrote
    exact loop

theorem writtenFrom_audit (st : StageState) (input : StepInput)
    : WrittenFrom st.db.store (utxoApplyReorgAudit st input).1.db.store := by
  rw [utxoApplyReorgAudit]
  split
  · have cases := utxoApplyReorgUnwindIfNeeded_cases input.chain input.unwindFault st.db
    generalize utxoApplyReorgUnwindIfNeeded input.chain input.unwindFault st.db = ran at cases ⊢
    obtain ⟨db, outcome⟩ := ran
    have written : WrittenFrom st.db.store db.store := by
      cases cases with
      | idle => exact .refl _
      | rolledBack first count diverged =>
        exact (writtenFrom_inverseDeltas st.db first count).rollbackTo
      | unwound diverged unwinds => exact unwinds.writtenFrom
    cases outcome <;> exact written
  · exact .refl _

theorem RunCases.writtenFrom {cfg : StageConfig} {fault : StepFault} {st : StageState}
    {offer : Offer} {outcome : StepOutcome} (ran : RunCases cfg fault st offer outcome)
    : WrittenFrom st.db.store outcome.state.db.store := by
  cases ran with
  | untouched violates result stays nothing => exact .refl _
  | torn violates authors struck => exact (writtenFrom_spendMany_addMany _ _ _).rollbackTo
  | undone violates authors => exact (writtenFrom_spendMany_addMany _ _ _).rollbackTo
  | skipped offered skip => exact .refl _
  | folded authors step =>
    rw [step.store]
    exact writtenFrom_spendMany_addMany _ _ _

/-- The state in which the step of a call runs, after its audit. -/
def StageState.audit (st : StageState) (input : StepInput) : StageState :=
  (utxoApplyReorgAudit st input).1

theorem writtenFrom_stepOnce (cfg : StageConfig) (st : StageState) (input : StepInput)
    : WrittenFrom st.db.store (utxoApplyStageStepOnce cfg st input).state.db.store := by
  have audit := writtenFrom_audit st input
  rw [utxoApplyStageStepOnce]
  split
  · rename_i audited refused
    rwa [refused] at audit
  · rename_i audited passed
    rw [passed] at audit
    have ran := (stageRunOnce_cases cfg input.fault audited input.offer).writtenFrom
    simp only
    split <;> exact audit.trans ran

theorem writtenFrom_drainSteps (cfg : StageConfig) (st : StageState) (inputs : List StepInput)
    : WrittenFrom st.db.store (utxoApplyDrainSteps cfg st inputs).1.db.store := by
  induction inputs generalizing st with
  | nil => exact .refl _
  | cons input rest ih =>
    have here := writtenFrom_stepOnce cfg st input
    rw [utxoApplyDrainSteps]
    split
    · exact here.trans (ih _)
    · exact here

-- Deltas that leave the coin set as it is

/-- The block creates exactly the outpoints that it spends. -/
def Balanced (s : DeltaSummary) : Prop :=
  ∀ op, op ∈ s.added.map DeltaEntry.outpoint ↔ op ∈ s.spent.map DeltaEntry.outpoint

theorem Authored.appliedTable_eq_iff {cfg : ApplyConfig} {coins : CoinTable} {blk : Block}
    {s : DeltaSummary} (authored : Authored cfg coins blk s) (height : UInt32)
    : appliedTable coins s height = coins ↔ Balanced s := by
  have absent : ∀ op ∈ s.added.map DeltaEntry.outpoint, op ∉ coins := by
    intro op member
    obtain ⟨e, inAdded, rfl⟩ := List.mem_map.mp member
    exact authored.fresh e inAdded
  constructor
  · intro same op
    constructor
    · intro inAdded
      by_contra notSpent
      have kept : op ∈ appliedTable coins s height := by
        rw [← Finmap.lookup_isSome, appliedTable, lookup_dropAll, if_neg notSpent,
          Finmap.lookup_isSome, withAdded, mem_putAll, map_fst_addRow]
        exact .inl inAdded
      exact absent op inAdded (same ▸ kept)
    · intro inSpent
      obtain ⟨e, member, rfl⟩ := List.mem_map.mp inSpent
      have gone : coins.lookup e.outpoint = none := by
        rw [← same, appliedTable, lookup_dropAll, if_pos inSpent]
      exact (authored.known e member).resolve_right (Finmap.lookup_eq_none.mp gone)
  · intro balanced
    apply Finmap.ext_lookup
    intro op
    rw [appliedTable, lookup_dropAll]
    split
    · rename_i inSpent
      exact (Finmap.lookup_eq_none.mpr (absent op ((balanced op).mpr inSpent))).symm
    · rename_i notSpent
      rw [withAdded, lookup_putAll_of_notMem]
      rw [map_fst_addRow]
      exact fun inAdded => notSpent ((balanced op).mp inAdded)

theorem Authors.sameCoins_iff {cfg : StageConfig} {st : StageState} {offer : Offer}
    {blk : Block} (isLive : cfg.lookup = .live) (authors : Authors cfg st offer blk)
    : SameCoins
          (applyCoinsKv st.db.store (st.deltaOf cfg blk) (UInt32.ofNat st.db.cursor))
          st.db.store
        ↔ Balanced (st.deltaOf cfg blk) := by
  obtain ⟨coins, presents⟩ := st.db.store.exists_presents
  have authored := StageState.deltaOf_authored isLive presents authors.accepted
  have applied := applyCoinsKv_presents presents authored.scripts (UInt32.ofNat st.db.cursor)
  rw [← authored.appliedTable_eq_iff (UInt32.ofNat st.db.cursor)]
  constructor
  · intro same
    exact applied.unique fun op => (same op).trans (presents op)
  · intro same op
    rw [applied op, presents op, same]

-- Rolled-back steps and batches

/-- Whatever one call rolls back by itself leaves the coin set alone. -/
structure StepKeeps (cfg : StageConfig) (st : StageState) (input : StepInput) : Prop where
  unwind
    : (utxoApplyReorgAudit st input).2 = false →
        SameCoins (st.audit input).db.store st.db.store
  step
    : (stageRunOnce cfg input.fault (st.audit input) input.offer).result ≠ .advanced →
        SameCoins (stageRunOnce cfg input.fault (st.audit input) input.offer).state.db.store
          (st.audit input).db.store

/-- Every call that the drain loop makes does so. -/
def StepsKeep (cfg : StageConfig) (st : StageState) : List StepInput → Prop
  | [] => True
  | input :: rest =>
    StepKeeps cfg st input
      ∧ ((utxoApplyStageStepOnce cfg st input).result = .advanced →
          StepsKeep cfg (utxoApplyStageStepOnce cfg st input).state rest)

/-- The state in which the drain loop starts. -/
def DrainCall.start (call : DrainCall) (cfg : StageConfig) (st : StageState) : StageState :=
  if call.begins then utxoApplyDrainBatchOpen cfg st else st

/-- No rollback of the drain, of a step or of the whole batch, changes the coin set. -/
structure DrainKeeps (cfg : StageConfig) (st : StageState) (call : DrainCall) : Prop where
  steps : StepsKeep cfg (call.start cfg st) call.steps
  batch
    : call.begins = true → (utxoApplyStageDrain cfg st call).committed = false →
        SameCoins (utxoApplyStageDrain cfg st call).state.db.store st.db.store

/-- The call finds no divergence and authors no unbalanced or torn delta. -/
structure Neutral (cfg : StageConfig) (st : StageState) (input : StepInput) : Prop where
  quiet
    : st.shouldAudit = true →
        utxoApplyReorgDetectDivergence input.chain st.db ((st.db.cursor : Int) - 1) = false
  balanced : ∀ blk, Authors cfg st input.offer blk → Balanced (st.deltaOf cfg blk)
  whole
    : ∀ blk rows, Authors cfg st input.offer blk → input.fault = .coins rows →
        (st.deltaOf cfg blk).added = []

def StepsNeutral (cfg : StageConfig) (st : StageState) : List StepInput → Prop
  | [] => True
  | input :: rest =>
    Neutral cfg st input
      ∧ ((utxoApplyStageStepOnce cfg st input).result = .advanced →
          StepsNeutral cfg (utxoApplyStageStepOnce cfg st input).state rest)

section Off

variable {cfg : StageConfig} {st : StageState}

theorem WrittenFrom.off {saved now : CoinStore} (written : WrittenFrom saved now)
    (off : saved.overlay = none) : now.overlay = none := by
  have mode := written.mode
  rw [off, Option.isSome_none] at mode
  exact Option.isNone_iff_eq_none.mp (Option.isSome_eq_false_iff.mp mode)

theorem audit_refused_cases {input : StepInput} (refused : (utxoApplyReorgAudit st input).2 = false)
    : (st.audit input).db = st.db
        ∨ ∃ first count, (st.audit input).db
            = (inverseDeltas st.db first count).1.rollbackTo st.db := by
  rw [StageState.audit, utxoApplyReorgAudit] at *
  split at refused
  · rename_i audits
    rw [if_pos audits]
    have cases := utxoApplyReorgUnwindIfNeeded_cases input.chain input.unwindFault st.db
    generalize utxoApplyReorgUnwindIfNeeded input.chain input.unwindFault st.db = ran
      at cases refused ⊢
    obtain ⟨db, outcome⟩ := ran
    cases cases with
    | idle outcome still => cases outcome <;> exact .inl rfl
    | rolledBack first count diverged => exact .inr ⟨first, count, rfl⟩
    | unwound diverged unwinds => simp at refused
  · simp at refused

theorem stepKeeps_of_off (off : st.db.store.overlay = none) (input : StepInput)
    : StepKeeps cfg st input where
  unwind refused := by
    rcases audit_refused_cases refused with same | ⟨first, count, rolledBack⟩
    · rw [same]
      exact fun op => rfl
    · rw [rolledBack]
      exact (writtenFrom_inverseDeltas st.db first count).sameCoins_of_off off
  step stays := by
    have auditOff := (writtenFrom_audit st input).off off
    have cases := stageRunOnce_cases cfg input.fault (st.audit input) input.offer
    generalize stageRunOnce cfg input.fault (st.audit input) input.offer = outcome
      at cases stays ⊢
    cases cases with
    | untouched violates result stays nothing => exact fun op => rfl
    | torn violates authors struck =>
      exact (writtenFrom_spendMany_addMany _ _ _).sameCoins_of_off auditOff
    | undone violates authors =>
      exact (writtenFrom_spendMany_addMany _ _ _).sameCoins_of_off auditOff
    | skipped offered skip => exact absurd rfl stays
    | folded authors step => exact absurd rfl stays

theorem stepsKeep_of_off (off : st.db.store.overlay = none) (inputs : List StepInput)
    : StepsKeep cfg st inputs := by
  induction inputs generalizing st with
  | nil => trivial
  | cons input rest ih =>
    exact ⟨stepKeeps_of_off off input, fun _ => ih ((writtenFrom_stepOnce cfg st input).off off)⟩

end Off

section Neutral

variable {cfg : StageConfig} {st : StageState} {input : StepInput}

theorem Neutral.audit_eq (neutral : Neutral cfg st input)
    : st.audit input = { st with audited := true } :=
  utxoApplyReorgAudit_quiet neutral.quiet

section

variable (isLive : cfg.lookup = .live)
include isLive

theorem Neutral.run_sameCoins (on : st.db.store.overlay.isSome = true)
    (neutral : Neutral cfg st input)
    : SameCoins (stageRunOnce cfg input.fault (st.audit input) input.offer).state.db.store
        st.db.store := by
  rw [neutral.audit_eq]
  have cases := stageRunOnce_cases cfg input.fault { st with audited := true } input.offer
  generalize stageRunOnce cfg input.fault { st with audited := true } input.offer = outcome
    at cases ⊢
  have applied : ∀ blk, Authors cfg { st with audited := true } input.offer blk →
      SameCoins (applyCoinsKv st.db.store (st.deltaOf cfg blk) (UInt32.ofNat st.db.cursor))
        st.db.store := by
    intro blk authors
    have here : Authors cfg st input.offer blk :=
      ⟨authors.inRange, authors.accepted, authors.offered⟩
    exact (here.sameCoins_iff isLive).mpr (neutral.balanced blk here)
  cases cases with
  | untouched violates result stays nothing => exact fun op => rfl
  | skipped offered skip => exact fun op => rfl
  | @torn blk rows violates authors struck =>
    have here : Authors cfg st input.offer blk :=
      ⟨authors.inRange, authors.accepted, authors.offered⟩
    have noneAdded := neutral.whole blk rows here struck
    have noneSpent : (st.deltaOf cfg blk).spent.map DeltaEntry.outpoint = [] := by
      rw [List.eq_nil_iff_forall_not_mem]
      intro op member
      have inAdded := (neutral.balanced blk here op).mpr member
      rw [noneAdded] at inAdded
      simp at inAdded
    have unwritten : applyCoinsKvPartial st.db.store (st.deltaOf cfg blk)
        (UInt32.ofNat st.db.cursor) rows = st.db.store := by
      rw [applyCoinsKvPartial, noneAdded, noneSpent]
      simp [coinsKvSpendMany, coinsKvAddMany]
    exact ((writtenFrom_spendMany_addMany _ _ _).sameCoins_of_on on).trans
      (fun op => congrArg (coinsKvGetPrevout · op) unwritten)
  | undone violates authors =>
    exact ((writtenFrom_spendMany_addMany _ _ _).sameCoins_of_on on).trans (applied _ authors)
  | folded authors step =>
    rw [step.store]
    exact applied _ authors

theorem Neutral.step_sameCoins (on : st.db.store.overlay.isSome = true)
    (neutral : Neutral cfg st input)
    : SameCoins (utxoApplyStageStepOnce cfg st input).state.db.store st.db.store := by
  have run := neutral.run_sameCoins isLive on
  have audit := neutral.audit_eq
  rw [StageState.audit] at run audit
  rw [utxoApplyStageStepOnce]
  split
  · rename_i audited refused
    rw [refused] at audit
    rw [show audited = { st with audited := true } from audit]
    exact fun op => rfl
  · rename_i audited passed
    rw [passed] at run
    simp only
    split <;> exact run

theorem Neutral.stepKeeps (on : st.db.store.overlay.isSome = true) (neutral : Neutral cfg st input)
    : StepKeeps cfg st input where
  unwind _ := by
    rw [neutral.audit_eq]
    exact fun op => rfl
  step _ := by
    have run := neutral.run_sameCoins isLive on
    rw [neutral.audit_eq] at run ⊢
    exact run

theorem StepsNeutral.keeps {inputs : List StepInput} (on : st.db.store.overlay.isSome = true)
    (neutral : StepsNeutral cfg st inputs)
    : StepsKeep cfg st inputs
        ∧ SameCoins (utxoApplyDrainSteps cfg st inputs).1.db.store st.db.store := by
  induction inputs generalizing st with
  | nil => exact ⟨trivial, fun op => rfl⟩
  | cons input rest ih =>
    have here := neutral.1.step_sameCoins isLive on
    have stillOn := (writtenFrom_stepOnce cfg st input).mode.trans on
    refine ⟨⟨neutral.1.stepKeeps isLive on, fun advanced => ?_⟩, ?_⟩
    · exact (ih stillOn (neutral.2 advanced)).1
    · rw [utxoApplyDrainSteps]
      split
      · rename_i advanced
        exact (ih stillOn (neutral.2 advanced)).2.trans here
      · exact here

end

end Neutral

theorem utxoApplyDrainBatchClose_refused {saved : ApplyDb} {commits : Bool}
    {ran : StageState × Nat × List Block}
    (refused : (utxoApplyDrainBatchClose saved commits ran).committed = false)
    : SameCoins (utxoApplyDrainBatchClose saved commits ran).state.db.store
        (CoinStore.rollbackTo ran.1.db.store saved.store) := by
  obtain ⟨st, advanced, folded⟩ := ran
  simp only [utxoApplyDrainBatchClose] at refused ⊢
  split at refused
  · rename_i wanted
    rw [if_pos wanted]
    split at refused
    · simp at refused
    · rename_i notClosed
      rw [if_neg notClosed]
      exact fun op => rfl
  · rename_i notWanted
    rw [if_neg notWanted]
    exact fun op => rfl

theorem DrainCall.start_frame (call : DrainCall) (cfg : StageConfig) (st : StageState)
    : (call.start cfg st).db.store.overlay = st.db.store.overlay
        ∧ SameCoins (call.start cfg st).db.store st.db.store := by
  rw [DrainCall.start]
  split
  · obtain ⟨window, meter, opened⟩ := utxoApplyDrainBatchOpen_frame cfg st
    rw [opened]
    exact ⟨rfl, fun op => rfl⟩
  · exact ⟨rfl, fun op => rfl⟩

theorem utxoApplyStageDrain_refused {cfg : StageConfig} {st : StageState} {call : DrainCall}
    (begins : call.begins = true) (refused : (utxoApplyStageDrain cfg st call).committed = false)
    : SameCoins (utxoApplyStageDrain cfg st call).state.db.store
        (CoinStore.rollbackTo
          (utxoApplyDrainSteps cfg (call.start cfg st) call.steps).1.db.store
          (call.start cfg st).db.store) := by
  rw [utxoApplyStageDrain, if_pos begins] at refused ⊢
  rw [DrainCall.start, if_pos begins]
  exact utxoApplyDrainBatchClose_refused refused

theorem drainKeeps_of_off {cfg : StageConfig} {st : StageState} {call : DrainCall}
    (off : st.db.store.overlay = none)
    : DrainKeeps cfg st call := by
  obtain ⟨sameOverlay, sameStart⟩ := call.start_frame cfg st
  have startOff := sameOverlay.trans off
  refine ⟨stepsKeep_of_off startOff call.steps, fun begins refused => ?_⟩
  have written := writtenFrom_drainSteps cfg (call.start cfg st) call.steps
  exact ((utxoApplyStageDrain_refused begins refused).trans
    (written.sameCoins_of_off startOff)).trans sameStart

theorem StepsNeutral.drainKeeps {cfg : StageConfig} {st : StageState} {call : DrainCall}
    (isLive : cfg.lookup = .live) (on : st.db.store.overlay.isSome = true)
    (neutral : StepsNeutral cfg (call.start cfg st) call.steps)
    : DrainKeeps cfg st call := by
  obtain ⟨sameOverlay, sameStart⟩ := call.start_frame cfg st
  have startOn : (call.start cfg st).db.store.overlay.isSome = true := by rw [sameOverlay, on]
  obtain ⟨steps, sameFinal⟩ := neutral.keeps isLive startOn
  refine ⟨steps, fun begins refused => ?_⟩
  have written := writtenFrom_drainSteps cfg (call.start cfg st) call.steps
  exact (((utxoApplyStageDrain_refused begins refused).trans
    (written.sameCoins_of_on startOn)).trans sameFinal).trans sameStart

/-- A batch of one call that is refused at its end. -/
def refusedCall (input : StepInput) : DrainCall := ⟨[input], true, false⟩

theorem Authors.run_sameCoins {cfg : StageConfig} {st : StageState} {offer : Offer}
    {fault : StepFault} {blk : Block} (on : st.db.store.overlay.isSome = true)
    (whole : ∀ rows, fault ≠ .coins rows) (authors : Authors cfg st offer blk)
    : SameCoins (stageRunOnce cfg fault st offer).state.db.store
        (applyCoinsKv st.db.store (st.deltaOf cfg blk) (UInt32.ofNat st.db.cursor)) := by
  have sameBlock : ∀ other, Authors cfg st offer other → other = blk := by
    intro other also
    obtain ⟨_, _, _, _, _, first⟩ := authors.offered
    obtain ⟨_, _, _, _, _, second⟩ := also.offered
    rw [first] at second
    simp only [Offer.block.injEq] at second
    exact second.2.1.symm
  have cases := stageRunOnce_cases cfg fault st offer
  generalize stageRunOnce cfg fault st offer = outcome at cases ⊢
  cases cases with
  | untouched violates result stays nothing => exact absurd authors (nothing blk)
  | torn violates also struck => exact absurd struck (whole _)
  | undone violates also =>
    obtain rfl := sameBlock _ also
    exact (writtenFrom_spendMany_addMany _ _ _).sameCoins_of_on on
  | skipped offered skip =>
    obtain rfl := (offered ▸ authors).offered_block.1
    rw [authors.accepted.2] at skip
    simp at skip
  | folded also step =>
    obtain rfl := sameBlock _ also
    rw [step.store]
    exact fun op => rfl

theorem utxoApplyReorgAudit_passes {st : StageState} {input : StepInput}
    (inRange : st.db.cursor ≤ int32Max)
    (quiet : utxoApplyReorgDetectDivergence input.chain st.db ((st.db.cursor : Int) - 1) = false)
    : utxoApplyReorgAudit st input = ({ st with audited := true }, true) := by
  have nothing : utxoApplyReorgUnwindIfNeeded input.chain input.unwindFault st.db
      = (st.db, .nothingToDo) := by
    rw [utxoApplyReorgUnwindIfNeeded, utxoApplyReorgUnwindAbove]
    split
    · rfl
    · rw [if_neg (by omega), quiet]
      rfl
  refine Prod.ext (utxoApplyReorgAudit_quiet fun _ => quiet) ?_
  rw [utxoApplyReorgAudit]
  split
  · simp only [nothing]
    rfl
  · rfl

theorem utxoApplyDrainSteps_single {cfg : StageConfig} {st : StageState} {input : StepInput}
    (inRange : st.db.cursor ≤ int32Max)
    (quiet : utxoApplyReorgDetectDivergence input.chain st.db ((st.db.cursor : Int) - 1) = false)
    : (utxoApplyDrainSteps cfg st [input]).1
        = (stageRunOnce cfg input.fault { st with audited := true } input.offer).state := by
  have once : (utxoApplyStageStepOnce cfg st input).state
      = (stageRunOnce cfg input.fault { st with audited := true } input.offer).state := by
    rw [utxoApplyStageStepOnce, utxoApplyReorgAudit_passes inRange quiet]
    simp only
    split <;> rfl
  rw [utxoApplyDrainSteps, ← once]
  split <;> rfl

theorem authors_start_iff {cfg : StageConfig} (isLive : cfg.lookup = .live) (call : DrainCall)
    (st : StageState) (offer : Offer) (blk : Block)
    : (call.start cfg st).deltaOf cfg blk = st.deltaOf cfg blk
        ∧ (Authors cfg (call.start cfg st) offer blk ↔ Authors cfg st offer blk) := by
  rw [DrainCall.start]
  split
  · obtain ⟨window, meter, opened⟩ := utxoApplyDrainBatchOpen_frame cfg st
    have sameDelta : (utxoApplyDrainBatchOpen cfg st).deltaOf cfg blk = st.deltaOf cfg blk := by
      rw [StageState.deltaOf, StageState.deltaOf, isLive, opened]
      rfl
    refine ⟨sameDelta, fun authors => ?_, fun authors => ?_⟩
    · have inRange := authors.inRange
      rw [opened] at inRange
      exact ⟨inRange, sameDelta ▸ authors.accepted, authors.offered⟩
    · refine ⟨?_, sameDelta.symm ▸ authors.accepted, authors.offered⟩
      rw [opened]
      exact authors.inRange
  · exact ⟨rfl, Iff.rfl⟩

theorem quiet_start_iff (cfg : StageConfig) (call : DrainCall) (st : StageState) (chain : ChainView)
    : utxoApplyReorgDetectDivergence chain (call.start cfg st).db
          (((call.start cfg st).db.cursor : Int) - 1)
        = utxoApplyReorgDetectDivergence chain st.db ((st.db.cursor : Int) - 1) := by
  rw [DrainCall.start]
  split
  · obtain ⟨window, meter, opened⟩ := utxoApplyDrainBatchOpen_frame cfg st
    rw [opened]
    rfl
  · rfl

theorem refusedCall_keeps_iff {cfg : StageConfig} {st : StageState} {input : StepInput}
    (isLive : cfg.lookup = .live)
    (quiet : utxoApplyReorgDetectDivergence input.chain st.db ((st.db.cursor : Int) - 1) = false)
    (whole : ∀ rows, input.fault ≠ .coins rows)
    : DrainKeeps cfg st (refusedCall input)
        ↔ st.db.store.overlay = none
          ∨ ∀ blk, Authors cfg st input.offer blk → Balanced (st.deltaOf cfg blk) := by
  have started := authors_start_iff isLive (refusedCall input) st input.offer
  have quietStart := (quiet_start_iff cfg (refusedCall input) st input.chain).trans quiet
  obtain ⟨sameOverlay, sameStart⟩ := (refusedCall input).start_frame cfg st
  rcases Option.eq_none_or_eq_some st.db.store.overlay with off | ⟨overlay, active⟩
  · exact ⟨fun _ => .inl off, fun _ => drainKeeps_of_off off⟩
  have on : st.db.store.overlay.isSome = true := by rw [active, Option.isSome_some]
  have startOn := (congrArg Option.isSome sameOverlay).trans on
  constructor
  · intro keeps
    refine .inr fun blk authors => ?_
    rw [← (started blk).1]
    have authorsStart := (started blk).2.mpr authors
    have refused : (utxoApplyStageDrain cfg st (refusedCall input)).committed = false := by
      simp [utxoApplyStageDrain, refusedCall, utxoApplyDrainBatchClose]
    have written := writtenFrom_drainSteps cfg ((refusedCall input).start cfg st) [input]
    have undone := (utxoApplyStageDrain_refused rfl refused).trans
      (written.sameCoins_of_on startOn)
    rw [utxoApplyDrainSteps_single authorsStart.inRange quietStart] at undone
    have authorsAudited : Authors cfg
        { (refusedCall input).start cfg st with audited := true } input.offer blk :=
      ⟨authorsStart.inRange, authorsStart.accepted, authorsStart.offered⟩
    have applied := undone.trans (authorsAudited.run_sameCoins startOn whole)
    refine (authorsStart.sameCoins_iff isLive).mp fun op => ?_
    exact ((applied op).symm.trans (keeps.batch rfl refused op)).trans (sameStart op).symm
  · rintro (off | balanced)
    · rw [off] at active
      simp at active
    · refine StepsNeutral.drainKeeps isLive on ⟨⟨fun _ => quietStart, ?_, ?_⟩, fun _ => trivial⟩
      · intro blk authors
        rw [(started blk).1]
        exact balanced blk ((started blk).2.mp authors)
      · intro blk rows _ struck
        exact absurd struck (whole rows)

/--
No rollback of a drain changes the coin set that lookups see, as long as the overlay is off or
every call of the drain loop is neutral. For a single call this is exact.
-/
theorem utxoApplyStageDrain_rollback_keeps (cfg : StageConfig) (st : StageState)
    : (∀ call : DrainCall,
        st.db.store.overlay = none
            ∨ cfg.lookup = .live ∧ StepsNeutral cfg (call.start cfg st) call.steps →
          DrainKeeps cfg st call)
      ∧ ∀ input : StepInput, cfg.lookup = .live →
          utxoApplyReorgDetectDivergence input.chain st.db ((st.db.cursor : Int) - 1) = false →
          (∀ rows, input.fault ≠ .coins rows) →
          (DrainKeeps cfg st (refusedCall input)
            ↔ st.db.store.overlay = none
              ∨ ∀ blk, Authors cfg st input.offer blk → Balanced (st.deltaOf cfg blk)) := by
  refine ⟨?_, fun input isLive quiet whole => refusedCall_keeps_iff isLive quiet whole⟩
  rintro call (off | ⟨isLive, neutral⟩)
  · exact drainKeeps_of_off off
  · rcases Option.eq_none_or_eq_some st.db.store.overlay with off | ⟨overlay, active⟩
    · exact drainKeeps_of_off off
    · exact neutral.drainKeeps isLive (by rw [active, Option.isSome_some])

/-- The sample block is undone whole with the overlay off. -/
theorem utxoApplyStageDrain_rollback_keeps_off
    : (utxoApplyStageDrain sampleStageConfig (sampleState none)
          { sampleCall chainedBlock with commits := false }).committed = false
        ∧ DrainKeeps sampleStageConfig (sampleState none)
            { sampleCall chainedBlock with commits := false } :=
  ⟨by decide +kernel,
    (utxoApplyStageDrain_rollback_keeps sampleStageConfig (sampleState none)).1 _ (.inl rfl)⟩

/-- With the overlay on, the spent coin stays spent after the batch is rolled back. -/
theorem utxoApplyStageDrain_rollback_overlay
    : ¬ DrainKeeps sampleStageConfig (sampleState (some ∅))
        { sampleCall chainedBlock with commits := false } := by
  intro keeps
  have same := keeps.batch rfl (by decide +kernel) ⟨.fill 7, 0⟩
  revert same
  decide +kernel

end Z23.Jobs
