import Z23.Jobs.UtxoApplyReorg

/-!
One step of the utxo_apply stage: the reorg audit, the fold of the block at the cursor inside
its own savepoint, and the commit-invariant window that the step feeds.
-/

namespace Z23.Jobs

open Z23.Lib.FiniteMap Z23.Storage

-- The commit-invariant window

inductive JobResult where
  | advanced
  | idle
  | blocked
  | fatal
deriving DecidableEq, Repr

/--
The window of `reducer_commit_invariants`. `violation` is the one found at note time, a
duplicate nullifier or an anchor out of order; the row meter itself is in the coin store.
-/
structure CommitWindow where
  active : Bool := false
  reorg : Bool := false
  coinsTouched : Bool := false
  countGated : Bool := false
  expectedNet : Int := 0
  violation : Bool := false
deriving DecidableEq, Repr

def CommitWindow.noteCoins (window : CommitWindow) (added spent : Nat) : CommitWindow :=
  if !window.active || window.reorg then window
  else
    { window with
      coinsTouched := true
      expectedNet := window.expectedNet + ((added : Int) - (spent : Int)) }

/-- Models the notes of nullifiers and anchors; `violates` says whether one of them is out. -/
def CommitWindow.noteShielded (window : CommitWindow) (violates : Bool) : CommitWindow :=
  if !window.active || window.reorg then window
  else { window with violation := window.violation || violates }

def CommitWindow.noteReorg (window : CommitWindow) : CommitWindow :=
  if !window.active then window else { window with reorg := true }

/--
The reducer's state around one drain. `audited` says that the reorg audit of the open batch has
run; the batch generation in the source only serves to tell that.
-/
structure StageState where
  db : ApplyDb
  window : CommitWindow
  batchOpen : Bool
  dirty : Bool
  audited : Bool
deriving DecidableEq

-- The step body

/-- Models `utxo_apply_stage_lookup_live` over an open store. -/
def utxoApplyStageLookupLive (store : CoinStore) : LookupFn := fun op =>
  match coinsKvGetPrevout store op with
  | none => some {}
  | some coin =>
    if coin.script.length > utxoApplyScriptMax then none
    else
      some { found := true
             value := coin.value
             height := if coin.height < 0 then 0 else coin.height.toUInt32
             isCoinbase := coin.isCoinbase
             script := coin.script }

/-- The production resolver, or one installed by a test. -/
inductive StageLookup where
  | live
  | installed (lookup : LookupFn)

def StageLookup.over (lookup : StageLookup) (store : CoinStore) : LookupFn :=
  match lookup with
  | live => utxoApplyStageLookupLive store
  | installed fn => fn

structure StageConfig where
  apply : ApplyConfig
  lookup : StageLookup
  skipCrypto : Bool

/-- The verdict of the shielded history gate, the turnstile and the nullifier gate. -/
inductive ShieldedVerdict where
  | accept (nullifiers : List NullifierRow) (anchors : List AnchorRow)
      (pool : Option PoolTotals)
  | reject (status : ShieldedStatus)
  | hold
  | storeError
deriving DecidableEq, Repr

/--
What the gates before the delta hand to the step: a verdict that ends it, or the block selected
for the cursor with its index hash. `violates` is what the shielded notes add to the window.
-/
inductive Offer where
  | idle
  | blocked
  | fatal
  | block (phashBlock : Uint256) (blk : Block) (shielded : ShieldedVerdict) (violates : Bool)
deriving DecidableEq, Repr

/--
A store error inside the step: in `apply_coins_kv` after `rows` rows, or in a later statement
up to the release of the savepoint.
-/
inductive StepFault where
  | none
  | coins (rows : Nat)
  | afterCoins
deriving DecidableEq, Repr

structure StepOutcome where
  state : StageState
  result : JobResult
  folded : List Block

/-- The writes of `apply_coins_kv` up to an error. -/
def applyCoinsKvPartial (store : CoinStore) (s : DeltaSummary) (height : UInt32) (rows : Nat)
    : CoinStore :=
  coinsKvSpendMany
    (coinsKvAddMany store ((s.added.map (DeltaEntry.addRow height)).take rows))
    ((s.spent.map DeltaEntry.outpoint).take (rows - s.added.length))

def StageState.setStore (st : StageState) (store : CoinStore) : StageState :=
  { st with db := { st.db with store := store } }

/-- The row that `ua_write_apply_verdict` stores for the height. -/
def applyLogRow (status : ApplyStatus) (ok : Bool) (s : DeltaSummary) : ApplyLogRow :=
  { status := status
    ok := ok
    spentCount := s.spent.length
    addedCount := s.added.length
    totalValueDelta := s.totalValueDelta
    failureKind := s.failureKind
    failureDetail := s.failureDetail }

def StageState.refuse (st : StageState) (status : ApplyStatus) (s : DeltaSummary)
    : StepOutcome where
  state :=
    { st with
      db := { st.db with
              log := st.db.log.insert st.db.cursor (applyLogRow status false s) } }
  result := .blocked
  folded := []

/-- The part of the step after the coins are authored. -/
def uaCommitApplied (cfg : StageConfig) (st : StageState) (phashBlock : Uint256) (blk : Block)
    (s : DeltaSummary) (pool : Option PoolTotals) : StepOutcome :=
  let height := st.db.cursor
  match utxoApplyDeltaPersist st.db height phashBlock s with
  | none => ⟨st, .fatal, []⟩
  | some db =>
    let status := if cfg.skipCrypto then ApplyStatus.checkpointFold else .verified
    let db :=
      { db with
        poolTotals :=
          match pool with
          | none => db.poolTotals
          | some totals => db.poolTotals.insert (height : Int) totals
        log := db.log.insert (height : Int) (applyLogRow status true s)
        coinsAppliedHeight := some ((height : Int) + 1)
        cursor := height + 1 }
    ⟨{ st with db := db }, .advanced, [blk]⟩

/-- The part of the step after the shielded gates accepted the block. -/
def uaAuthorApplyCoins (cfg : StageConfig) (fault : StepFault) (st : StageState)
    (phashBlock : Uint256) (blk : Block) (s : DeltaSummary) (pool : Option PoolTotals)
    : StepOutcome :=
  let height := UInt32.ofNat st.db.cursor
  match fault with
  | .coins rows =>
    ⟨st.setStore (applyCoinsKvPartial st.db.store s height rows), .fatal, []⟩
  | .afterCoins =>
    let st := st.setStore (applyCoinsKv st.db.store s height)
    ⟨{ st with window := st.window.noteCoins s.added.length s.spent.length }, .fatal, []⟩
  | .none =>
    let st := st.setStore (applyCoinsKv st.db.store s height)
    uaCommitApplied cfg
      { st with window := st.window.noteCoins s.added.length s.spent.length }
      phashBlock blk s pool

/-- The delta that the step computes for a block. -/
def StageState.deltaOf (cfg : StageConfig) (st : StageState) (blk : Block) : DeltaSummary :=
  utxoApplyComputeBlockDelta cfg.apply blk (UInt32.ofNat st.db.cursor)
    (cfg.lookup.over st.db.store)

/-- Models `step_apply` and the cursor write after it, before the savepoint is closed. -/
def stepApply (cfg : StageConfig) (fault : StepFault) (st : StageState) (offer : Offer)
    : StepOutcome :=
  match offer with
  | .idle => ⟨st, .idle, []⟩
  | .blocked => ⟨st, .blocked, []⟩
  | .fatal => ⟨st, .fatal, []⟩
  | .block phashBlock blk shielded violates =>
    if st.db.cursor > int32Max then ⟨st, .fatal, []⟩
    else
      let s := st.deltaOf cfg blk
      if s.countOnlyD2Skip then
        ⟨{ st with db := { st.db with cursor := st.db.cursor + 1 } }, .advanced, []⟩
      else if !s.ok then st.refuse (.refused s.status) s
      else
        let st := { st with window := st.window.noteShielded violates }
        match shielded with
        | .storeError => ⟨st, .fatal, []⟩
        | .hold => ⟨st, .idle, []⟩
        | .reject status => st.refuse (.shielded status) s
        | .accept nullifiers anchors pool =>
          let db :=
            { st.db with
              nullifiers := st.db.nullifiers ++ nullifiers
              anchors := st.db.anchors ++ anchors }
          uaAuthorApplyCoins cfg fault { st with db := db } phashBlock blk s pool

/-- The end of the savepoint: any result but an advance undoes what is durable. -/
def stageStepClose (st : StageState) (step : StepOutcome) : StepOutcome :=
  match step.result with
  | .advanced => step
  | _ => { step with state := { step.state with db := step.state.db.rollbackTo st.db } }

def stageRunOnce (cfg : StageConfig) (fault : StepFault) (st : StageState) (offer : Offer)
    : StepOutcome :=
  stageStepClose st (stepApply cfg fault st offer)

/-- The step comes to author the coins of `blk`. -/
structure Authors (cfg : StageConfig) (st : StageState) (offer : Offer) (blk : Block)
    : Prop where
  inRange : st.db.cursor ≤ int32Max
  accepted : (st.deltaOf cfg blk).Accepted
  offered
    : ∃ phashBlock nullifiers anchors pool violates,
        offer = .block phashBlock blk (.accept nullifiers anchors pool) violates

/-- What a fold of `blk` that advances changes. -/
structure FoldedStep (cfg : StageConfig) (st next : StageState) (blk : Block) : Prop where
  store
    : next.db.store
        = applyCoinsKv st.db.store (st.deltaOf cfg blk) (UInt32.ofNat st.db.cursor)
  deltas
    : ∃ phashBlock : Uint256, next.db.deltas = st.db.deltas.insert (st.db.cursor : Int)
        ⟨phashBlock.data, serializeSpent (st.deltaOf cfg blk),
          serializeAdded (st.deltaOf cfg blk)⟩
  log : ∃ row, row.ok = true ∧ next.db.log = st.db.log.insert (st.db.cursor : Int) row
  cursor : next.db.cursor = st.db.cursor + 1
  frontier : next.db.coinsAppliedHeight = some ((st.db.cursor : Int) + 1)
  window
    : ∃ violates, next.window = (st.window.noteShielded violates).noteCoins
        (st.deltaOf cfg blk).added.length (st.deltaOf cfg blk).spent.length
  batchOpen : next.batchOpen = st.batchOpen
  dirty : next.dirty = st.dirty
  audited : next.audited = st.audited

/-- The whole of what a run of the step can do. -/
inductive RunCases (cfg : StageConfig) (fault : StepFault) (st : StageState) (offer : Offer)
    : StepOutcome → Prop where
  | untouched (violates : Bool) (result : JobResult) (stays : result ≠ .advanced)
      (nothing : ∀ blk, ¬ Authors cfg st offer blk)
      : RunCases cfg fault st offer
          ⟨{ st with window := st.window.noteShielded violates }, result, []⟩
  | torn {blk : Block} {rows : Nat} (violates : Bool) (authors : Authors cfg st offer blk)
      (struck : fault = .coins rows)
      : RunCases cfg fault st offer
          ⟨{ st with
              db := { st.db with
                      store := CoinStore.rollbackTo
                        (applyCoinsKvPartial st.db.store (st.deltaOf cfg blk)
                          (UInt32.ofNat st.db.cursor) rows) st.db.store }
              window := st.window.noteShielded violates }, .fatal, []⟩
  | undone {blk : Block} (violates : Bool) (authors : Authors cfg st offer blk)
      : RunCases cfg fault st offer
          ⟨{ st with
              db := { st.db with
                      store := CoinStore.rollbackTo
                        (applyCoinsKv st.db.store (st.deltaOf cfg blk)
                          (UInt32.ofNat st.db.cursor)) st.db.store }
              window := (st.window.noteShielded violates).noteCoins
                (st.deltaOf cfg blk).added.length (st.deltaOf cfg blk).spent.length },
            .fatal, []⟩
  | skipped {phashBlock : Uint256} {blk : Block} {shielded : ShieldedVerdict} {violates : Bool}
      (offered : offer = .block phashBlock blk shielded violates)
      (skip : (st.deltaOf cfg blk).countOnlyD2Skip = true)
      : RunCases cfg fault st offer
          ⟨{ st with db := { st.db with cursor := st.db.cursor + 1 } }, .advanced, []⟩
  | folded {blk : Block} {next : StageState} (authors : Authors cfg st offer blk)
      (step : FoldedStep cfg st next blk)
      : RunCases cfg fault st offer ⟨next, .advanced, [blk]⟩

theorem CommitWindow.noteShielded_false (window : CommitWindow)
    : window.noteShielded false = window := by
  simp [CommitWindow.noteShielded]

theorem RunCases.kept {cfg : StageConfig} {fault : StepFault} {st : StageState} {offer : Offer}
    (result : JobResult) (stays : result ≠ .advanced) (nothing : ∀ blk, ¬ Authors cfg st offer blk)
    : RunCases cfg fault st offer ⟨st, result, []⟩ := by
  have kept : RunCases cfg fault st offer _ := .untouched false result stays nothing
  rwa [CommitWindow.noteShielded_false] at kept

theorem Authors.offered_block {cfg : StageConfig} {st : StageState} {phashBlock : Uint256}
    {offered blk : Block} {shielded : ShieldedVerdict} {violates : Bool}
    (authors : Authors cfg st (.block phashBlock offered shielded violates) blk)
    : offered = blk ∧ ∃ nullifiers anchors pool, shielded = .accept nullifiers anchors pool := by
  obtain ⟨_, nullifiers, anchors, pool, _, same⟩ := authors.offered
  simp only [Offer.block.injEq] at same
  exact ⟨same.2.1, nullifiers, anchors, pool, same.2.2.1⟩

theorem stageRunOnce_cases (cfg : StageConfig) (fault : StepFault) (st : StageState) (offer : Offer)
    : RunCases cfg fault st offer (stageRunOnce cfg fault st offer) := by
  cases offer with
  | idle => exact .kept .idle (by simp) (fun _ authors => by simpa using authors.offered)
  | blocked => exact .kept .blocked (by simp) (fun _ authors => by simpa using authors.offered)
  | fatal => exact .kept .fatal (by simp) (fun _ authors => by simpa using authors.offered)
  | block phashBlock blk shielded violates =>
    simp only [stageRunOnce, stepApply]
    split
    · rename_i outOfRange
      exact .kept .fatal (by simp) (fun _ authors => absurd authors.inRange (by omega))
    rename_i inRange
    split
    · rename_i skip
      exact .skipped rfl skip
    rename_i notSkipped
    split
    · rename_i refused
      refine .kept .blocked (by simp) fun other authors => ?_
      obtain ⟨rfl, -⟩ := authors.offered_block
      rw [authors.accepted.1] at refused
      simp at refused
    rename_i reported
    have accepted : (st.deltaOf cfg blk).Accepted :=
      ⟨by simpa using reported, by simpa using notSkipped⟩
    have closed : (∀ nullifiers anchors pool, shielded ≠ .accept nullifiers anchors pool) →
        ∀ other, ¬ Authors cfg st (.block phashBlock blk shielded violates) other := by
      intro notAccept other authors
      obtain ⟨-, nullifiers, anchors, pool, accept⟩ := authors.offered_block
      exact notAccept nullifiers anchors pool accept
    cases shielded with
    | storeError => exact .untouched violates .fatal (by simp) (closed (by simp))
    | hold => exact .untouched violates .idle (by simp) (closed (by simp))
    | reject status => exact .untouched violates .blocked (by simp) (closed (by simp))
    | accept nullifiers anchors pool =>
      have authors : Authors cfg st
          (.block phashBlock blk (.accept nullifiers anchors pool) violates) blk :=
        ⟨Nat.not_lt.mp inRange, accepted, _, _, _, _, _, rfl⟩
      cases fault with
      | coins rows => exact .torn violates authors rfl
      | afterCoins => exact .undone violates authors
      | none =>
        simp only [uaAuthorApplyCoins, uaCommitApplied]
        split
        · exact .undone violates authors
        · rename_i db persisted
          obtain rfl := utxoApplyDeltaPersist_some persisted
          exact .folded authors {
            store := rfl
            deltas := ⟨phashBlock, rfl⟩
            log := ⟨_, rfl, rfl⟩
            cursor := rfl
            frontier := rfl
            window := ⟨violates, rfl⟩
            batchOpen := rfl
            dirty := rfl
            audited := rfl
          }

-- The step with its reorg audit

/-- What one call meets: the active chain, the offered block and the errors of the store. -/
structure StepInput where
  chain : ChainView
  unwindFault : SqlFault
  offer : Offer
  fault : StepFault
  noteFails : Bool

/-- Models `utxo_apply_reorg_batch_should_audit`: once per batch, always outside one. -/
def StageState.shouldAudit (st : StageState) : Bool := !(st.batchOpen && st.audited)

/-- The reorg audit with the bookkeeping of a completed unwind. -/
def utxoApplyReorgAudit (st : StageState) (input : StepInput) : StageState × Bool :=
  if st.shouldAudit then
    let (db, outcome) := utxoApplyReorgUnwindIfNeeded input.chain input.unwindFault st.db
    let st := { st with db := db, audited := true }
    match outcome with
    | .unwound _ =>
      ({ st with dirty := st.dirty || st.batchOpen, window := st.window.noteReorg }, true)
    | _ => (st, outcome.returned)
  else (st, true)

/--
Models `utxo_apply_stage_step_once`. A failed `coins_ram_note_applied` turns the result fatal
and leaves the step in place.
-/
def utxoApplyStageStepOnce (cfg : StageConfig) (st : StageState) (input : StepInput)
    : StepOutcome :=
  match utxoApplyReorgAudit st input with
  | (st, false) => ⟨st, .fatal, []⟩
  | (st, true) =>
    let step := stageRunOnce cfg input.fault st input.offer
    if step.result = .advanced && step.state.db.store.overlay.isSome && input.noteFails then
      { step with result := .fatal }
    else step

end Z23.Jobs
