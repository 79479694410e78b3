import Z23.Consensus.Subsidy
import Z23.Jobs.AddedIndex
import Z23.Lib.FoldM
import Z23.Storage.CoinsKv

/-!
The live fold of one block into its transparent delta: spends, created outputs, the fee sum and
the coinbase ceiling, with every reject of the source in source order.
-/

namespace Z23.Jobs

open Z23.Consensus Z23.Lib Z23.Storage

-- Configuration, lookups and summaries

/-- The process-wide settings that the fold reads. -/
structure ApplyConfig where
  params : ConsensusParams
  enforceCoinbaseMaturity : Bool
  replayCountOnlyActive : Bool
deriving DecidableEq, Repr

def coinbaseMaturity : UInt32 := 100

def utxoApplyScriptMax : Nat := 10000

/-- Models `struct utxo_apply_lookup`, zeroed before each call. -/
structure UtxoApplyLookup where
  found : Bool := false
  value : Int64 := 0
  height : UInt32 := 0
  isCoinbase : Bool := false
  script : Script := []
deriving DecidableEq, Repr

/--
A lookup callback; `none` is the `false` return. A NULL callback answers `some {}`.
-/
abbrev LookupFn := Outpoint → Option UtxoApplyLookup

inductive DeltaStatus where
  | verified
  | internalError
  | spendUnknownUtxo
  | valueOverflow
  | utxoCollision
  | coinbaseImmature
  | coinbaseProtect
  | badCbAmount
deriving DecidableEq, Repr

def DeltaStatus.text : DeltaStatus → String
  | verified => "verified"
  | internalError => "internal_error"
  | spendUnknownUtxo => "spend_unknown_utxo"
  | valueOverflow => "value_overflow"
  | utxoCollision => "utxo_collision"
  | coinbaseImmature => "coinbase_immature"
  | coinbaseProtect => "coinbase_protect"
  | badCbAmount => "bad_cb_amount"

inductive FailureKind where
  | alloc
  | lookupSpend
  | lookupOutput
  | spendUnknownUtxo
  | inputValue
  | outputValue
  | prematureCoinbaseSpend
  | scriptTooLarge
  | duplicateOutput
  | utxoCollision
  | addedIndex
  | coinbaseTransparentOutputs
  | inputvaluesOutofrange
  | outputsExceedInputs
  | feeOutofrange
  | badCbRewardOverflow
  | badCbAmount
  | totalValueDelta
deriving DecidableEq, Repr

def FailureKind.text : FailureKind → String
  | alloc => "alloc"
  | lookupSpend => "lookup_spend"
  | lookupOutput => "lookup_output"
  | spendUnknownUtxo => "spend_unknown_utxo"
  | inputValue => "input_value"
  | outputValue => "output_value"
  | prematureCoinbaseSpend => "bad-txns-premature-spend-of-coinbase"
  | scriptTooLarge => "script_too_large"
  | duplicateOutput => "duplicate_output"
  | utxoCollision => "utxo_collision"
  | addedIndex => "added_index"
  | coinbaseTransparentOutputs => "bad-txns-coinbase-spend-has-transparent-outputs"
  | inputvaluesOutofrange => "inputvalues_outofrange"
  | outputsExceedInputs => "outputs_exceed_inputs"
  | feeOutofrange => "fee_outofrange"
  | badCbRewardOverflow => "bad-cb-reward-overflow"
  | badCbAmount => "bad-cb-amount"
  | totalValueDelta => "total_value_delta"

/--
The field `failureDetail` is the outpoint whose 36 bytes the source stores, `none` when
they are zero. After a failure the source frees the two arrays; their entries up to the
running counts are kept here, since the counts are still read.
-/
structure DeltaSummary where
  ok : Bool := true
  status : DeltaStatus := .verified
  failureKind : Option FailureKind := none
  failureDetail : Option Outpoint := none
  totalValueDelta : Int64 := 0
  spent : List DeltaEntry := []
  added : List DeltaEntry := []
  countOnlyD2Skip : Bool := false
deriving DecidableEq, Repr

def deltaSummaryInit : DeltaSummary := {}

/-- The step results other than `UTXO_DELTA_STEP_OK`. -/
inductive StepHalt where
  | fail
  | index
  | countOnly
deriving DecidableEq, Repr

/-- A step that does not return OK hands back the summary as it stands. -/
abbrev Step (α : Type) := Except (StepHalt × DeltaSummary) α

def deltaFail {α : Type} (out : DeltaSummary) (status : DeltaStatus) (kind : FailureKind)
    (op : Outpoint) : Step α :=
  .error (.fail,
    { out with
      ok := false
      status := status
      failureKind := some kind
      failureDetail := some op })

/-- The internal errors and lookup failures, which keep the detail bytes. -/
def internalFail {α : Type} (out : DeltaSummary) (kind : FailureKind) : Step α :=
  .error (.fail,
    { out with ok := false, status := .internalError, failureKind := some kind })

-- Spends

def utxoDeltaRejectBadValue (out : DeltaSummary) (value : Int64) (kind : FailureKind)
    (op : Outpoint) : Step Unit :=
  if value < 0 || value > maxMoney then deltaFail out .valueOverflow kind op else .ok ()

def utxoDeltaRejectImmatureCoinbase (cfg : ApplyConfig) (out : DeltaSummary)
    (blockHeight : UInt32) (op : Outpoint) (restoreHeight : UInt32) (restoreCoinbase : Bool)
    : Step Unit :=
  if cfg.enforceCoinbaseMaturity && restoreCoinbase
      && (blockHeight < restoreHeight || blockHeight - restoreHeight < coinbaseMaturity) then
    if cfg.replayCountOnlyActive then
      .error (.countOnly, { out with countOnlyD2Skip := true })
    else deltaFail out .coinbaseImmature .prematureCoinbaseSpend op
  else .ok ()

def utxoDeltaOwnRestoreScript (out : DeltaSummary) (script : Script) : Step Unit :=
  if script.length > utxoApplyScriptMax then internalFail out .scriptTooLarge else .ok ()

/--
The first half of `utxo_delta_fold_one_spend`: the restore pre-image of the spent coin,
from the outputs created earlier in this block or else from the lookup.
-/
def utxoDeltaResolvePrevout (blockHeight : UInt32) (lookup : LookupFn) (out : DeltaSummary)
    (addIdx : AddedIndex) (op : Outpoint) : Step DeltaEntry :=
  match addedIndexLookup addIdx out.added op with
  | some intra =>
    .ok { txid := op.hash, vout := op.n, value := intra.value, script := intra.script,
          isCoinbase := intra.isCoinbase, height := blockHeight }
  | none =>
    match lookup op with
    | none => internalFail out .lookupSpend
    | some lk =>
      if lk.found then
        .ok { txid := op.hash, vout := op.n, value := lk.value, script := lk.script,
              isCoinbase := lk.isCoinbase, height := lk.height }
      else deltaFail out .spendUnknownUtxo .spendUnknownUtxo op

/-- What the loop over the inputs of one transaction updates. -/
structure SpendState where
  out : DeltaSummary
  txInputValue : Int64
  txSpendsCoinbase : Bool
deriving DecidableEq, Repr

def utxoDeltaFoldOneSpend (cfg : ApplyConfig) (blockHeight : UInt32) (lookup : LookupFn)
    (addIdx : AddedIndex) (st : SpendState) (op : Outpoint) : Step SpendState := do
  let se ← utxoDeltaResolvePrevout blockHeight lookup st.out addIdx op
  utxoDeltaRejectBadValue st.out se.value .inputValue op
  utxoDeltaRejectImmatureCoinbase cfg st.out blockHeight op se.height se.isCoinbase
  utxoDeltaOwnRestoreScript st.out se.script
  return { out := { st.out with
             spent := st.out.spent ++ [se]
             totalValueDelta := st.out.totalValueDelta - se.value }
           txInputValue := st.txInputValue + se.value
           txSpendsCoinbase := st.txSpendsCoinbase || se.isCoinbase }

-- Outputs

/-- What the loop over the outputs of one transaction updates. -/
structure OutputState where
  out : DeltaSummary
  addIdx : AddedIndex
deriving DecidableEq, Repr

/-- The outpoint of output `vo`, with the source's `(uint32_t)vo`. -/
def outputAt (tx : Transaction) (vo : Nat) : Outpoint := ⟨tx.hash, UInt32.ofNat vo⟩

def utxoDeltaRejectKnownOutput (lookup : LookupFn) (st : OutputState) (op : Outpoint)
    : Step Unit :=
  match addedIndexLookup st.addIdx st.out.added op with
  | some _ => deltaFail st.out .utxoCollision .duplicateOutput op
  | none =>
    match lookup op with
    | none => internalFail st.out .lookupOutput
    | some lk =>
      if lk.found then deltaFail st.out .utxoCollision .utxoCollision op else .ok ()

def utxoDeltaRecordOutput (tx : Transaction) (st : OutputState) (txo : TxOut)
    (op : Outpoint) : Step OutputState :=
  let entry : DeltaEntry :=
    { txid := op.hash, vout := op.n, value := txo.value, script := txo.scriptPubKey,
      isCoinbase := transactionIsCoinbase tx }
  match addedIndexInsert st.addIdx (st.out.added ++ [entry]) st.out.added.length with
  | none => .error (.index, st.out)
  | some addIdx =>
    .ok { out := { st.out with
            added := st.out.added ++ [entry]
            totalValueDelta := st.out.totalValueDelta + txo.value }
          addIdx := addIdx }

/-- Null and provably unspendable outputs never enter the coin set. -/
def entersCoinSet (txo : TxOut) : Bool :=
  !txo.isNull && !scriptIsUnspendable txo.scriptPubKey

def utxoDeltaFoldOneOutput (lookup : LookupFn) (tx : Transaction) (st : OutputState)
    (output : TxOut × Nat) : Step OutputState :=
  let op := outputAt tx output.2
  if entersCoinSet output.1 then do
    utxoDeltaRejectBadValue st.out output.1.value .outputValue op
    utxoDeltaRejectKnownOutput lookup st op
    utxoDeltaRecordOutput tx st output.1 op
  else .ok st

-- Fees, transactions and the block

def utxoDeltaApplyTxFee (cfg : ApplyConfig) (tx : Transaction) (txSpendsCoinbase : Bool)
    (txInputValue feesTotal : Int64) (out : DeltaSummary) : Step Int64 :=
  let op : Outpoint := ⟨tx.hash, 0⟩
  let shIn := transactionGetShieldedValueIn tx
  let valueOutFull := transactionGetValueOut tx
  let valueInFull := txInputValue + shIn
  let txFee := valueInFull - valueOutFull
  if txSpendsCoinbase && !tx.vout.isEmpty && cfg.params.fCoinbaseMustBeProtected then
    deltaFail out .coinbaseProtect .coinbaseTransparentOutputs op
  else if shIn < 0 || valueOutFull < 0 || shIn > maxMoney - txInputValue then
    deltaFail out .valueOverflow .inputvaluesOutofrange op
  else if valueInFull < valueOutFull then
    deltaFail out .valueOverflow .outputsExceedInputs op
  else if txFee > maxMoney - feesTotal then
    deltaFail out .valueOverflow .feeOutofrange op
  else .ok (feesTotal + txFee)

structure FoldState where
  out : DeltaSummary
  addIdx : AddedIndex
  feesTotal : Int64
deriving DecidableEq, Repr

def utxoDeltaFoldOneTx (cfg : ApplyConfig) (blockHeight : UInt32) (lookup : LookupFn)
    (st : FoldState) (tx : Transaction) : Step FoldState := do
  let spends ← (spentOutpoints tx).foldlM
    (utxoDeltaFoldOneSpend cfg blockHeight lookup st.addIdx) ⟨st.out, 0, false⟩
  let outputs ← tx.vout.zipIdx.foldlM
    (utxoDeltaFoldOneOutput lookup tx) ⟨spends.out, st.addIdx⟩
  let fees ←
    (if transactionIsCoinbase tx then .ok st.feesTotal
     else utxoDeltaApplyTxFee cfg tx spends.txSpendsCoinbase spends.txInputValue st.feesTotal
       outputs.out : Step Int64)
  return ⟨outputs.out, outputs.addIdx, fees⟩

def utxoDeltaFoldTransactions (cfg : ApplyConfig) (blockHeight : UInt32) (lookup : LookupFn)
    (st : FoldState) (blk : Block) : Step FoldState :=
  blk.vtx.foldlM (utxoDeltaFoldOneTx cfg blockHeight lookup) st

/-- The sums and comparisons are exact: a subsidy is between zero and 12.5 coins. -/
def utxoDeltaCheckCoinbaseSubsidy (cfg : ApplyConfig) (blk : Block) (blockHeight : UInt32)
    (feesTotal : Int64) (out : DeltaSummary) : Step Unit :=
  match blk.vtx with
  | [] => .ok ()
  | coinbase :: _ =>
    if blockHeight > 0 && transactionIsCoinbase coinbase then
      let subsidy := getBlockSubsidy blockHeight.toInt32.toInt cfg.params
      let cbOut := transactionGetValueOut coinbase
      if feesTotal.toInt > Int64.maxValue.toInt - subsidy then
        deltaFail out .badCbAmount .badCbRewardOverflow ⟨coinbase.hash, 0⟩
      else if cbOut < 0 || cbOut.toInt > feesTotal.toInt + subsidy then
        deltaFail out .badCbAmount .badCbAmount ⟨coinbase.hash, 0⟩
      else .ok ()
    else .ok ()

def utxoDeltaRejectTotalOutOfRange (out : DeltaSummary) : Step Unit :=
  if out.totalValueDelta > maxMoney || out.totalValueDelta < -maxMoney then
    .error (.fail,
      { out with
        ok := false
        status := .valueOverflow
        failureKind := some .totalValueDelta })
  else .ok ()

/-- The number of outputs of the block, counted by `utxo_delta_count_tx_caps`. -/
def utxoDeltaAddCap (blk : Block) : Nat := (blk.vtx.map (fun tx => tx.vout.length)).sum

/-- The whole computation after the genesis exit, up to the release of its arrays. -/
def utxoDeltaRun (cfg : ApplyConfig) (blk : Block) (blockHeight : UInt32) (lookup : LookupFn)
    (addIdx : AddedIndex) : Step DeltaSummary := do
  let st ← utxoDeltaFoldTransactions cfg blockHeight lookup ⟨deltaSummaryInit, addIdx, 0⟩ blk
  utxoDeltaCheckCoinbaseSubsidy cfg blk blockHeight st.feesTotal st.out
  utxoDeltaRejectTotalOutOfRange st.out
  return st.out

def utxoApplyComputeBlockDelta (cfg : ApplyConfig) (blk : Block) (blockHeight : UInt32)
    (lookup : LookupFn) : DeltaSummary :=
  if blk.hash = cfg.params.hashGenesisBlock then deltaSummaryInit
  else
    match addedIndexInit (utxoDeltaAddCap blk) with
    | none =>
      { deltaSummaryInit with
        ok := false, status := .internalError, failureKind := some .alloc }
    | some addIdx =>
      match utxoDeltaRun cfg blk blockHeight lookup addIdx with
      | .ok out => out
      | .error (.fail, out) => out
      | .error (.index, out) =>
        { out with ok := false, status := .internalError, failureKind := some .addedIndex }
      | .error (.countOnly, out) =>
        { out with
          ok := true
          status := .verified
          failureKind := none
          spent := []
          added := []
          totalValueDelta := 0 }

end Z23.Jobs
