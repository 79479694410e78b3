import Z23.Consensus.Subsidy
import Z23.Validation.CheckBlock
import Z23.Validation.UpdateCoins

/-!
Connecting a block to a coins view: the block checks, the shielded pools, the scan for overwritten
transactions, the loop over the transactions with its fees, and the reward of the coinbase.
-/

namespace Z23.Validation

open Z23.Consensus
open Z23.Lib.FiniteMap
open Z23.Lib.FoldM

-- Surroundings

/-- The chain totals of the two pools; unknown where an ancestor was not counted. -/
structure ChainValues where
  nChainSproutValue : Option Int64
  nChainSaplingValue : Option Int64
deriving DecidableEq, Repr

structure BlockIndex where
  phashBlock : Option Uint256
  nHeight : Int32
  pprev : Option ChainValues
deriving DecidableEq, Repr

/-- One input whose script is verified after the transactions are applied. -/
structure ScriptCheck where
  tx : Transaction
  nIn : Nat
  prevOut : TxOut
  flags : UInt32
deriving DecidableEq, Repr

/-- What connecting takes from elsewhere, beyond the surroundings of the block checks. -/
structure ConnectEnv extends CheckEnv where
  params : ConsensusParams
  lastCheckpointHeight : Option Int32
  deferredProofValidationBelowHeight : Int32
  enforceCheckdatasigSigops : Bool
  p2shSigOpCount : Transaction → CoinsView → UInt32 → UInt64
  haveJoinsplitRequirements : Transaction → Bool
  verifyScript : ScriptCheck → Bool
  saplingActive : Int32 → Bool
  enforceSaplingRoot : Bool
  saplingRootMatches : FullBlock → Bool

/-- The coins of a view and its best block. -/
structure ConnectView where
  coins : CoinsView
  hashBlock : Uint256

-- Before the transactions

def connectBlockLoadBlockHash (pindex : BlockIndex) (block : FullBlock) : Uint256 :=
  pindex.phashBlock.getD block.hash

def checkpointCovers (env : ConnectEnv) (height : Int32) : Bool :=
  env.lastCheckpointHeight.any (fun last => last ≥ height)

def belowDeferredProofs (env : ConnectEnv) (pindex : BlockIndex) : Bool :=
  env.deferredProofValidationBelowHeight ≥ 0
    && pindex.nHeight ≤ env.deferredProofValidationBelowHeight

def connectBlockExpensiveChecksEnabled (env : ConnectEnv) (pindex : BlockIndex) : Bool :=
  !checkpointCovers env pindex.nHeight && !belowDeferredProofs env pindex

def connectBlockSkipBip30 (env : ConnectEnv) (pindex : BlockIndex) : Bool :=
  belowDeferredProofs env pindex

def connectBlockViewPrevOk (view : ConnectView) (block : FullBlock) : Bool :=
  view.hashBlock.isNull || block.header.hashPrevBlock == view.hashBlock

/-- The change of the Sprout and the Sapling pool in 64 bits. -/
def connectBlockShieldedValues (vtx : List Transaction) : Int64 × Int64 :=
  (vtx.foldl (fun sprout tx =>
      tx.vJoinsplit.foldl (fun sprout js => sprout + js.vpubOld - js.vpubNew) sprout) 0,
    vtx.foldl (fun sapling tx => sapling - tx.valueBalance) 0)

/-- A pool whose chain total is known must not become negative. -/
def connectBlockApplyShieldedTurnstile (block : FullBlock) (pindex : BlockIndex)
    : Except BlockReject Unit :=
  match pindex.pprev with
  | none => .ok ()
  | some prev => do
    let (sprout, sapling) := connectBlockShieldedValues block.vtx
    require (prev.nChainSproutValue.all fun chain => chain + sprout ≥ 0) .sproutTurnstileViolation
    require (prev.nChainSaplingValue.all fun chain => chain + sapling ≥ 0)
      .saplingTurnstileViolation

/-- An unspent record of a transaction is tolerated when it was written at the block's height. -/
def bip30Tolerates (pindex : BlockIndex) (view : CoinsView) (tx : Transaction) : Bool :=
  match coinsViewCacheGetCoins view tx.hash with
  | none => true
  | some existing => existing.height == pindex.nHeight && pindex.nHeight > 0

def connectBlockBip30 (env : ConnectEnv) (block : FullBlock) (pindex : BlockIndex)
    (view : CoinsView) : Except BlockReject Unit :=
  require (connectBlockSkipBip30 env pindex || block.vtx.all (bip30Tolerates pindex view)) .bip30

def scriptVerifyP2sh : UInt32 := 1

def scriptVerifyChecklocktimeverify : UInt32 := 512

def connectBlockScriptFlags (env : ConnectEnv) : UInt32 :=
  let flags := scriptVerifyP2sh ||| scriptVerifyChecklocktimeverify
  if env.enforceCheckdatasigSigops then flags ||| scriptVerifyCheckdatasigSigops else flags

-- One transaction

/-- The running state of the loop over the transactions. -/
structure ApplyState where
  view : CoinsView
  fees : Int64
  sigOps : UInt32
  checks : List ScriptCheck

def coinbaseMaturity : Int32 := 100

/-- An input of a coinbase record that is not yet old enough. -/
def spendsImmature (pindex : BlockIndex) (view : CoinsView) (input : TxIn) : Bool :=
  (coinsViewCacheGetCoins view input.prevout.hash).any fun prev =>
    prev.isCoinbase && pindex.nHeight - prev.height < coinbaseMaturity

def addSigOps (sigOps : UInt32) (count : UInt64) : Except BlockReject UInt32 := do
  let sigOps := sigOps + count.toUInt32
  require (sigOps ≤ maxBlockSigops) .badBlkSigops
  .ok sigOps

def connectBlockCheckSpendInputs (env : ConnectEnv) (pindex : BlockIndex) (st : ApplyState)
    (tx : Transaction) : Except BlockReject ApplyState := do
  require (!tx.vin.any (spendsImmature pindex st.view)) .prematureSpendOfCoinbase
  require (coinsViewCacheHaveInputs st.view tx) .inputsMissingorspent
  require (env.haveJoinsplitRequirements tx) .joinsplitRequirementsNotMet
  let sigOps ← addSigOps st.sigOps
    (env.p2shSigOpCount tx st.view (connectBlockScriptFlags env))
  .ok { st with sigOps := sigOps }

/-- A guarded step of the input sum that checks the new total only. -/
def addRanged (total value : Int64) : Option Int64 :=
  if moneyRange (total + value) then some (total + value) else none

def addRangedIf (counts : Bool) (total value : Int64) : Option Int64 :=
  if counts then addRanged total value else some total

def sumRanged (total : Int64) : List Int64 → Option Int64
  | [] => some total
  | value :: rest => (addRanged total value).bind (fun total => sumRanged total rest)

/-- The values of the inputs of a transaction; `none` where one is missing. -/
def sumInputs (view : CoinsView) (total : Int64) : List TxIn → Option Int64
  | [] => some total
  | input :: rest => do
    let out ← coinsViewCacheGetOutputFor view input.prevout
    let total ← addMoney total out.value
    sumInputs view total rest

/-- A failing sum gives `-1`. -/
def coinsViewCacheGetValueIn (view : CoinsView) (tx : Transaction) : Int64 :=
  if transactionIsCoinbase tx then 0
  else
    let total := do
      let total ← sumInputs view 0 tx.vin
      let total ← addRangedIf (tx.valueBalance ≥ 0) total tx.valueBalance
      sumRanged total (tx.vJoinsplit.map JsDescription.vpubNew)
    total.getD (-1)

def connectBlockAccountTxFee (st : ApplyState) (tx : Transaction)
    : Except BlockReject ApplyState := do
  let valueIn := coinsViewCacheGetValueIn st.view tx
  let valueOut := transactionGetValueOut tx
  require (valueIn ≥ 0) .inputvaluesOutofrange
  require (moneyRange valueIn) .inputvaluesOutofrange
  require (valueIn ≥ valueOut) .inBelowout
  let txFee := valueIn - valueOut
  require (txFee ≥ 0) .feeNegative
  require (moneyRange (st.fees + txFee)) .feeOutofrange
  .ok { st with fees := st.fees + txFee }

def connectBlockCollectTxInputs (flags : UInt32) (view : CoinsView) (tx : Transaction)
    : Nat → List TxIn → Except BlockReject (List ScriptCheck)
  | _, [] => .ok []
  | nIn, input :: rest =>
    match coinsViewCacheGetOutputFor view input.prevout with
    | none => .error .inputsMissingorspent
    | some prevOut => do
      require (moneyRange prevOut.value) .inputvaluesOutofrange
      let checks ← connectBlockCollectTxInputs flags view tx (nIn + 1) rest
      .ok (⟨tx, nIn, prevOut, flags⟩ :: checks)

def connectBlockCollectScripts (env : ConnectEnv) (pindex : BlockIndex) (st : ApplyState)
    (tx : Transaction) : Except BlockReject ApplyState :=
  if !connectBlockExpensiveChecksEnabled env pindex then .ok st
  else do
    let checks ← connectBlockCollectTxInputs (connectBlockScriptFlags env) st.view tx 0 tx.vin
    .ok { st with checks := st.checks ++ checks }

def connectBlockUpdateTxCoins (pindex : BlockIndex) (st : ApplyState) (tx : Transaction)
    : Except BlockReject ApplyState :=
  match updateCoinsWithUndo tx st.view pindex.nHeight with
  | none => .error .utxoUpdateFailed
  | some (view, _) => .ok { st with view := view }

/-- The checks of an ordinary transaction before the view is updated. -/
def connectBlockCheckOrdinary (env : ConnectEnv) (pindex : BlockIndex) (st : ApplyState)
    (tx : Transaction) : Except BlockReject ApplyState :=
  if transactionIsCoinbase tx then .ok st
  else do
    let st ← connectBlockCheckSpendInputs env pindex st tx
    let st ← connectBlockAccountTxFee st tx
    connectBlockCollectScripts env pindex st tx

def connectBlockApplyOneTx (env : ConnectEnv) (pindex : BlockIndex) (st : ApplyState)
    (tx : Transaction) : Except BlockReject ApplyState := do
  let sigOps ← addSigOps st.sigOps (env.legacySigOpCount tx (connectBlockScriptFlags env))
  let st ← connectBlockCheckOrdinary env pindex { st with sigOps := sigOps } tx
  connectBlockUpdateTxCoins pindex st tx

/-- The loop over the transactions. -/
def applyTxs (env : ConnectEnv) (pindex : BlockIndex) (view : CoinsView)
    (txs : List Transaction) : Except BlockReject ApplyState :=
  txs.foldlM (connectBlockApplyOneTx env pindex) ⟨view, 0, 0, []⟩

def connectBlockApplyTransactions (env : ConnectEnv) (pindex : BlockIndex) (block : FullBlock)
    (view : CoinsView) : Except BlockReject ApplyState := do
  let st ← applyTxs env pindex view block.vtx
  require (st.checks.all env.verifyScript) .scriptVerifyFlagFailed
  .ok st

-- The block

def connectBlockSaplingRootStatus (env : ConnectEnv) (block : FullBlock) (pindex : BlockIndex)
    (justCheck : Bool) : Except BlockReject Unit :=
  requireIf (!justCheck && env.saplingActive pindex.nHeight) do
    require (!block.header.hashFinalSaplingRoot.isNull) .saplingRootZeroed
    require (!env.enforceSaplingRoot || env.saplingRootMatches block) .saplingRootMismatch

/-- The subsidy as the `int64_t` that the reward is computed with. -/
def blockSubsidy (env : ConnectEnv) (pindex : BlockIndex) : Int64 :=
  .ofInt (getBlockSubsidy pindex.nHeight.toInt env.params)

def connectBlockFinishReward (env : ConnectEnv) (block : FullBlock) (pindex : BlockIndex)
    (fees : Int64) : Except BlockReject Unit := do
  let subsidy := blockSubsidy env pindex
  require (fees ≤ Int64.maxValue - subsidy) .badCbRewardOverflow
  let blockReward := fees + subsidy
  require (block.vtx.head?.all fun coinbase => transactionGetValueOut coinbase ≤ blockReward)
    .badCbAmount

/-- The part of connecting that the genesis block does not take. -/
def connectBlockAfterChecks (env : ConnectEnv) (block : FullBlock) (pindex : BlockIndex)
    (view : ConnectView) (justCheck : Bool) : Except BlockReject ConnectView := do
  require (connectBlockViewPrevOk view block) .viewMismatch
  connectBlockApplyShieldedTurnstile block pindex
  connectBlockBip30 env block pindex view.coins
  let st ← connectBlockApplyTransactions env pindex block view.coins
  connectBlockSaplingRootStatus env block pindex justCheck
  connectBlockFinishReward env block pindex st.fees
  .ok ⟨st.view, if justCheck then view.hashBlock else connectBlockLoadBlockHash pindex block⟩

def isGenesis (env : ConnectEnv) (block : FullBlock) (pindex : BlockIndex) : Bool :=
  connectBlockLoadBlockHash pindex block == env.params.hashGenesisBlock

def connectBlock (env : ConnectEnv) (block : FullBlock) (pindex : BlockIndex)
    (view : ConnectView) (justCheck : Bool) : Except BlockReject ConnectView := do
  checkBlock env.toCheckEnv block (connectBlockExpensiveChecksEnabled env pindex) (!justCheck) true
  if isGenesis env block pindex then
    .ok { view with
      hashBlock := if justCheck then view.hashBlock else connectBlockLoadBlockHash pindex block }
  else connectBlockAfterChecks env block pindex view justCheck

end Z23.Validation
