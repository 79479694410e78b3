import Z23.Consensus.TxStructural

/-!
The checks of a block that look at nothing but the block: its header, the Merkle root over its
transaction ids, its shape and its transactions.
-/

namespace Z23.Validation

open Z23.Consensus
open Z23.Lib.FoldM

-- Failures

inductive BlockReject where
  | versionTooLow
  | invalidSolution
  | highHash
  | timeTooNew
  | badTxnmrklroot
  | badTxnsDuplicate
  | badBlkLength
  | badCbMissing
  | badCbMultiple
  | transaction (reason : TxReject)
  | badBlkSigops
  | viewMismatch
  | sproutTurnstileViolation
  | saplingTurnstileViolation
  | bip30
  | prematureSpendOfCoinbase
  | inputsMissingorspent
  | joinsplitRequirementsNotMet
  | inputvaluesOutofrange
  | inBelowout
  | feeNegative
  | feeOutofrange
  | utxoUpdateFailed
  | scriptVerifyFlagFailed
  | saplingRootZeroed
  | saplingRootMismatch
  | badCbRewardOverflow
  | badCbAmount
deriving DecidableEq, Repr

def BlockReject.text : BlockReject → String
  | versionTooLow => "version-too-low"
  | invalidSolution => "invalid-solution"
  | highHash => "high-hash"
  | timeTooNew => "time-too-new"
  | badTxnmrklroot => "bad-txnmrklroot"
  | badTxnsDuplicate => "bad-txns-duplicate"
  | badBlkLength => "bad-blk-length"
  | badCbMissing => "bad-cb-missing"
  | badCbMultiple => "bad-cb-multiple"
  | transaction reason => reason.text
  | badBlkSigops => "bad-blk-sigops"
  | viewMismatch => "connect_block-view-mismatch"
  | sproutTurnstileViolation => "bad-txns-sprout-turnstile-violation"
  | saplingTurnstileViolation => "bad-txns-sapling-turnstile-violation"
  | bip30 => "bad-txns-BIP30"
  | prematureSpendOfCoinbase => "bad-txns-premature-spend-of-coinbase"
  | inputsMissingorspent => "bad-txns-inputs-missingorspent"
  | joinsplitRequirementsNotMet => "bad-txns-joinsplit-requirements-not-met"
  | inputvaluesOutofrange => "bad-txns-inputvalues-outofrange"
  | inBelowout => "bad-txns-in-belowout"
  | feeNegative => "bad-txns-fee-negative"
  | feeOutofrange => "bad-txns-fee-outofrange"
  | utxoUpdateFailed => "bad-txns-utxo-update-failed"
  | scriptVerifyFlagFailed => "mandatory-script-verify-flag-failed"
  | saplingRootZeroed => "bad-sapling-root-zeroed"
  | saplingRootMismatch => "bad-sapling-root-mismatch"
  | badCbRewardOverflow => "bad-cb-reward-overflow"
  | badCbAmount => "bad-cb-amount"

-- The header

structure BlockHeader where
  nVersion : Int32 := 4
  hashPrevBlock : Uint256
  hashMerkleRoot : Uint256
  hashFinalSaplingRoot : Uint256
  nTime : UInt32 := 0
deriving DecidableEq, Repr

/-- A block with the header fields that the checks read. -/
structure FullBlock extends Block where
  header : BlockHeader
deriving DecidableEq, Repr

/-- What the block checks take from elsewhere: hashes, proofs, the clock and the script layer. -/
structure CheckEnv where
  merkleHashPair : Uint256 → Uint256 → Uint256
  equihashSolutionOk : FullBlock → Bool
  checkProofOfWork : FullBlock → Bool
  adjustedTime : Int
  sizeRules : SizeRules
  legacySigOpCount : Transaction → UInt32 → UInt64

def minBlockVersion : Int32 := 4

def checkBlockHeader (env : CheckEnv) (block : FullBlock) (checkPow : Bool)
    : Except BlockReject Unit := do
  require (block.header.nVersion ≥ minBlockVersion) .versionTooLow
  require (!checkPow || env.equihashSolutionOk block) .invalidSolution
  require (!checkPow || env.checkProofOfWork block) .highHash
  require (block.header.nTime.toNat ≤ env.adjustedTime + 2 * 60 * 60) .timeTooNew

-- The Merkle root

/--
One level of the tree above the given one. A last node without a partner is hashed with itself;
a last pair of equal nodes is the mark of a mutated list.
-/
def merkleLevel (hashPair : Uint256 → Uint256 → Uint256) : List Uint256 → List Uint256 × Bool
  | [] => ([], false)
  | [last] => ([hashPair last last], false)
  | [left, right] => ([hashPair left right], left == right)
  | left :: right :: next :: rest =>
    let (level, mutated) := merkleLevel hashPair (next :: rest)
    (hashPair left right :: level, mutated)

def merkleLevels (hashPair : Uint256 → Uint256 → Uint256)
    : Nat → List Uint256 → Bool → Uint256 × Bool
  | _, [], mutated => (.fill 0, mutated)
  | _, [root], mutated => (root, mutated)
  | 0, root :: _, mutated => (root, mutated)
  | fuel + 1, level, mutated =>
    let (above, here) := merkleLevel hashPair level
    merkleLevels hashPair fuel above (mutated || here)

/-- The root of the tree and whether a level of it was mutated. -/
def merkleRootMutatedInPlace (hashPair : Uint256 → Uint256 → Uint256) (txids : List Uint256)
    : Uint256 × Bool :=
  merkleLevels hashPair txids.length txids false

theorem merkleLevel_length (hashPair : Uint256 → Uint256 → Uint256) (level : List Uint256)
    : (merkleLevel hashPair level).1.length = (level.length + 1) / 2 := by
  fun_induction merkleLevel hashPair level with
  | case1 => simp
  | case2 => simp
  | case3 => simp
  | case4 left right next rest above mutated equation ih =>
    rw [equation] at ih
    simp only [List.length_cons] at ih ⊢
    omega

/-- The number of ids bounds the number of levels, so the root is always reached. -/
theorem merkleLevels_fuel (hashPair : Uint256 → Uint256 → Uint256) {fuel : Nat}
    {level : List Uint256} (enough : level.length ≤ fuel + 1) (mutated : Bool)
    : merkleLevels hashPair (fuel + 1) level mutated = merkleLevels hashPair fuel level mutated := by
  induction fuel generalizing level mutated with
  | zero =>
    match level with
    | [] => rfl
    | [_] => rfl
  | succ fuel ih =>
    match level with
    | [] => rfl
    | [_] => rfl
    | left :: right :: rest =>
      have shorter : (merkleLevel hashPair (left :: right :: rest)).1.length ≤ fuel + 1 := by
        rw [merkleLevel_length]
        simp only [List.length_cons] at enough ⊢
        omega
      exact ih shorter _

def domainConsensusCheckBlockMerkleRoot (env : CheckEnv) (block : FullBlock)
    : Except BlockReject Unit := do
  let (root, mutated) :=
    merkleRootMutatedInPlace env.merkleHashPair (block.vtx.map Transaction.hash)
  require (block.header.hashMerkleRoot == root) .badTxnmrklroot
  require (!mutated) .badTxnsDuplicate

-- Shape and transactions

def generousBlockTxnLimit : Nat := 2000000

def maxBlockSigops : UInt32 := 20000

def scriptVerifyCheckdatasigSigops : UInt32 := 2048

def domainConsensusCheckBlockSizeAndCoinbase (block : FullBlock) : Except BlockReject Unit := do
  require (!block.vtx.isEmpty && block.vtx.length ≤ generousBlockTxnLimit) .badBlkLength
  require (block.vtx.head?.all transactionIsCoinbase) .badCbMissing
  require (block.vtx.tail.all fun tx => !transactionIsCoinbase tx) .badCbMultiple

/-- The count is an `unsigned int`. -/
def domainConsensusCheckBlockSigops (env : CheckEnv) (block : FullBlock)
    : Except BlockReject Unit :=
  let nSigOps : UInt32 := block.vtx.foldl
    (fun count tx => count + (env.legacySigOpCount tx scriptVerifyCheckdatasigSigops).toUInt32) 0
  require (nSigOps ≤ maxBlockSigops) .badBlkSigops

def checkTransactionInBlock (env : CheckEnv) (tx : Transaction) : Except BlockReject Unit :=
  (domainConsensusCheckTransactionStructural env.sizeRules .block tx).mapError .transaction

/-- The transactions are checked in order, up to the first that fails. -/
def checkTransactionsInBlock (env : CheckEnv) (vtx : List Transaction)
    : Except BlockReject Unit :=
  vtx.foldlM (fun _ tx => checkTransactionInBlock env tx) ()

def checkBlockSizeLimits (env : CheckEnv) (block : FullBlock) : Except BlockReject Unit := do
  domainConsensusCheckBlockSizeAndCoinbase block
  checkTransactionsInBlock env block.vtx
  domainConsensusCheckBlockSigops env block

def checkBlock (env : CheckEnv) (block : FullBlock)
    (checkPow checkMerkleRoot checkSizeLimits : Bool) : Except BlockReject Unit := do
  checkBlockHeader env block checkPow
  requireIf checkMerkleRoot (domainConsensusCheckBlockMerkleRoot env block)
  requireIf checkSizeLimits (checkBlockSizeLimits env block)

-- What a checked block has

theorem checkTransactionsInBlock_ok {env : CheckEnv} {vtx : List Transaction}
    (checked : checkTransactionsInBlock env vtx = .ok ()) : ∀ tx ∈ vtx, Checked tx := by
  induction vtx with
  | nil => simp
  | cons tx rest ih =>
    obtain ⟨⟨⟩, first, others⟩ := foldlM_cons_ok.mp checked
    have structural :
        domainConsensusCheckTransactionStructural env.sizeRules .block tx = .ok () := by
      rw [checkTransactionInBlock] at first
      cases result : domainConsensusCheckTransactionStructural env.sizeRules .block tx with
      | error reason =>
        rw [result] at first
        cases first
      | ok u => rfl
    simp only [List.forall_mem_cons]
    exact ⟨checked_of_structural structural, ih others⟩

/-- A checked block starts with its only coinbase, and its transactions are checked. -/
structure CheckedBlock (vtx : List Transaction) (coinbase : Transaction)
    (rest : List Transaction) : Prop where
  shape : vtx = coinbase :: rest
  first : transactionIsCoinbase coinbase = true
  others : ∀ tx ∈ rest, transactionIsCoinbase tx = false
  transactions : ∀ tx ∈ vtx, Checked tx

theorem checkBlock_ok {env : CheckEnv} {block : FullBlock} {checkPow checkMerkleRoot : Bool}
    (checked : checkBlock env block checkPow checkMerkleRoot true = .ok ())
    : ∃ coinbase rest, CheckedBlock block.vtx coinbase rest := by
  simp only [checkBlock, bind_eq_ok, requireIf, if_true, checkBlockSizeLimits] at checked
  obtain ⟨_, _, _, _, _, shape, _, transactions, _⟩ := checked
  simp only [domainConsensusCheckBlockSizeAndCoinbase, require_bind_eq_ok, require_eq_ok]
    at shape
  obtain ⟨nonempty, first, others⟩ := shape
  cases vtx : block.vtx with
  | nil => simp [vtx] at nonempty
  | cons coinbase rest =>
    refine ⟨coinbase, rest, { shape := rfl, first := ?_, others := ?_, transactions := ?_ }⟩
    · simpa [vtx] using first
    · simpa [vtx] using others
    · rw [← vtx]
      exact checkTransactionsInBlock_ok transactions

end Z23.Validation
