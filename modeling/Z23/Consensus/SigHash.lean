import Z23.Primitives.TransactionWire

/-!
Signature hashes: the message that a signature of a transaction is about. The Sprout form hashes a
serialization of the transaction twice; the Overwinter and Sapling forms hash a header, digests of
the parts that the hash type covers and the signed input. The digests that do not depend on the
input can be computed once and handed in.
-/

namespace Z23.Wire

open Z23.Lib.Bytes
open Z23.Lib.Codec

-- Hash types

def sighashNone : UInt32 := 2

def sighashSingle : UInt32 := 3

def sighashAnyonecanpay : UInt32 := 0x80

def sighashGetBaseType (hashType : UInt32) : UInt32 := hashType &&& 0x1f

def sighashHasAnyoneCanPay (hashType : UInt32) : Bool := hashType &&& sighashAnyonecanpay != 0

def notAnInput : UInt32 := 0xffffffff

-- Digests of parts

/-- BLAKE2b with 32 bytes of digest under a personalization, and SHA-256 applied twice. -/
structure Hashes where
  blake2b : List UInt8 → List UInt8 → Uint256
  hash256 : List UInt8 → Uint256

/-- The bytes of a personalization. -/
def personal (text : String) : List UInt8 := text.toList.map fun c => UInt8.ofNat c.toNat

def prevoutsPersonal : List UInt8 := personal "ZcashPrevoutHash"

def sequencePersonal : List UInt8 := personal "ZcashSequencHash"

def outputsPersonal : List UInt8 := personal "ZcashOutputsHash"

def joinsplitsPersonal : List UInt8 := personal "ZcashJSplitsHash"

def shieldedSpendsPersonal : List UInt8 := personal "ZcashSSpendsHash"

def shieldedOutputsPersonal : List UInt8 := personal "ZcashSOutputHash"

def sigHashPersonal (consensusBranchId : UInt32) : List UInt8 :=
  personal "ZcashSigHash" ++ streamWriteU32 consensusBranchId

def nullHash : Uint256 := Uint256.fill 0

/-- A spend without its authorizing signature. -/
def spendSighashBytes (sd : SpendDescription) : List UInt8 :=
  sd.cv.data ++ sd.anchor.data ++ sd.nullifier.data ++ sd.rk.data ++ sd.zkproof.data

/-- The digest of a part that may be empty: the cached one or a fresh one, and the null digest where
there is nothing to hash. -/
def sighashSection (count : Nat) (cached : Option Uint256) (fresh : Uint256) : Uint256 :=
  if count > 0 then
    match cached with
    | some digest => digest
    | none => fresh
  else nullHash

section

variable (hashes : Hashes)

def getPrevoutHash (tx : Transaction) : Uint256 :=
  hashes.blake2b prevoutsPersonal (tx.vin.flatMap fun input => outpointSerialize input.prevout)

def getSequenceHash (tx : Transaction) : Uint256 :=
  hashes.blake2b sequencePersonal (tx.vin.flatMap fun input => streamWriteU32 input.sequence)

def getOutputsHash (tx : Transaction) : Uint256 :=
  hashes.blake2b outputsPersonal (tx.vout.flatMap txOutSerialize)

/-- The fields of a description are hashed in the order of the wire. -/
def getJoinsplitsHash (tx : Transaction) : Uint256 :=
  hashes.blake2b joinsplitsPersonal
    (tx.vJoinsplit.flatMap jsDescriptionSerialize ++ tx.joinsplitPubkey.data)

def getShieldedSpendsHash (tx : Transaction) : Uint256 :=
  hashes.blake2b shieldedSpendsPersonal (tx.vShieldedSpend.flatMap spendSighashBytes)

def getShieldedOutputsHash (tx : Transaction) : Uint256 :=
  hashes.blake2b shieldedOutputsPersonal (tx.vShieldedOutput.flatMap outputDescriptionSerialize)

structure PrecomputedTxData where
  hashPrevouts : Uint256
  hashSequence : Uint256
  hashOutputs : Uint256
  hashJoinsplits : Uint256
  hashShieldedSpends : Uint256
  hashShieldedOutputs : Uint256

def precomputeTxData (tx : Transaction) : PrecomputedTxData where
  hashPrevouts := getPrevoutHash hashes tx
  hashSequence := getSequenceHash hashes tx
  hashOutputs := getOutputsHash hashes tx
  hashJoinsplits := if tx.vJoinsplit.length > 0 then getJoinsplitsHash hashes tx else nullHash
  hashShieldedSpends :=
    if tx.vShieldedSpend.length > 0 then getShieldedSpendsHash hashes tx else nullHash
  hashShieldedOutputs :=
    if tx.vShieldedOutput.length > 0 then getShieldedOutputsHash hashes tx else nullHash

-- The Overwinter and Sapling forms

inductive SigVersion where
  | sprout
  | overwinter
  | sapling
deriving DecidableEq, Repr

def signatureHashVersion (tx : Transaction) : SigVersion :=
  if tx.overwintered then
    if tx.versionGroupId = saplingVersionGroupId then .sapling else .overwinter
  else .sprout

def txGetHeader (tx : Transaction) : UInt32 :=
  tx.version.toUInt32 ||| (if tx.overwintered then 0x80000000 else 0)

def sighashOverwinterPrevoutSequence (tx : Transaction) (hashType : UInt32)
    (cache : Option PrecomputedTxData) : Uint256 × Uint256 :=
  let hashPrevouts :=
    if !sighashHasAnyoneCanPay hashType then
      match cache with
      | some cache => cache.hashPrevouts
      | none => getPrevoutHash hashes tx
    else nullHash
  let hashSequence :=
    if !sighashHasAnyoneCanPay hashType && sighashGetBaseType hashType != sighashSingle
        && sighashGetBaseType hashType != sighashNone then
      match cache with
      | some cache => cache.hashSequence
      | none => getSequenceHash hashes tx
    else nullHash
  (hashPrevouts, hashSequence)

def sighashOverwinterOutputs (tx : Transaction) (nIn : UInt32) (hashType : UInt32)
    (cache : Option PrecomputedTxData) : Uint256 :=
  if sighashGetBaseType hashType != sighashSingle
      && sighashGetBaseType hashType != sighashNone then
    match cache with
    | some cache => cache.hashOutputs
    | none => getOutputsHash hashes tx
  else if sighashGetBaseType hashType == sighashSingle then
    match tx.vout[nIn.toNat]? with
    | some output => hashes.blake2b outputsPersonal (txOutSerialize output)
    | none => nullHash
  else nullHash

def sighashJoinsplits (tx : Transaction) (cache : Option PrecomputedTxData) : Uint256 :=
  sighashSection tx.vJoinsplit.length (cache.map PrecomputedTxData.hashJoinsplits)
    (getJoinsplitsHash hashes tx)

def sighashShieldedSpends (tx : Transaction) (cache : Option PrecomputedTxData) : Uint256 :=
  sighashSection tx.vShieldedSpend.length (cache.map PrecomputedTxData.hashShieldedSpends)
    (getShieldedSpendsHash hashes tx)

def sighashShieldedOutputs (tx : Transaction) (cache : Option PrecomputedTxData) : Uint256 :=
  sighashSection tx.vShieldedOutput.length (cache.map PrecomputedTxData.hashShieldedOutputs)
    (getShieldedOutputsHash hashes tx)

/-- Compact sizes as the stream writes them. -/
def sighashScriptCompactSize (scriptCode : Script) : List UInt8 :=
  streamWriteCompactSize scriptCode.length

/-- The signed input; nothing for the signature of the joinsplits. -/
def sighashInput (scriptCode : Script) (tx : Transaction) (nIn : UInt32) (amount : Int64)
    : Option (List UInt8) :=
  if nIn ≠ notAnInput then do
    let input ← tx.vin[nIn.toNat]?
    some (outpointSerialize input.prevout ++ sighashScriptCompactSize scriptCode ++ scriptCode
      ++ streamWriteI64 amount ++ streamWriteU32 input.sequence)
  else some []

def sighashOverwinterSapling (scriptCode : Script) (tx : Transaction) (nIn hashType : UInt32)
    (amount : Int64) (consensusBranchId : UInt32) (cache : Option PrecomputedTxData)
    (sigversion : SigVersion) : Option Uint256 := do
  let (hashPrevouts, hashSequence) := sighashOverwinterPrevoutSequence hashes tx hashType cache
  let hashOutputs := sighashOverwinterOutputs hashes tx nIn hashType cache
  let input ← sighashInput scriptCode tx nIn amount
  some (hashes.blake2b (sigHashPersonal consensusBranchId)
    (streamWriteU32 (txGetHeader tx) ++ streamWriteU32 tx.versionGroupId
      ++ hashPrevouts.data ++ hashSequence.data ++ hashOutputs.data
      ++ (sighashJoinsplits hashes tx cache).data
      ++ (if sigversion = .sapling then
          (sighashShieldedSpends hashes tx cache).data
            ++ (sighashShieldedOutputs hashes tx cache).data
        else [])
      ++ streamWriteU32 tx.lockTime ++ streamWriteU32 tx.expiryHeight
      ++ (if sigversion = .sapling then streamWriteI64 tx.valueBalance else [])
      ++ streamWriteU32 hashType ++ input))

-- The Sprout form

def sighashSproutInput (scriptCode : Script) (tx : Transaction) (nIn hashType idx : UInt32)
    : Option (List UInt8) := do
  let input ← tx.vin[idx.toNat]?
  let script :=
    if idx ≠ nIn then streamWriteCompactSize 0
    else streamWriteCompactSize scriptCode.length ++ scriptCode
  let sequence :=
    if idx ≠ nIn ∧ (sighashGetBaseType hashType = sighashSingle
        ∨ sighashGetBaseType hashType = sighashNone) then 0
    else input.sequence
  some (outpointSerialize input.prevout ++ script ++ streamWriteU32 sequence)

/-- Reading beyond the inputs is undefined and gives nothing here. -/
def sighashSproutWriteInputs (scriptCode : Script) (tx : Transaction) (nIn hashType : UInt32)
    : Option (List UInt8) := do
  let nInputs := if sighashHasAnyoneCanPay hashType then 1 else UInt32.ofNat tx.vin.length
  let inputs ← (List.range nInputs.toNat).mapM fun i =>
    sighashSproutInput scriptCode tx nIn hashType
      (if sighashHasAnyoneCanPay hashType then nIn else UInt32.ofNat i)
  some (streamWriteCompactSize nInputs.toNat ++ inputs.flatten)

def sighashSproutOutput (tx : Transaction) (nIn hashType i : UInt32) : Option (List UInt8) :=
  if sighashGetBaseType hashType = sighashSingle ∧ i ≠ nIn then
    some (streamWriteI64 (-1) ++ streamWriteCompactSize 0)
  else do
    let output ← tx.vout[i.toNat]?
    some (txOutSerialize output)

def sighashSproutWriteOutputs (tx : Transaction) (nIn hashType : UInt32)
    : Option (List UInt8) := do
  let nOutputs :=
    if sighashGetBaseType hashType = sighashNone then 0
    else if sighashGetBaseType hashType = sighashSingle then nIn + 1
    else UInt32.ofNat tx.vout.length
  let outputs ← (List.range nOutputs.toNat).mapM fun i =>
    sighashSproutOutput tx nIn hashType (UInt32.ofNat i)
  some (streamWriteCompactSize nOutputs.toNat ++ outputs.flatten)

def sighashSproutJoinsplits (tx : Transaction) : List UInt8 :=
  if tx.version ≥ 2 then
    streamWriteCompactSize tx.vJoinsplit.length ++ tx.vJoinsplit.flatMap jsDescriptionSerialize
      ++ if tx.vJoinsplit.length > 0 then tx.joinsplitPubkey.data ++ List.replicate 64 0 else []
  else []

def sighashSprout (scriptCode : Script) (tx : Transaction) (nIn hashType : UInt32)
    : Option Uint256 := do
  let inputs ← sighashSproutWriteInputs scriptCode tx nIn hashType
  let outputs ← sighashSproutWriteOutputs tx nIn hashType
  some (hashes.hash256
    (streamWriteU32 tx.version.toUInt32 ++ inputs ++ outputs ++ streamWriteU32 tx.lockTime
      ++ sighashSproutJoinsplits tx ++ streamWriteU32 hashType))

-- The signature hash

/-- Models `domain_consensus_signature_hash`. -/
def signatureHash (scriptCode : Script) (tx : Transaction) (nIn hashType : UInt32)
    (amount : Int64) (consensusBranchId : UInt32) (cache : Option PrecomputedTxData)
    : Option Uint256 :=
  if nIn.toNat ≥ tx.vin.length ∧ nIn ≠ notAnInput then none
  else
    let sigver := signatureHashVersion tx
    if sigver = .overwinter ∨ sigver = .sapling then
      sighashOverwinterSapling hashes scriptCode tx nIn hashType amount consensusBranchId cache
        sigver
    else if sighashGetBaseType hashType = sighashSingle ∧ nIn.toNat ≥ tx.vout.length then none
    else sighashSprout hashes scriptCode tx nIn hashType

-- The cache is transparent

theorem sighashOverwinterPrevoutSequence_cached (tx : Transaction) (hashType : UInt32)
    : sighashOverwinterPrevoutSequence hashes tx hashType (some (precomputeTxData hashes tx))
      = sighashOverwinterPrevoutSequence hashes tx hashType none := rfl

theorem sighashOverwinterOutputs_cached (tx : Transaction) (nIn hashType : UInt32)
    : sighashOverwinterOutputs hashes tx nIn hashType (some (precomputeTxData hashes tx))
      = sighashOverwinterOutputs hashes tx nIn hashType none := rfl

theorem sighashSection_cached (count : Nat) (fresh : Uint256)
    : sighashSection count (some (if count > 0 then fresh else nullHash)) fresh
      = sighashSection count none fresh := by
  rw [sighashSection, sighashSection]
  split
  · rfl
  · rfl

theorem sighashJoinsplits_cached (tx : Transaction)
    : sighashJoinsplits hashes tx (some (precomputeTxData hashes tx))
      = sighashJoinsplits hashes tx none :=
  sighashSection_cached _ _

theorem sighashShieldedSpends_cached (tx : Transaction)
    : sighashShieldedSpends hashes tx (some (precomputeTxData hashes tx))
      = sighashShieldedSpends hashes tx none :=
  sighashSection_cached _ _

theorem sighashShieldedOutputs_cached (tx : Transaction)
    : sighashShieldedOutputs hashes tx (some (precomputeTxData hashes tx))
      = sighashShieldedOutputs hashes tx none :=
  sighashSection_cached _ _

theorem sighashOverwinterSapling_cached (scriptCode : Script) (tx : Transaction)
    (nIn hashType : UInt32) (amount : Int64) (consensusBranchId : UInt32) (sigversion : SigVersion)
    : sighashOverwinterSapling hashes scriptCode tx nIn hashType amount consensusBranchId
        (some (precomputeTxData hashes tx)) sigversion
      = sighashOverwinterSapling hashes scriptCode tx nIn hashType amount consensusBranchId none
          sigversion := by
  rw [sighashOverwinterSapling, sighashOverwinterSapling,
    sighashOverwinterPrevoutSequence_cached, sighashOverwinterOutputs_cached,
    sighashJoinsplits_cached, sighashShieldedSpends_cached, sighashShieldedOutputs_cached]

/-- Digests computed once for the transaction change no signature hash of it. -/
theorem signatureHash_cached (scriptCode : Script) (tx : Transaction) (nIn hashType : UInt32)
    (amount : Int64) (consensusBranchId : UInt32)
    : signatureHash hashes scriptCode tx nIn hashType amount consensusBranchId
        (some (precomputeTxData hashes tx))
      = signatureHash hashes scriptCode tx nIn hashType amount consensusBranchId none := by
  rw [signatureHash, signatureHash]
  split
  · rfl
  · dsimp only
    rw [sighashOverwinterSapling_cached]

end

end Z23.Wire
