import Z23.Core.Serialize
import Z23.Lib.Codec

/-!
Transactions and block headers with every field that goes over the wire, their writers and
readers. What is laid out after the outputs depends on the version; the reader refuses counts that
the unread bytes cannot hold.
-/

namespace Z23.Wire

open Z23.Lib.Bytes
open Z23.Lib.Codec

-- Data model

def overwinterTxVersion : Int32 := 3

def saplingTxVersion : Int32 := 4

def overwinterVersionGroupId : UInt32 := 0x03c48270

def saplingVersionGroupId : UInt32 := 0x892f2085

def maxTxInputs : Nat := 65536

def maxTxOutputs : Nat := 65536

def maxShieldedSpends : Nat := 4096

def maxShieldedOutputs : Nat := 4096

def maxJoinsplits : Nat := 4096

def grothProofSize : Nat := 192

def phgrProofSize : Nat := 296

structure SpendDescription where
  cv : Uint256
  anchor : Uint256
  nullifier : Uint256
  rk : Uint256
  zkproof : Blob grothProofSize
  spendAuthSig : Blob 64
deriving DecidableEq, Repr

structure OutputDescription where
  cv : Uint256
  cm : Uint256
  ephemeralKey : Uint256
  encCiphertext : Blob 580
  outCiphertext : Blob 80
  zkproof : Blob grothProofSize
deriving DecidableEq, Repr

/-- Two nullifiers, two commitments, two authentication codes and two ciphertexts. -/
structure JsDescription where
  vpubOld : Int64
  vpubNew : Int64
  anchor : Uint256
  nullifiers : Uint256 × Uint256
  commitments : Uint256 × Uint256
  ephemeralKey : Uint256
  randomSeed : Uint256
  macs : Uint256 × Uint256
  useGroth : Bool
  proof : Blob phgrProofSize
  ciphertexts : Blob 601 × Blob 601
deriving DecidableEq, Repr

/-- Models `struct transaction`; the defaults are those of `transaction_init`. -/
structure Transaction where
  overwintered : Bool := false
  version : Int32 := 1
  versionGroupId : UInt32 := 0
  vin : List TxIn := []
  vout : List TxOut := []
  lockTime : UInt32 := 0
  expiryHeight : UInt32 := 0
  valueBalance : Int64 := 0
  vShieldedSpend : List SpendDescription := []
  vShieldedOutput : List OutputDescription := []
  vJoinsplit : List JsDescription := []
  joinsplitPubkey : Uint256 := Uint256.fill 0
  joinsplitSig : Blob 64 := Blob.zero 64
  bindingSig : Blob 64 := Blob.zero 64
  hash : Uint256 := Uint256.fill 0
deriving DecidableEq, Repr

/-- Models `transaction_init`. -/
def Transaction.init : Transaction := {}

def maxSolutionSize : Nat := 1344

structure BlockHeader where
  nVersion : Int32
  hashPrevBlock : Uint256
  hashMerkleRoot : Uint256
  hashFinalSaplingRoot : Uint256
  nTime : UInt32
  nBits : UInt32
  nNonce : Uint256
  nSolution : List UInt8
  size_nSolution : nSolution.length ≤ maxSolutionSize
deriving DecidableEq, Repr

structure Block where
  header : BlockHeader
  vtx : List Transaction
deriving DecidableEq, Repr

-- Integers

def streamWriteU32 (value : UInt32) : List UInt8 := bytesLE 4 value.toNat

def streamReadU32 : Reader UInt32 := fun bytes => do
  let (value, rest) ← streamReadLE 4 bytes
  some (UInt32.ofNat value, rest)

def streamWriteU64 (value : UInt64) : List UInt8 := bytesLE 8 value.toNat

def streamReadU64 : Reader UInt64 := fun bytes => do
  let (value, rest) ← streamReadLE 8 bytes
  some (UInt64.ofNat value, rest)

def streamWriteI32 (value : Int32) : List UInt8 := streamWriteU32 value.toUInt32

def streamReadI32 : Reader Int32 := fun bytes => do
  let (value, rest) ← streamReadU32 bytes
  some (value.toInt32, rest)

def streamWriteI64 (value : Int64) : List UInt8 := streamWriteU64 value.toUInt64

def streamReadI64 : Reader Int64 := fun bytes => do
  let (value, rest) ← streamReadU64 bytes
  some (value.toInt64, rest)

theorem streamReadU32_write : ReadsBack streamReadU32 streamWriteU32 := by
  intro value rest
  have fits : value.toNat < 256 ^ 4 := value.toNat_lt
  rw [streamReadU32, streamWriteU32, streamReadLE_bytesLE fits]
  simp

theorem streamReadU64_write : ReadsBack streamReadU64 streamWriteU64 := by
  intro value rest
  have fits : value.toNat < 256 ^ 8 := value.toNat_lt
  rw [streamReadU64, streamWriteU64, streamReadLE_bytesLE fits]
  simp

theorem streamReadI32_write : ReadsBack streamReadI32 streamWriteI32 := by
  intro value rest
  rw [streamReadI32, streamWriteI32, streamReadU32_write]
  simp

theorem streamReadI64_write : ReadsBack streamReadI64 streamWriteI64 := by
  intro value rest
  rw [streamReadI64, streamWriteI64, streamReadU64_write]
  simp

-- Parts of a transaction

def outpointSerialize (op : Outpoint) : List UInt8 := op.hash.data ++ streamWriteU32 op.n

def outpointDeserialize : Reader Outpoint := fun bytes => do
  let (hash, bytes) ← streamReadHash bytes
  let (n, bytes) ← streamReadU32 bytes
  some (⟨hash, n⟩, bytes)

def scriptSerialize (script : Script) : List UInt8 := streamWriteCompactSize script.length ++ script

def scriptDeserialize : Reader Script := fun bytes => do
  let (scriptLen, bytes) ← streamReadCompactSize bytes
  if scriptLen > maxScriptSize then none
  else takeBytes scriptLen bytes

def txInSerialize (input : TxIn) : List UInt8 :=
  outpointSerialize input.prevout ++ scriptSerialize input.scriptSig
    ++ streamWriteU32 input.sequence

def txInDeserialize : Reader TxIn := fun bytes => do
  let (prevout, bytes) ← outpointDeserialize bytes
  let (scriptSig, bytes) ← scriptDeserialize bytes
  let (sequence, bytes) ← streamReadU32 bytes
  some (⟨prevout, scriptSig, sequence⟩, bytes)

def txOutSerialize (output : TxOut) : List UInt8 :=
  streamWriteI64 output.value ++ scriptSerialize output.scriptPubKey

def txOutDeserialize : Reader TxOut := fun bytes => do
  let (value, bytes) ← streamReadI64 bytes
  let (scriptPubKey, bytes) ← scriptDeserialize bytes
  some (⟨value, scriptPubKey⟩, bytes)

def spendDescriptionSerialize (sd : SpendDescription) : List UInt8 :=
  sd.cv.data ++ sd.anchor.data ++ sd.nullifier.data ++ sd.rk.data ++ sd.zkproof.data
    ++ sd.spendAuthSig.data

def spendDescriptionDeserialize : Reader SpendDescription := fun bytes => do
  let (cv, bytes) ← streamReadHash bytes
  let (anchor, bytes) ← streamReadHash bytes
  let (nullifier, bytes) ← streamReadHash bytes
  let (rk, bytes) ← streamReadHash bytes
  let (zkproof, bytes) ← readBlob grothProofSize bytes
  let (spendAuthSig, bytes) ← readBlob 64 bytes
  some (⟨cv, anchor, nullifier, rk, zkproof, spendAuthSig⟩, bytes)

def outputDescriptionSerialize (od : OutputDescription) : List UInt8 :=
  od.cv.data ++ od.cm.data ++ od.ephemeralKey.data ++ od.encCiphertext.data
    ++ od.outCiphertext.data ++ od.zkproof.data

def outputDescriptionDeserialize : Reader OutputDescription := fun bytes => do
  let (cv, bytes) ← streamReadHash bytes
  let (cm, bytes) ← streamReadHash bytes
  let (ephemeralKey, bytes) ← streamReadHash bytes
  let (encCiphertext, bytes) ← readBlob 580 bytes
  let (outCiphertext, bytes) ← readBlob 80 bytes
  let (zkproof, bytes) ← readBlob grothProofSize bytes
  some (⟨cv, cm, ephemeralKey, encCiphertext, outCiphertext, zkproof⟩, bytes)

def proofSize (useGroth : Bool) : Nat := if useGroth then grothProofSize else phgrProofSize

/-- The proof bytes read into the zeroed buffer. -/
def padProof (front : List UInt8) : Blob phgrProofSize :=
  ⟨(front ++ List.replicate phgrProofSize 0).take phgrProofSize, by simp⟩

def jsDescriptionSerialize (jsd : JsDescription) : List UInt8 :=
  streamWriteI64 jsd.vpubOld ++ streamWriteI64 jsd.vpubNew ++ jsd.anchor.data
    ++ jsd.nullifiers.1.data ++ jsd.nullifiers.2.data
    ++ jsd.commitments.1.data ++ jsd.commitments.2.data
    ++ jsd.ephemeralKey.data ++ jsd.randomSeed.data ++ jsd.macs.1.data ++ jsd.macs.2.data
    ++ jsd.proof.data.take (proofSize jsd.useGroth)
    ++ jsd.ciphertexts.1.data ++ jsd.ciphertexts.2.data

def jsDescriptionDeserialize (useGroth : Bool) : Reader JsDescription := fun bytes => do
  let (vpubOld, bytes) ← streamReadI64 bytes
  let (vpubNew, bytes) ← streamReadI64 bytes
  let (anchor, bytes) ← streamReadHash bytes
  let (nullifier0, bytes) ← streamReadHash bytes
  let (nullifier1, bytes) ← streamReadHash bytes
  let (commitment0, bytes) ← streamReadHash bytes
  let (commitment1, bytes) ← streamReadHash bytes
  let (ephemeralKey, bytes) ← streamReadHash bytes
  let (randomSeed, bytes) ← streamReadHash bytes
  let (mac0, bytes) ← streamReadHash bytes
  let (mac1, bytes) ← streamReadHash bytes
  let (proof, bytes) ← takeBytes (proofSize useGroth) bytes
  let (ciphertext0, bytes) ← readBlob 601 bytes
  let (ciphertext1, bytes) ← readBlob 601 bytes
  some (⟨vpubOld, vpubNew, anchor, (nullifier0, nullifier1), (commitment0, commitment1),
    ephemeralKey, randomSeed, (mac0, mac1), useGroth, padProof proof,
    (ciphertext0, ciphertext1)⟩, bytes)

-- Transactions

namespace Transaction

def isOverwinterV3 (tx : Transaction) : Bool :=
  tx.overwintered && tx.versionGroupId = overwinterVersionGroupId
    && tx.version = overwinterTxVersion

def isSaplingV4 (tx : Transaction) : Bool :=
  tx.overwintered && tx.versionGroupId = saplingVersionGroupId && tx.version = saplingTxVersion

def usesGroth (tx : Transaction) : Bool := tx.overwintered && saplingTxVersion ≤ tx.version

def serializeHeader (tx : Transaction) : List UInt8 :=
  streamWriteU32 (if tx.overwintered then tx.version.toUInt32 ||| 0x80000000
    else tx.version.toUInt32)
    ++ if tx.overwintered then streamWriteU32 tx.versionGroupId else []

def serializeTransparent (tx : Transaction) : List UInt8 :=
  streamWriteCompactSize tx.vin.length ++ tx.vin.flatMap txInSerialize
    ++ streamWriteCompactSize tx.vout.length ++ tx.vout.flatMap txOutSerialize
    ++ streamWriteU32 tx.lockTime
    ++ if tx.isOverwinterV3 || tx.isSaplingV4 then streamWriteU32 tx.expiryHeight else []

def serializeSapling (tx : Transaction) : List UInt8 :=
  if tx.isSaplingV4 then
    streamWriteI64 tx.valueBalance
      ++ streamWriteCompactSize tx.vShieldedSpend.length
      ++ tx.vShieldedSpend.flatMap spendDescriptionSerialize
      ++ streamWriteCompactSize tx.vShieldedOutput.length
      ++ tx.vShieldedOutput.flatMap outputDescriptionSerialize
  else []

def serializeJoinsplits (tx : Transaction) : List UInt8 :=
  if tx.version < 2 then []
  else
    streamWriteCompactSize tx.vJoinsplit.length ++ tx.vJoinsplit.flatMap jsDescriptionSerialize
      ++ if tx.vJoinsplit.isEmpty then [] else tx.joinsplitPubkey.data ++ tx.joinsplitSig.data

def hasShielded (tx : Transaction) : Bool :=
  !tx.vShieldedSpend.isEmpty || !tx.vShieldedOutput.isEmpty

/-- Models `transaction_serialize`. -/
def serialize (tx : Transaction) : List UInt8 :=
  tx.serializeHeader ++ tx.serializeTransparent ++ tx.serializeSapling ++ tx.serializeJoinsplits
    ++ if tx.isSaplingV4 && tx.hasShielded then tx.bindingSig.data else []

def deserializeHeader : Reader Transaction := fun bytes => do
  let (header, bytes) ← streamReadU32 bytes
  let overwintered := header >>> 31 != 0
  let tx := { Transaction.init with overwintered, version := (header &&& 0x7fffffff).toInt32 }
  let (tx, bytes) ←
    if overwintered then do
      let (versionGroupId, bytes) ← streamReadU32 bytes
      some ({ tx with versionGroupId }, bytes)
    else some (tx, bytes)
  if tx.overwintered && !(tx.isOverwinterV3 || tx.isSaplingV4) then none
  else some (tx, bytes)

/-- A count, refused beyond the limit or when that many elements of `least` bytes cannot follow,
and the elements. -/
def deserializeCounted {β : Type} (limit least : Nat) (read : Reader β) : Reader (List β) :=
  fun bytes => do
    let (count, bytes) ← streamReadCompactSize bytes
    if count > limit then none
    else if count * least > bytes.length then none
    else readMany read count bytes

def deserializeInputs (tx : Transaction) : Reader Transaction := fun bytes => do
  let (vin, bytes) ← deserializeCounted maxTxInputs 41 txInDeserialize bytes
  some ({ tx with vin }, bytes)

def deserializeOutputsAndLock (tx : Transaction) : Reader Transaction := fun bytes => do
  let (vout, bytes) ← deserializeCounted maxTxOutputs 9 txOutDeserialize bytes
  let (lockTime, bytes) ← streamReadU32 bytes
  let tx := { tx with vout, lockTime }
  if tx.isOverwinterV3 || tx.isSaplingV4 then do
    let (expiryHeight, bytes) ← streamReadU32 bytes
    some ({ tx with expiryHeight }, bytes)
  else some (tx, bytes)

def deserializeShielded (tx : Transaction) : Reader Transaction := fun bytes =>
  if tx.isSaplingV4 then do
    let (valueBalance, bytes) ← streamReadI64 bytes
    let (vShieldedSpend, bytes) ←
      deserializeCounted maxShieldedSpends 384 spendDescriptionDeserialize bytes
    let (vShieldedOutput, bytes) ←
      deserializeCounted maxShieldedOutputs 948 outputDescriptionDeserialize bytes
    some ({ tx with valueBalance, vShieldedSpend, vShieldedOutput }, bytes)
  else some (tx, bytes)

def deserializeJoinsplits (tx : Transaction) : Reader Transaction := fun bytes =>
  if tx.version < 2 then some (tx, bytes)
  else do
    let (vJoinsplit, bytes) ←
      deserializeCounted maxJoinsplits 1634 (jsDescriptionDeserialize tx.usesGroth) bytes
    if vJoinsplit.isEmpty then some (tx, bytes)
    else do
      let (joinsplitPubkey, bytes) ← streamReadHash bytes
      let (joinsplitSig, bytes) ← readBlob 64 bytes
      some ({ tx with vJoinsplit, joinsplitPubkey, joinsplitSig }, bytes)

def deserializeBindingSig (tx : Transaction) : Reader Transaction := fun bytes =>
  if tx.isSaplingV4 && tx.hasShielded then do
    let (bindingSig, bytes) ← readBlob 64 bytes
    some ({ tx with bindingSig }, bytes)
  else some (tx, bytes)

/-- When `transaction_copy` returns true. -/
def copyable (src : Transaction) : Bool :=
  src.vin.length ≤ maxTxInputs && src.vout.length ≤ maxTxOutputs

/-- What `transaction_copy` leaves in the destination; a failed copy keeps what it had written
before the allocation. -/
def copy (src : Transaction) : Transaction :=
  if src.copyable then src
  else
    { Transaction.init with
      overwintered := src.overwintered
      version := src.version
      versionGroupId := src.versionGroupId
      lockTime := src.lockTime
      expiryHeight := src.expiryHeight
      valueBalance := src.valueBalance
      hash := src.hash }

section Hash

variable (hash256 : List UInt8 → Uint256)

/-- Models `transaction_hash_serialized`. -/
def hashSerialized (tx : Transaction) : Uint256 := hash256 tx.serialize

def computeHash (tx : Transaction) : Transaction := { tx with hash := tx.hashSerialized hash256 }

/-- Models `transaction_deserialize`. -/
def deserialize : Reader Transaction := fun bytes => do
  let (tx, bytes) ← deserializeHeader bytes
  let (tx, bytes) ← tx.deserializeInputs bytes
  let (tx, bytes) ← tx.deserializeOutputsAndLock bytes
  let (tx, bytes) ← tx.deserializeShielded bytes
  let (tx, bytes) ← tx.deserializeJoinsplits bytes
  let (tx, bytes) ← tx.deserializeBindingSig bytes
  some (tx.computeHash hash256, bytes)

end Hash

end Transaction

-- Block headers

def BlockHeader.serialize (h : BlockHeader) : List UInt8 :=
  streamWriteI32 h.nVersion ++ h.hashPrevBlock.data ++ h.hashMerkleRoot.data
    ++ h.hashFinalSaplingRoot.data ++ streamWriteU32 h.nTime ++ streamWriteU32 h.nBits
    ++ h.nNonce.data ++ streamWriteCompactSize h.nSolution.length ++ h.nSolution

/-- The end of the header's reader: the solution, of a bounded size. -/
def BlockHeader.deserializeSolution : Reader { sol : List UInt8 // sol.length ≤ maxSolutionSize } :=
  fun bytes => do
    let (solSize, bytes) ← streamReadCompactSize bytes
    if small : solSize ≤ maxSolutionSize then
      match read : takeBytes solSize bytes with
      | none => none
      | some (nSolution, bytes) => some (⟨nSolution, takeBytes_length read ▸ small⟩, bytes)
    else none

def BlockHeader.deserialize : Reader BlockHeader := fun bytes => do
  let (nVersion, bytes) ← streamReadI32 bytes
  let (hashPrevBlock, bytes) ← streamReadHash bytes
  let (hashMerkleRoot, bytes) ← streamReadHash bytes
  let (hashFinalSaplingRoot, bytes) ← streamReadHash bytes
  let (nTime, bytes) ← streamReadU32 bytes
  let (nBits, bytes) ← streamReadU32 bytes
  let (nNonce, bytes) ← streamReadHash bytes
  let (sol, bytes) ← BlockHeader.deserializeSolution bytes
  some (⟨nVersion, hashPrevBlock, hashMerkleRoot, hashFinalSaplingRoot, nTime, nBits, nNonce,
    sol.1, sol.2⟩, bytes)

-- Round trips

theorem outpointDeserialize_write : ReadsBack outpointDeserialize outpointSerialize := by
  intro op rest
  simp only [outpointDeserialize, outpointSerialize, List.append_assoc, streamReadHash_data _ _,
    streamReadU32_write _ _, Option.bind_eq_bind, Option.bind_some]

theorem scriptDeserialize_write
    : ReadsBackOn (fun script : Script => script.length ≤ maxScriptSize) scriptDeserialize
        scriptSerialize := by
  intro script short rest
  have fits : script.length < 2 ^ 64 := Nat.lt_of_le_of_lt short (by decide)
  rw [scriptDeserialize, scriptSerialize, List.append_assoc, streamReadCompactSize_write fits]
  simp only [Option.bind_eq_bind, Option.bind_some]
  rw [if_neg (Nat.not_lt.mpr short), takeBytes_append rfl]

theorem txInDeserialize_write
    : ReadsBackOn (fun input : TxIn => input.scriptSig.length ≤ maxScriptSize) txInDeserialize
        txInSerialize := by
  intro input short rest
  simp only [txInDeserialize, txInSerialize, List.append_assoc, outpointDeserialize_write _ _,
    scriptDeserialize_write _ short, streamReadU32_write _ _, Option.bind_eq_bind, Option.bind_some]

theorem txOutDeserialize_write
    : ReadsBackOn (fun output : TxOut => output.scriptPubKey.length ≤ maxScriptSize)
        txOutDeserialize txOutSerialize := by
  intro output short rest
  simp only [txOutDeserialize, txOutSerialize, List.append_assoc, streamReadI64_write _ _,
    scriptDeserialize_write _ short, Option.bind_eq_bind, Option.bind_some]

theorem spendDescriptionDeserialize_write
    : ReadsBack spendDescriptionDeserialize spendDescriptionSerialize := by
  intro sd rest
  have zkproof := readBlob_data grothProofSize sd.zkproof
  have sig := readBlob_data 64 sd.spendAuthSig
  simp only [spendDescriptionDeserialize, spendDescriptionSerialize, List.append_assoc,
    streamReadHash_data _ _, zkproof, sig, Option.bind_eq_bind, Option.bind_some]

theorem outputDescriptionDeserialize_write
    : ReadsBack outputDescriptionDeserialize outputDescriptionSerialize := by
  intro od rest
  have enc := readBlob_data 580 od.encCiphertext
  have out := readBlob_data 80 od.outCiphertext
  have zkproof := readBlob_data grothProofSize od.zkproof
  simp only [outputDescriptionDeserialize, outputDescriptionSerialize, List.append_assoc,
    streamReadHash_data _ _, enc, out, zkproof, Option.bind_eq_bind, Option.bind_some]

/-- The proof is of the kind asked for, with zeros in the part of the buffer it does not use. -/
def JsDescription.WellFormed (useGroth : Bool) (jsd : JsDescription) : Prop :=
  jsd.useGroth = useGroth ∧ padProof (jsd.proof.data.take (proofSize useGroth)) = jsd.proof

instance (useGroth : Bool) (jsd : JsDescription) : Decidable (jsd.WellFormed useGroth) :=
  inferInstanceAs (Decidable (_ ∧ _))

theorem proofSize_le (useGroth : Bool) : proofSize useGroth ≤ phgrProofSize := by
  cases useGroth <;> decide

theorem jsDescriptionDeserialize_write (useGroth : Bool)
    : ReadsBackOn (JsDescription.WellFormed useGroth) (jsDescriptionDeserialize useGroth)
        jsDescriptionSerialize := by
  intro jsd wellFormed rest
  obtain ⟨kind, padded⟩ := wellFormed
  have length : (jsd.proof.data.take (proofSize useGroth)).length = proofSize useGroth := by
    rw [List.length_take, jsd.proof.size_data]
    exact Nat.min_eq_left (proofSize_le useGroth)
  simp only [jsDescriptionSerialize, List.append_assoc, kind]
  rw [jsDescriptionDeserialize]
  refine (ReadsBack.bind streamReadI64_write jsd.vpubOld _ _).trans ?_
  refine (ReadsBack.bind streamReadI64_write jsd.vpubNew _ _).trans ?_
  refine (ReadsBack.bind streamReadHash_data jsd.anchor _ _).trans ?_
  refine (ReadsBack.bind streamReadHash_data jsd.nullifiers.1 _ _).trans ?_
  refine (ReadsBack.bind streamReadHash_data jsd.nullifiers.2 _ _).trans ?_
  refine (ReadsBack.bind streamReadHash_data jsd.commitments.1 _ _).trans ?_
  refine (ReadsBack.bind streamReadHash_data jsd.commitments.2 _ _).trans ?_
  refine (ReadsBack.bind streamReadHash_data jsd.ephemeralKey _ _).trans ?_
  refine (ReadsBack.bind streamReadHash_data jsd.randomSeed _ _).trans ?_
  refine (ReadsBack.bind streamReadHash_data jsd.macs.1 _ _).trans ?_
  refine (ReadsBack.bind streamReadHash_data jsd.macs.2 _ _).trans ?_
  refine (congrArg (· >>= _) (takeBytes_append length _)).trans ?_
  refine (ReadsBack.bind (readBlob_data 601) jsd.ciphertexts.1 _ _).trans ?_
  refine (ReadsBack.bind (readBlob_data 601) jsd.ciphertexts.2 _ _).trans ?_
  rw [padded, ← kind]

theorem length_scriptSerialize (script : Script) : 1 ≤ (scriptSerialize script).length := by
  rw [scriptSerialize, List.length_append]
  have prefixed := streamWriteCompactSize_pos script.length
  omega

theorem length_txInSerialize (input : TxIn) : 41 ≤ (txInSerialize input).length := by
  have script := length_scriptSerialize input.scriptSig
  have hash := input.prevout.hash.size_data
  simp only [txInSerialize, outpointSerialize, streamWriteU32, List.length_append, length_bytesLE,
    hash]
  omega

theorem length_txOutSerialize (output : TxOut) : 9 ≤ (txOutSerialize output).length := by
  have script := length_scriptSerialize output.scriptPubKey
  simp only [txOutSerialize, streamWriteI64, streamWriteU64, List.length_append, length_bytesLE]
  omega

theorem length_spendDescriptionSerialize (sd : SpendDescription)
    : 384 ≤ (spendDescriptionSerialize sd).length := by
  simp [spendDescriptionSerialize, Uint256.size_data, Blob.size_data, grothProofSize]

theorem length_outputDescriptionSerialize (od : OutputDescription)
    : 948 ≤ (outputDescriptionSerialize od).length := by
  simp [outputDescriptionSerialize, Uint256.size_data, Blob.size_data, grothProofSize]

theorem length_jsDescriptionSerialize (jsd : JsDescription)
    : 1634 ≤ (jsDescriptionSerialize jsd).length := by
  have least : grothProofSize ≤ proofSize jsd.useGroth := by
    cases jsd.useGroth <;> decide
  have most := proofSize_le jsd.useGroth
  simp only [jsDescriptionSerialize, streamWriteI64, streamWriteU64, List.length_append,
    length_bytesLE, Uint256.size_data, Blob.size_data, List.length_take]
  rw [grothProofSize] at least
  omega

namespace Transaction

theorem deserializeCounted_write {β : Type} {limit least : Nat} {read : Reader β}
    {write : β → List UInt8} {valid : β → Prop} (back : ReadsBackOn valid read write)
    (long : ∀ value, least ≤ (write value).length) {values : List β}
    (all : ∀ value ∈ values, valid value) (few : values.length ≤ limit) (small : limit < 2 ^ 64)
    (rest : List UInt8)
    : deserializeCounted limit least read
          (streamWriteCompactSize values.length ++ (values.flatMap write ++ rest))
        = some (values, rest) := by
  have fits : values.length < 2 ^ 64 := Nat.lt_of_le_of_lt few small
  have room : values.length * least ≤ (values.flatMap write ++ rest).length := by
    rw [List.length_append]
    exact (length_flatMap_ge fun value _ => long value).trans (Nat.le_add_right _ _)
  rw [deserializeCounted, streamReadCompactSize_write fits]
  simp only [Option.bind_eq_bind, Option.bind_some]
  rw [if_neg (Nat.not_lt.mpr few), if_neg (Nat.not_lt.mpr room), readMany_on back all]

/-- What the reader can produce: a known version, nothing in the fields that the version does not
lay out, counts and scripts within the limits. -/
@[mk_iff]
structure WellFormed (tx : Transaction) : Prop where
  plain : tx.overwintered = false → 0 ≤ tx.version ∧ tx.versionGroupId = 0
  known : tx.overwintered = true → tx.isOverwinterV3 = true ∨ tx.isSaplingV4 = true
  expiry : (tx.isOverwinterV3 || tx.isSaplingV4) = false → tx.expiryHeight = 0
  unshielded
    : tx.isSaplingV4 = false →
        tx.valueBalance = 0 ∧ tx.vShieldedSpend = [] ∧ tx.vShieldedOutput = []
  unjoined : tx.version < 2 → tx.vJoinsplit = []
  unsigned
    : tx.vJoinsplit = [] → tx.joinsplitPubkey = Uint256.fill 0 ∧ tx.joinsplitSig = Blob.zero 64
  unbound : tx.hasShielded = false → tx.bindingSig = Blob.zero 64
  vin : tx.vin.length ≤ maxTxInputs
  vout : tx.vout.length ≤ maxTxOutputs
  spends : tx.vShieldedSpend.length ≤ maxShieldedSpends
  outputs : tx.vShieldedOutput.length ≤ maxShieldedOutputs
  joinsplits : tx.vJoinsplit.length ≤ maxJoinsplits
  scriptSigs : ∀ input ∈ tx.vin, input.scriptSig.length ≤ maxScriptSize
  scriptPubKeys : ∀ output ∈ tx.vout, output.scriptPubKey.length ≤ maxScriptSize
  proofs : ∀ jsd ∈ tx.vJoinsplit, jsd.WellFormed tx.usesGroth

instance (tx : Transaction) : Decidable tx.WellFormed :=
  decidable_of_iff _ (wellFormed_iff tx).symm

theorem toNat_toUInt32_of_nonneg {version : Int32} (nonneg : 0 ≤ version)
    : version.toUInt32.toNat < 2 ^ 31 := by
  have value : (0 : Int) ≤ version.toInt := Int32.le_iff_toInt_le.mp nonneg
  have cond := BitVec.toInt_eq_toNat_cond version.toBitVec
  change version.toBitVec.toNat < 2 ^ 31
  change 0 ≤ version.toBitVec.toInt at value
  split at cond <;> omega

/-- The header of a transaction, as far as the reader has it. -/
def headerOnly (tx : Transaction) : Transaction :=
  { Transaction.init with
    overwintered := tx.overwintered
    version := tx.version
    versionGroupId := tx.versionGroupId }

variable {tx : Transaction}

theorem deserializeHeader_plain (plain : tx.overwintered = false) (nonneg : 0 ≤ tx.version)
    (group : tx.versionGroupId = 0) (rest : List UInt8)
    : deserializeHeader (tx.serializeHeader ++ rest) = some (tx.headerOnly, rest) := by
  have small := toNat_toUInt32_of_nonneg nonneg
  have top : (tx.version.toUInt32 >>> 31 != 0) = false := by
    have shifted : tx.version.toUInt32 >>> 31 = 0 := by
      apply UInt32.toNat.inj
      rw [UInt32.toNat_shiftRight, Nat.shiftRight_eq_div_pow]
      exact Nat.div_eq_of_lt small
    rw [shifted]
    rfl
  have masked : tx.version.toUInt32 &&& 0x7fffffff = tx.version.toUInt32 := by
    apply UInt32.toNat.inj
    rw [UInt32.toNat_and]
    exact (Nat.and_two_pow_sub_one_eq_mod _ 31).trans (Nat.mod_eq_of_lt small)
  rw [deserializeHeader, serializeHeader, plain]
  simp only [Bool.false_eq_true, if_false, List.append_nil]
  refine (ReadsBack.bind streamReadU32_write _ _ _).trans ?_
  dsimp only
  rw [top, masked, Int32.toInt32_toUInt32]
  simp only [Bool.false_eq_true, if_false, Option.bind_eq_bind, Option.bind_some, Bool.false_and]
  rw [headerOnly, plain, group]
  rfl

theorem deserializeHeader_overwintered (overwintered : tx.overwintered = true)
    (known : tx.isOverwinterV3 = true ∨ tx.isSaplingV4 = true) (rest : List UInt8)
    : deserializeHeader (tx.serializeHeader ++ rest) = some (tx.headerOnly, rest) := by
  have version : tx.version = 3 ∨ tx.version = 4 := by
    rcases known with v3 | v4
    · simp only [isOverwinterV3, Bool.and_eq_true, decide_eq_true_eq] at v3
      exact .inl v3.2
    · simp only [isSaplingV4, Bool.and_eq_true, decide_eq_true_eq] at v4
      exact .inr v4.2
  have bits : ((tx.version.toUInt32 ||| 0x80000000) >>> 31 != 0) = true
      ∧ ((tx.version.toUInt32 ||| 0x80000000) &&& 0x7fffffff).toInt32 = tx.version := by
    rcases version with three | four
    · rw [three]
      decide
    · rw [four]
      decide
  have sameKind : (tx.headerOnly.isOverwinterV3 || tx.headerOnly.isSaplingV4) = true := by
    have same : tx.headerOnly.isOverwinterV3 = tx.isOverwinterV3
        ∧ tx.headerOnly.isSaplingV4 = tx.isSaplingV4 := ⟨rfl, rfl⟩
    rw [same.1, same.2, Bool.or_eq_true]
    exact known
  rw [deserializeHeader, serializeHeader, overwintered]
  simp only [if_true, List.append_assoc]
  refine (ReadsBack.bind streamReadU32_write _ _ _).trans ?_
  dsimp only
  rw [bits.1, bits.2]
  simp only [if_true]
  rw [streamReadU32_write]
  simp only [Option.bind_eq_bind, Option.bind_some]
  have whole : ({ Transaction.init with
      overwintered := true
      version := tx.version
      versionGroupId := tx.versionGroupId } : Transaction) = tx.headerOnly := by
    rw [headerOnly, overwintered]
  rw [whole, sameKind]
  simp

theorem deserializeHeader_write (wellFormed : tx.WellFormed) (rest : List UInt8)
    : deserializeHeader (tx.serializeHeader ++ rest) = some (tx.headerOnly, rest) := by
  cases overwintered : tx.overwintered with
  | false =>
    obtain ⟨nonneg, group⟩ := wellFormed.plain overwintered
    exact deserializeHeader_plain overwintered nonneg group rest
  | true => exact deserializeHeader_overwintered overwintered (wellFormed.known overwintered) rest

/-- The transparent part of a transaction, with its header. -/
def transparentOnly (tx : Transaction) : Transaction :=
  { tx.headerOnly with
    vin := tx.vin
    vout := tx.vout
    lockTime := tx.lockTime
    expiryHeight := tx.expiryHeight }

theorem deserializeTransparent_write (wellFormed : tx.WellFormed) (rest : List UInt8)
    : ∃ bytes, tx.headerOnly.deserializeInputs (tx.serializeTransparent ++ rest)
          = some ({ tx.headerOnly with vin := tx.vin }, bytes)
        ∧ deserializeOutputsAndLock { tx.headerOnly with vin := tx.vin } bytes
          = some (tx.transparentOnly, rest) := by
  have inputs := deserializeCounted_write txInDeserialize_write length_txInSerialize
    wellFormed.scriptSigs wellFormed.vin (by decide)
  have outputs := deserializeCounted_write txOutDeserialize_write length_txOutSerialize
    wellFormed.scriptPubKeys wellFormed.vout (by decide)
  simp only [deserializeInputs, serializeTransparent, List.append_assoc, inputs,
    Option.bind_eq_bind, Option.bind_some]
  refine ⟨_, rfl, ?_⟩
  simp only [deserializeOutputsAndLock, outputs, streamReadU32_write _ _, Option.bind_eq_bind,
    Option.bind_some]
  cases late : (tx.isOverwinterV3 || tx.isSaplingV4) with
  | true =>
    refine (if_pos late).trans ?_
    simp only [if_true]
    rw [streamReadU32_write]
    rfl
  | false =>
    refine (if_neg (Bool.eq_false_iff.mp late)).trans ?_
    simp only [Bool.false_eq_true, if_false, List.nil_append]
    rw [transparentOnly, wellFormed.expiry late]
    rfl

/-- All but the joinsplits, the binding signature and the hash. -/
def shieldedOnly (tx : Transaction) : Transaction :=
  { tx.transparentOnly with
    valueBalance := tx.valueBalance
    vShieldedSpend := tx.vShieldedSpend
    vShieldedOutput := tx.vShieldedOutput }

theorem deserializeShielded_write (wellFormed : tx.WellFormed) (rest : List UInt8)
    : tx.transparentOnly.deserializeShielded (tx.serializeSapling ++ rest)
        = some (tx.shieldedOnly, rest) := by
  have same : tx.transparentOnly.isSaplingV4 = tx.isSaplingV4 := rfl
  have spends := deserializeCounted_write
    (ReadsBack.on spendDescriptionDeserialize_write fun _ => True)
    length_spendDescriptionSerialize (fun _ _ => trivial) wellFormed.spends (by decide)
  have outputs := deserializeCounted_write
    (ReadsBack.on outputDescriptionDeserialize_write fun _ => True)
    length_outputDescriptionSerialize (fun _ _ => trivial) wellFormed.outputs (by decide)
  rw [deserializeShielded, serializeSapling, same]
  cases sapling : tx.isSaplingV4 with
  | true =>
    simp only [if_true, List.append_assoc]
    simp only [streamReadI64_write _ _, spends, outputs, Option.bind_eq_bind, Option.bind_some]
    rfl
  | false =>
    obtain ⟨balance, noSpends, noOutputs⟩ := wellFormed.unshielded sapling
    simp only [Bool.false_eq_true, if_false, List.nil_append]
    rw [shieldedOnly, balance, noSpends, noOutputs]
    rfl

/-- All but the binding signature and the hash. -/
def joinedOnly (tx : Transaction) : Transaction :=
  { tx.shieldedOnly with
    vJoinsplit := tx.vJoinsplit
    joinsplitPubkey := tx.joinsplitPubkey
    joinsplitSig := tx.joinsplitSig }

theorem deserializeJoinsplits_write (wellFormed : tx.WellFormed) (rest : List UInt8)
    : tx.shieldedOnly.deserializeJoinsplits (tx.serializeJoinsplits ++ rest)
        = some (tx.joinedOnly, rest) := by
  have same : tx.shieldedOnly.version = tx.version ∧ tx.shieldedOnly.usesGroth = tx.usesGroth :=
    ⟨rfl, rfl⟩
  have joinsplits := deserializeCounted_write (jsDescriptionDeserialize_write tx.usesGroth)
    length_jsDescriptionSerialize wellFormed.proofs wellFormed.joinsplits (by decide)
  have none : tx.vJoinsplit = [] → tx.joinedOnly = tx.shieldedOnly := by
    intro empty
    obtain ⟨pubkey, sig⟩ := wellFormed.unsigned empty
    rw [joinedOnly, empty, pubkey, sig]
    rfl
  rw [deserializeJoinsplits, serializeJoinsplits, same.1, same.2]
  by_cases old : tx.version < 2
  · rw [if_pos old, if_pos old, none (wellFormed.unjoined old)]
    rfl
  · rw [if_neg old, if_neg old]
    simp only [List.append_assoc]
    rw [joinsplits]
    simp only [Option.bind_eq_bind, Option.bind_some]
    by_cases empty : tx.vJoinsplit = []
    · rw [none empty, empty]
      rfl
    · have filled : tx.vJoinsplit.isEmpty = false := by
        rw [← Bool.not_eq_true, List.isEmpty_iff]
        exact empty
      rw [filled]
      have sig := readBlob_data 64
      simp only [Bool.false_eq_true, if_false, List.append_assoc, streamReadHash_data _ _, sig _ _,
        Option.bind_some]
      rfl

theorem deserialize_serialize (hash256 : List UInt8 → Uint256) (wellFormed : tx.WellFormed)
    (rest : List UInt8)
    : deserialize hash256 (tx.serialize ++ rest) = some (tx.computeHash hash256, rest) := by
  have binding : tx.joinedOnly.deserializeBindingSig
        ((if tx.isSaplingV4 && tx.hasShielded then tx.bindingSig.data else []) ++ rest)
      = some ({ tx with hash := Uint256.fill 0 }, rest) := by
    have same : tx.joinedOnly.isSaplingV4 = tx.isSaplingV4
        ∧ tx.joinedOnly.hasShielded = tx.hasShielded := ⟨rfl, rfl⟩
    rw [deserializeBindingSig, same.1, same.2]
    cases bound : (tx.isSaplingV4 && tx.hasShielded) with
    | true =>
      simp only [if_true]
      rw [readBlob_data]
      rfl
    | false =>
      have bare : tx.hasShielded = false := by
        cases sapling : tx.isSaplingV4 with
        | true => rwa [sapling, Bool.true_and] at bound
        | false =>
          obtain ⟨-, noSpends, noOutputs⟩ := wellFormed.unshielded sapling
          rw [hasShielded, noSpends, noOutputs]
          rfl
      simp only [Bool.false_eq_true, if_false, List.nil_append]
      have whole : tx.joinedOnly = { tx with hash := Uint256.fill 0 } := by
        have zero := wellFormed.unbound bare
        cases tx
        cases zero
        rfl
      rw [whole]
  obtain ⟨bytes, inputs, outputs⟩ := deserializeTransparent_write wellFormed
    (tx.serializeSapling ++ (tx.serializeJoinsplits
      ++ ((if tx.isSaplingV4 && tx.hasShielded then tx.bindingSig.data else []) ++ rest)))
  simp only [deserialize, serialize, List.append_assoc, deserializeHeader_write wellFormed, inputs,
    outputs, deserializeShielded_write wellFormed, deserializeJoinsplits_write wellFormed, binding,
    Option.bind_eq_bind, Option.bind_some]
  rfl

end Transaction

theorem BlockHeader.deserializeSolution_write
    : ReadsBack BlockHeader.deserializeSolution fun sol =>
        streamWriteCompactSize sol.1.length ++ sol.1 := by
  intro sol rest
  have fits : sol.1.length < 2 ^ 64 := Nat.lt_of_le_of_lt sol.2 (by decide)
  rw [deserializeSolution, List.append_assoc, streamReadCompactSize_write fits]
  simp only [Option.bind_eq_bind, Option.bind_some]
  rw [dif_pos sol.2]
  have taken := takeBytes_append (rfl : sol.1.length = _) rest
  split
  · rename_i missed
    rw [taken] at missed
    cases missed
  · rename_i found
    rw [taken] at found
    cases found
    rfl

theorem BlockHeader.deserialize_write
    : ReadsBack BlockHeader.deserialize BlockHeader.serialize := by
  intro h rest
  have solution := deserializeSolution_write ⟨h.nSolution, h.size_nSolution⟩ rest
  rw [List.append_assoc] at solution
  simp only [BlockHeader.deserialize, BlockHeader.serialize, List.append_assoc,
    streamReadI32_write _ _, streamReadHash_data _ _, streamReadU32_write _ _, solution,
    Option.bind_eq_bind, Option.bind_some]

end Z23.Wire
