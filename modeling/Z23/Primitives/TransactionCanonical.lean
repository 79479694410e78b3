import Z23.Primitives.TransactionWire

/-!
The transaction wire format in both directions: what every encodable transaction reads back as, and
that accepted bytes with compact sizes in shortest form are the bytes the decoded transaction is
written as.

The reader accepts compact sizes in any form. The readers here take the reader of compact sizes as a
parameter; the one for shortest forms says which accepted bytes have only these.
-/

namespace Z23.Wire

open Z23.Lib.Bytes Z23.Lib.Codec

-- Readers by how they read compact sizes

section Readers

variable (readSize : Reader Nat)

def scriptDeserializeWith : Reader Script := fun bytes => do
  let (scriptLen, bytes) ← readSize bytes
  if scriptLen > maxScriptSize then none
  else takeBytes scriptLen bytes

def txInDeserializeWith : Reader TxIn := fun bytes => do
  let (prevout, bytes) ← outpointDeserialize bytes
  let (scriptSig, bytes) ← scriptDeserializeWith readSize bytes
  let (sequence, bytes) ← streamReadU32 bytes
  some (⟨prevout, scriptSig, sequence⟩, bytes)

def txOutDeserializeWith : Reader TxOut := fun bytes => do
  let (value, bytes) ← streamReadI64 bytes
  let (scriptPubKey, bytes) ← scriptDeserializeWith readSize bytes
  some (⟨value, scriptPubKey⟩, bytes)

namespace Transaction

def deserializeCountedWith {β : Type} (limit least : Nat) (read : Reader β) : Reader (List β) :=
  fun bytes => do
    let (count, bytes) ← readSize bytes
    if count > limit then none
    else if count * least > bytes.length then none
    else readMany read count bytes

def deserializeInputsWith (tx : Transaction) : Reader Transaction := fun bytes => do
  let (vin, bytes) ←
    deserializeCountedWith readSize maxTxInputs 41 (txInDeserializeWith readSize) bytes
  some ({ tx with vin }, bytes)

def deserializeOutputsAndLockWith (tx : Transaction) : Reader Transaction := fun bytes => do
  let (vout, bytes) ←
    deserializeCountedWith readSize maxTxOutputs 9 (txOutDeserializeWith readSize) bytes
  let (lockTime, bytes) ← streamReadU32 bytes
  let tx := { tx with vout, lockTime }
  if tx.isOverwinterV3 || tx.isSaplingV4 then do
    let (expiryHeight, bytes) ← streamReadU32 bytes
    some ({ tx with expiryHeight }, bytes)
  else some (tx, bytes)

def deserializeShieldedWith (tx : Transaction) : Reader Transaction := fun bytes =>
  if tx.isSaplingV4 then do
    let (valueBalance, bytes) ← streamReadI64 bytes
    let (vShieldedSpend, bytes) ←
      deserializeCountedWith readSize maxShieldedSpends 384 spendDescriptionDeserialize bytes
    let (vShieldedOutput, bytes) ←
      deserializeCountedWith readSize maxShieldedOutputs 948 outputDescriptionDeserialize bytes
    some ({ tx with valueBalance, vShieldedSpend, vShieldedOutput }, bytes)
  else some (tx, bytes)

def deserializeJoinsplitsWith (tx : Transaction) : Reader Transaction := fun bytes =>
  if tx.version < 2 then some (tx, bytes)
  else do
    let (vJoinsplit, bytes) ←
      deserializeCountedWith readSize maxJoinsplits 1634 (jsDescriptionDeserialize tx.usesGroth)
        bytes
    if vJoinsplit.isEmpty then some (tx, bytes)
    else do
      let (joinsplitPubkey, bytes) ← streamReadHash bytes
      let (joinsplitSig, bytes) ← readBlob 64 bytes
      some ({ tx with vJoinsplit, joinsplitPubkey, joinsplitSig }, bytes)

def deserializeWith (hash256 : List UInt8 → Uint256) : Reader Transaction := fun bytes => do
  let (tx, bytes) ← deserializeHeader bytes
  let (tx, bytes) ← tx.deserializeInputsWith readSize bytes
  let (tx, bytes) ← tx.deserializeOutputsAndLockWith readSize bytes
  let (tx, bytes) ← tx.deserializeShieldedWith readSize bytes
  let (tx, bytes) ← tx.deserializeJoinsplitsWith readSize bytes
  let (tx, bytes) ← tx.deserializeBindingSig bytes
  some (tx.computeHash hash256, bytes)

end Transaction

end Readers

/-- Reads a compact size in its shortest form. -/
def readShortestSize : Reader Nat := fun bytes => do
  let (size, rest) ← streamReadCompactSize bytes
  if bytes = streamWriteCompactSize size ++ rest then some (size, rest) else none

/-- All the compact sizes that the reader of transactions meets are in shortest form. -/
def ShortestSizes (hash256 : List UInt8 → Uint256) (bytes : List UInt8) : Prop :=
  (Transaction.deserializeWith readShortestSize hash256 bytes).isSome = true

-- Readers read what is written

theorem readShortestSize_only : ReadsOnly readShortestSize streamWriteCompactSize := by
  intro bytes size rest read
  rw [readShortestSize] at read
  obtain ⟨size, tail, _, read⟩ := bind_read read
  dsimp only at read
  split at read
  · rename_i same
    cases read
    exact same
  · cases read

theorem readShortestSize_within : ReadsWithin readShortestSize streamReadCompactSize := by
  intro bytes size rest read
  rw [readShortestSize] at read
  obtain ⟨size, tail, any, read⟩ := bind_read read
  dsimp only at read
  split at read
  · cases read
    exact any
  · cases read

theorem streamReadLE_only {width value : Nat} {bytes rest : List UInt8}
    (read : streamReadLE width bytes = some (value, rest))
    : bytes = bytesLE width value ++ rest ∧ value < 256 ^ width := by
  rw [streamReadLE] at read
  obtain ⟨front, tail, taken, read⟩ := bind_read read
  cases read
  have length := takeBytes_length taken
  have back := bytesLE_natLE front
  have bound := natLE_lt front
  rw [length] at back bound
  exact ⟨by rw [back]; exact takeBytes_only taken, bound⟩

theorem streamReadU32_only : ReadsOnly streamReadU32 streamWriteU32 := by
  intro bytes value rest read
  rw [streamReadU32] at read
  obtain ⟨number, tail, first, read⟩ := bind_read read
  cases read
  obtain ⟨split, small⟩ := streamReadLE_only first
  rw [streamWriteU32, UInt32.toNat_ofNat_of_lt' small]
  exact split

theorem streamReadU64_only : ReadsOnly streamReadU64 streamWriteU64 := by
  intro bytes value rest read
  rw [streamReadU64] at read
  obtain ⟨number, tail, first, read⟩ := bind_read read
  cases read
  obtain ⟨split, small⟩ := streamReadLE_only first
  rw [streamWriteU64, UInt64.toNat_ofNat_of_lt' small]
  exact split

theorem streamReadI64_only : ReadsOnly streamReadI64 streamWriteI64 := by
  intro bytes value rest read
  rw [streamReadI64] at read
  obtain ⟨number, tail, first, read⟩ := bind_read read
  cases read
  rw [streamWriteI64, UInt64.toUInt64_toInt64]
  exact streamReadU64_only first

theorem streamReadHash_only : ReadsOnly streamReadHash Uint256.data := by
  intro bytes hash rest read
  rw [streamReadHash] at read
  split at read
  · cases read
  · rename_i front tail taken
    cases read
    exact takeBytes_only taken

theorem outpointDeserialize_only : ReadsOnly outpointDeserialize outpointSerialize := by
  intro bytes op rest read
  rw [outpointDeserialize] at read
  obtain ⟨hash, bytes1, readHash, read⟩ := bind_read read
  obtain ⟨n, bytes2, readN, read⟩ := bind_read read
  cases read
  rw [streamReadHash_only readHash, streamReadU32_only readN, outpointSerialize, List.append_assoc]

theorem scriptDeserialize_only
    : ReadsOnly (scriptDeserializeWith readShortestSize) scriptSerialize := by
  intro bytes script rest read
  rw [scriptDeserializeWith] at read
  obtain ⟨length, bytes1, readLength, read⟩ := bind_read read
  dsimp only at read
  split at read
  · cases read
  · rw [readShortestSize_only readLength, takeBytes_only read, scriptSerialize,
      takeBytes_length read, List.append_assoc]

theorem txInDeserialize_only
    : ReadsOnly (txInDeserializeWith readShortestSize) txInSerialize := by
  intro bytes input rest read
  simp only [txInDeserializeWith, bind_read_iff] at read
  obtain ⟨_, _, readPrevout, _, _, readScript, _, _, readSequence, read⟩ := read
  cases read
  rw [outpointDeserialize_only readPrevout, scriptDeserialize_only readScript,
    streamReadU32_only readSequence]
  simp only [txInSerialize, List.append_assoc]

theorem txOutDeserialize_only
    : ReadsOnly (txOutDeserializeWith readShortestSize) txOutSerialize := by
  intro bytes output rest read
  rw [txOutDeserializeWith] at read
  obtain ⟨value, bytes1, readValue, read⟩ := bind_read read
  obtain ⟨script, bytes2, readScript, read⟩ := bind_read read
  cases read
  rw [streamReadI64_only readValue, scriptDeserialize_only readScript]
  simp only [txOutSerialize, List.append_assoc]

theorem spendDescriptionDeserialize_only
    : ReadsOnly spendDescriptionDeserialize spendDescriptionSerialize := by
  intro bytes sd rest read
  simp only [spendDescriptionDeserialize, bind_read_iff] at read
  obtain ⟨_, _, readCv, _, _, readAnchor, _, _, readNullifier, _, _, readRk, _, _, readProof, _, _,
    readSig, read⟩ := read
  cases read
  rw [streamReadHash_only readCv, streamReadHash_only readAnchor,
    streamReadHash_only readNullifier, streamReadHash_only readRk, readBlob_only _ readProof,
    readBlob_only _ readSig]
  simp only [spendDescriptionSerialize, List.append_assoc]

theorem outputDescriptionDeserialize_only
    : ReadsOnly outputDescriptionDeserialize outputDescriptionSerialize := by
  intro bytes od rest read
  simp only [outputDescriptionDeserialize, bind_read_iff] at read
  obtain ⟨_, _, readCv, _, _, readCm, _, _, readKey, _, _, readEnc, _, _, readOut, _, _, readProof,
    read⟩ := read
  cases read
  rw [streamReadHash_only readCv, streamReadHash_only readCm, streamReadHash_only readKey,
    readBlob_only _ readEnc, readBlob_only _ readOut, readBlob_only _ readProof]
  simp only [outputDescriptionSerialize, List.append_assoc]

theorem padProof_take {front : List UInt8} {useGroth : Bool}
    (length : front.length = proofSize useGroth)
    : (padProof front).data.take (proofSize useGroth) = front := by
  rw [padProof, List.take_take, Nat.min_eq_left (proofSize_le useGroth), ← length, List.take_left]

theorem jsDescriptionDeserialize_only (useGroth : Bool)
    : ReadsOnly (jsDescriptionDeserialize useGroth) jsDescriptionSerialize := by
  intro bytes jsd rest read
  simp only [jsDescriptionDeserialize, bind_read_iff] at read
  obtain ⟨_, _, readOld, _, _, readNew, _, _, readAnchor, _, _, readNullifier0, _, _,
    readNullifier1, _, _, readCommitment0, _, _, readCommitment1, _, _, readKey, _, _, readSeed, _,
    _, readMac0, _, _, readMac1, _, _, readProof, _, _, readCiphertext0, _, _, readCiphertext1,
    read⟩ := read
  cases read
  rw [streamReadI64_only readOld, streamReadI64_only readNew, streamReadHash_only readAnchor,
    streamReadHash_only readNullifier0, streamReadHash_only readNullifier1,
    streamReadHash_only readCommitment0, streamReadHash_only readCommitment1,
    streamReadHash_only readKey, streamReadHash_only readSeed, streamReadHash_only readMac0,
    streamReadHash_only readMac1, takeBytes_only readProof, readBlob_only _ readCiphertext0,
    readBlob_only _ readCiphertext1]
  simp only [jsDescriptionSerialize, padProof_take (takeBytes_length readProof), List.append_assoc]

-- Readers of shortest sizes read within the others

theorem scriptDeserialize_within
    : ReadsWithin (scriptDeserializeWith readShortestSize) scriptDeserialize := by
  intro bytes script rest read
  rw [scriptDeserializeWith] at read
  obtain ⟨length, bytes1, readLength, read⟩ := bind_read read
  rw [scriptDeserialize, readShortestSize_within readLength]
  exact read

theorem txInDeserialize_within
    : ReadsWithin (txInDeserializeWith readShortestSize) txInDeserialize := by
  intro bytes input rest read
  rw [txInDeserializeWith] at read
  obtain ⟨prevout, bytes1, readPrevout, read⟩ := bind_read read
  obtain ⟨scriptSig, bytes2, readScript, read⟩ := bind_read read
  rw [txInDeserialize, readPrevout]
  simp only [Option.bind_eq_bind, Option.bind_some]
  rw [scriptDeserialize_within readScript]
  exact read

theorem txOutDeserialize_within
    : ReadsWithin (txOutDeserializeWith readShortestSize) txOutDeserialize := by
  intro bytes output rest read
  rw [txOutDeserializeWith] at read
  obtain ⟨value, bytes1, readValue, read⟩ := bind_read read
  obtain ⟨script, bytes2, readScript, read⟩ := bind_read read
  rw [txOutDeserialize, readValue]
  simp only [Option.bind_eq_bind, Option.bind_some]
  rw [scriptDeserialize_within readScript]
  exact read

namespace Transaction

section Counted

variable {β : Type} {limit least : Nat} {read strict : Reader β} {write : β → List UInt8}
  {bytes rest : List UInt8} {values : List β}

theorem deserializeCounted_within (within : ReadsWithin strict read)
    (done
      : deserializeCountedWith readShortestSize limit least strict bytes = some (values, rest))
    : deserializeCounted limit least read bytes = some (values, rest) := by
  rw [deserializeCountedWith] at done
  obtain ⟨count, bytes1, readCount, done⟩ := bind_read done
  rw [deserializeCounted, readShortestSize_within readCount]
  simp only [Option.bind_eq_bind, Option.bind_some] at done ⊢
  split at done
  · cases done
  · rename_i few
    split at done
    · cases done
    · rename_i room
      rw [if_neg few, if_neg room]
      exact readMany_within within done

theorem deserializeCounted_only (only : ReadsOnly strict write)
    (done
      : deserializeCountedWith readShortestSize limit least strict bytes = some (values, rest))
    : bytes = streamWriteCompactSize values.length ++ (values.flatMap write ++ rest) := by
  rw [deserializeCountedWith] at done
  obtain ⟨count, bytes1, readCount, done⟩ := bind_read done
  dsimp only at done
  split at done
  · cases done
  · split at done
    · cases done
    · obtain ⟨length, split⟩ := readMany_only only done
      rw [readShortestSize_only readCount, split, length]

end Counted

section Stages

variable {tx tx' : Transaction} {bytes rest : List UInt8}

theorem deserializeInputs_spec
    (done : tx.deserializeInputsWith readShortestSize bytes = some (tx', rest))
    : tx.deserializeInputs bytes = some (tx', rest)
      ∧ ∃ vin, tx' = { tx with vin }
          ∧ bytes = streamWriteCompactSize vin.length ++ (vin.flatMap txInSerialize ++ rest) := by
  rw [deserializeInputsWith] at done
  obtain ⟨vin, bytes1, readVin, done⟩ := bind_read done
  have any := deserializeCounted_within txInDeserialize_within readVin
  cases done
  refine ⟨?_, vin, rfl, deserializeCounted_only txInDeserialize_only readVin⟩
  rw [deserializeInputs, any]
  rfl

theorem deserializeOutputsAndLock_spec
    (done : tx.deserializeOutputsAndLockWith readShortestSize bytes = some (tx', rest))
    : tx.deserializeOutputsAndLock bytes = some (tx', rest)
      ∧ ∃ vout lockTime expiryHeight, tx' = { tx with vout, lockTime, expiryHeight }
          ∧ bytes
            = streamWriteCompactSize vout.length
              ++ (vout.flatMap txOutSerialize
                ++ (streamWriteU32 lockTime
                  ++ ((if tx.isOverwinterV3 || tx.isSaplingV4 then streamWriteU32 expiryHeight
                      else [])
                    ++ rest))) := by
  rw [deserializeOutputsAndLockWith] at done
  obtain ⟨vout, bytes1, readVout, done⟩ := bind_read done
  obtain ⟨lockTime, bytes2, readLock, done⟩ := bind_read done
  have any := deserializeCounted_within txOutDeserialize_within readVout
  have written := deserializeCounted_only txOutDeserialize_only readVout
  rw [deserializeOutputsAndLock, any]
  simp only [Option.bind_eq_bind, Option.bind_some]
  rw [readLock]
  refine ⟨done, ?_⟩
  rw [written, streamReadU32_only readLock]
  cases late : (tx.isOverwinterV3 || tx.isSaplingV4) with
  | true =>
    replace done := (if_pos late).symm.trans done
    obtain ⟨expiryHeight, bytes3, readExpiry, done⟩ := bind_read done
    cases done
    refine ⟨vout, lockTime, expiryHeight, rfl, ?_⟩
    rw [streamReadU32_only readExpiry, if_pos rfl]
  | false =>
    replace done := (if_neg (Bool.eq_false_iff.mp late)).symm.trans done
    cases done
    exact ⟨vout, lockTime, tx.expiryHeight, rfl, rfl⟩

theorem deserializeShielded_spec
    (done : tx.deserializeShieldedWith readShortestSize bytes = some (tx', rest))
    : tx.deserializeShielded bytes = some (tx', rest)
      ∧ ∃ valueBalance vShieldedSpend vShieldedOutput,
          tx' = { tx with valueBalance, vShieldedSpend, vShieldedOutput }
          ∧ bytes = tx'.serializeSapling ++ rest := by
  rw [deserializeShieldedWith] at done
  rw [deserializeShielded]
  cases sapling : tx.isSaplingV4 with
  | false =>
    rw [sapling, if_neg Bool.false_ne_true] at done
    cases done
    refine ⟨rfl, tx.valueBalance, tx.vShieldedSpend, tx.vShieldedOutput, rfl, ?_⟩
    rw [serializeSapling, sapling]
    rfl
  | true =>
    rw [sapling, if_pos rfl] at done
    rw [if_pos rfl]
    obtain ⟨valueBalance, bytes1, readBalance, done⟩ := bind_read done
    obtain ⟨spends, bytes2, readSpends, done⟩ := bind_read done
    obtain ⟨outputs, bytes3, readOutputs, done⟩ := bind_read done
    have anySpends := deserializeCounted_within (fun done => done) readSpends
    have anyOutputs := deserializeCounted_within (fun done => done) readOutputs
    have kind : ({ tx with
          valueBalance := valueBalance
          vShieldedSpend := spends
          vShieldedOutput := outputs } : Transaction).isSaplingV4 = true := sapling
    cases done
    refine ⟨?_, valueBalance, spends, outputs, rfl, ?_⟩
    · simp only [readBalance, anySpends, anyOutputs, Option.bind_eq_bind, Option.bind_some]
    · rw [serializeSapling, kind, if_pos rfl, streamReadI64_only readBalance,
        deserializeCounted_only spendDescriptionDeserialize_only readSpends,
        deserializeCounted_only outputDescriptionDeserialize_only readOutputs]
      simp only [List.append_assoc]

theorem deserializeJoinsplits_spec
    (done : tx.deserializeJoinsplitsWith readShortestSize bytes = some (tx', rest))
    (bare : tx.vJoinsplit = [])
    : tx.deserializeJoinsplits bytes = some (tx', rest)
      ∧ ∃ vJoinsplit joinsplitPubkey joinsplitSig,
          tx' = { tx with vJoinsplit, joinsplitPubkey, joinsplitSig }
          ∧ bytes = tx'.serializeJoinsplits ++ rest := by
  rw [deserializeJoinsplitsWith] at done
  rw [deserializeJoinsplits]
  by_cases early : tx.version < 2
  · rw [if_pos early] at done ⊢
    cases done
    refine ⟨rfl, tx.vJoinsplit, tx.joinsplitPubkey, tx.joinsplitSig, rfl, ?_⟩
    rw [serializeJoinsplits, if_pos early]
    rfl
  · rw [if_neg early] at done ⊢
    obtain ⟨joinsplits, bytes1, readJoinsplits, done⟩ := bind_read done
    have any := deserializeCounted_within (fun done => done) readJoinsplits
    have written := deserializeCounted_only (jsDescriptionDeserialize_only _) readJoinsplits
    rw [any]
    refine ⟨done, ?_⟩
    dsimp only at done
    cases joinsplits with
    | nil =>
      cases done
      refine ⟨tx.vJoinsplit, tx.joinsplitPubkey, tx.joinsplitSig, rfl, ?_⟩
      rw [serializeJoinsplits, if_neg early, bare, written]
      rfl
    | cons first others =>
      rw [List.isEmpty_cons, if_neg Bool.false_ne_true] at done
      obtain ⟨pubkey, bytes2, readPubkey, done⟩ := bind_read done
      obtain ⟨sig, bytes3, readSig, done⟩ := bind_read done
      have split : bytes2 = sig.data ++ bytes3 := readBlob_only 64 readSig
      cases done
      refine ⟨first :: others, pubkey, sig, rfl, ?_⟩
      rw [serializeJoinsplits, if_neg early, written, streamReadHash_only readPubkey, split]
      simp only [List.isEmpty_cons, Bool.false_eq_true, if_false, List.append_assoc]

theorem deserializeBindingSig_spec (done : tx.deserializeBindingSig bytes = some (tx', rest))
    : ∃ bindingSig, tx' = { tx with bindingSig }
        ∧ bytes
          = (if tx'.isSaplingV4 && tx'.hasShielded then tx'.bindingSig.data else []) ++ rest := by
  rw [deserializeBindingSig] at done
  cases bound : (tx.isSaplingV4 && tx.hasShielded) with
  | false =>
    rw [bound, if_neg Bool.false_ne_true] at done
    cases done
    refine ⟨tx.bindingSig, rfl, ?_⟩
    rw [bound]
    rfl
  | true =>
    rw [bound, if_pos rfl] at done
    obtain ⟨sig, bytes1, readSig, done⟩ := bind_read done
    cases done
    refine ⟨sig, rfl, ?_⟩
    have same : (({ tx with bindingSig := sig } : Transaction).isSaplingV4
        && ({ tx with bindingSig := sig } : Transaction).hasShielded) = true := bound
    rw [same, if_pos rfl]
    exact readBlob_only _ readSig

theorem header_bits (header : UInt32)
    : (if header >>> 31 != 0 then (header &&& 0x7fffffff).toInt32.toUInt32 ||| 0x80000000
        else (header &&& 0x7fffffff).toInt32.toUInt32) = header := by
  have small := header.toNat_lt
  have low : (header &&& 0x7fffffff).toNat = header.toNat % 2 ^ 31 := by
    rw [UInt32.toNat_and]
    exact Nat.and_two_pow_sub_one_eq_mod _ 31
  have high : (header >>> 31).toNat = header.toNat / 2 ^ 31 := by
    rw [UInt32.toNat_shiftRight, Nat.shiftRight_eq_div_pow]
    rfl
  rw [UInt32.toUInt32_toInt32]
  by_cases top : header >>> 31 = 0
  · have zero : header.toNat / 2 ^ 31 = 0 := by
      rw [← high, top]
      rfl
    rw [top]
    apply UInt32.toNat.inj
    simp only [bne_self_eq_false, Bool.false_eq_true, if_false, low]
    omega
  · have one : header.toNat / 2 ^ 31 = 1 := by
      have some_top : header.toNat / 2 ^ 31 ≠ 0 := by
        rw [← high]
        intro zero
        exact top (UInt32.toNat.inj zero)
      omega
    rw [if_pos (by simpa using top)]
    apply UInt32.toNat.inj
    have joined : (header.toNat % 2 ^ 31) ||| 2 ^ 31 = 2 ^ 31 + header.toNat % 2 ^ 31 := by
      have sum := @Nat.two_pow_add_eq_or_of_lt 31 (header.toNat % 2 ^ 31)
        (Nat.mod_lt _ (by decide)) 1
      rw [Nat.mul_one] at sum
      rw [Nat.or_comm, sum]
    rw [UInt32.toNat_or, low]
    change (header.toNat % 2 ^ 31) ||| 2 ^ 31 = header.toNat
    rw [joined]
    omega

theorem deserializeHeader_spec (done : deserializeHeader bytes = some (tx, rest))
    : tx = tx.headerOnly ∧ bytes = tx.serializeHeader ++ rest := by
  rw [deserializeHeader] at done
  obtain ⟨header, bytes1, readHeader, done⟩ := bind_read done
  have whole := header_bits header
  have split := streamReadU32_only readHeader
  dsimp only at done
  cases overwintered : (header >>> 31 != 0) with
  | false =>
    rw [overwintered] at done whole
    rw [if_neg Bool.false_ne_true] at whole
    simp only [Bool.false_eq_true, if_false, Option.bind_eq_bind, Option.bind_some,
      Bool.false_and] at done
    cases done
    refine ⟨rfl, ?_⟩
    rw [split, serializeHeader]
    simp only [Bool.false_eq_true, if_false, List.append_nil, whole]
  | true =>
    rw [overwintered] at done whole
    rw [if_pos rfl] at whole
    rw [if_pos rfl] at done
    obtain ⟨group, bytes2, readId, done⟩ := bind_read done
    simp only [Option.bind_eq_bind, Option.bind_some] at done
    split at done
    · cases done
    · cases done
      refine ⟨rfl, ?_⟩
      rw [split, streamReadU32_only readId, serializeHeader]
      simp only [if_true, whole, List.append_assoc]

end Stages

theorem serialize_deserialize {hash256 : List UInt8 → Uint256} {bytes rest : List UInt8}
    {tx : Transaction} (accepted : deserialize hash256 bytes = some (tx, rest))
    (shortest : ShortestSizes hash256 bytes) : bytes = tx.serialize ++ rest := by
  obtain ⟨⟨last, rest'⟩, strict⟩ := Option.isSome_iff_exists.mp shortest
  simp only [deserializeWith, bind_read_iff] at strict
  obtain ⟨tx1, _, readHeader, _, _, readInputs, _, _, readOutputs, _, _, readShielded, _, _,
    readJoinsplits, _, _, readSig, strict⟩ := strict
  cases strict
  obtain ⟨header, headerBytes⟩ := deserializeHeader_spec readHeader
  obtain ⟨anyInputs, vin, rfl, inputBytes⟩ := deserializeInputs_spec readInputs
  obtain ⟨anyOutputs, vout, lockTime, expiryHeight, rfl, outputBytes⟩ :=
    deserializeOutputsAndLock_spec readOutputs
  obtain ⟨anyShielded, valueBalance, spends, outputs, rfl, shieldedBytes⟩ :=
    deserializeShielded_spec readShielded
  have bare : tx1.vJoinsplit = [] := by
    rw [header]
    rfl
  obtain ⟨anyJoinsplits, joinsplits, pubkey, sig, rfl, joinsplitBytes⟩ :=
    deserializeJoinsplits_spec readJoinsplits bare
  obtain ⟨bindingSig, rfl, sigBytes⟩ := deserializeBindingSig_spec readSig
  simp only [deserialize, readHeader, anyInputs, anyOutputs, anyShielded, anyJoinsplits, readSig,
    Option.bind_eq_bind, Option.bind_some] at accepted
  cases accepted
  rw [headerBytes, inputBytes, outputBytes, shieldedBytes, joinsplitBytes, sigBytes]
  simp only [serialize, serializeTransparent, List.append_assoc]
  rfl

end Transaction

-- Reading back any encodable transaction

/-- The joinsplit with zeros where its proof does not fill the buffer. -/
def JsDescription.laidOut (jsd : JsDescription) : JsDescription :=
  { jsd with proof := padProof (jsd.proof.data.take (proofSize jsd.useGroth)) }

namespace Transaction

/-- The transaction with only the fields that its version writes, and the others empty. -/
def laidOut (tx : Transaction) : Transaction :=
  { tx with
    versionGroupId := if tx.overwintered then tx.versionGroupId else 0
    expiryHeight := if tx.isOverwinterV3 || tx.isSaplingV4 then tx.expiryHeight else 0
    valueBalance := if tx.isSaplingV4 then tx.valueBalance else 0
    vShieldedSpend := if tx.isSaplingV4 then tx.vShieldedSpend else []
    vShieldedOutput := if tx.isSaplingV4 then tx.vShieldedOutput else []
    vJoinsplit := if tx.version < 2 then [] else tx.vJoinsplit.map JsDescription.laidOut
    joinsplitPubkey :=
      if tx.version < 2 || tx.vJoinsplit.isEmpty then Uint256.fill 0 else tx.joinsplitPubkey
    joinsplitSig :=
      if tx.version < 2 || tx.vJoinsplit.isEmpty then Blob.zero 64 else tx.joinsplitSig
    bindingSig := if tx.isSaplingV4 && tx.hasShielded then tx.bindingSig else Blob.zero 64 }

/-- A transaction of a known version with counts and scripts within the limits and joinsplit proofs
of the form of its version. -/
@[mk_iff]
structure Encodable (tx : Transaction) : Prop where
  plain : tx.overwintered = false → 0 ≤ tx.version
  known : tx.overwintered = true → tx.isOverwinterV3 = true ∨ tx.isSaplingV4 = true
  vin : tx.vin.length ≤ maxTxInputs
  vout : tx.vout.length ≤ maxTxOutputs
  spends : tx.vShieldedSpend.length ≤ maxShieldedSpends
  outputs : tx.vShieldedOutput.length ≤ maxShieldedOutputs
  joinsplits : tx.vJoinsplit.length ≤ maxJoinsplits
  scriptSigs : ∀ input ∈ tx.vin, input.scriptSig.length ≤ maxScriptSize
  scriptPubKeys : ∀ output ∈ tx.vout, output.scriptPubKey.length ≤ maxScriptSize
  proofs : ∀ jsd ∈ tx.vJoinsplit, jsd.useGroth = tx.usesGroth

instance (tx : Transaction) : Decidable tx.Encodable :=
  decidable_of_iff _ (encodable_iff tx).symm

section LaidOut

variable {tx : Transaction}

theorem laidOut_kind (tx : Transaction)
    : tx.laidOut.isOverwinterV3 = tx.isOverwinterV3 ∧ tx.laidOut.isSaplingV4 = tx.isSaplingV4 := by
  cases overwintered : tx.overwintered with
  | false => simp [laidOut, isOverwinterV3, isSaplingV4, overwintered]
  | true => simp [laidOut, isOverwinterV3, isSaplingV4, overwintered]

theorem laidOut_proof (jsd : JsDescription)
    : jsd.laidOut.proof.data.take (proofSize jsd.useGroth)
      = jsd.proof.data.take (proofSize jsd.useGroth) := by
  apply padProof_take
  rw [List.length_take, jsd.proof.size_data]
  exact Nat.min_eq_left (proofSize_le jsd.useGroth)

theorem jsDescriptionSerialize_laidOut (jsd : JsDescription)
    : jsDescriptionSerialize jsd.laidOut = jsDescriptionSerialize jsd := by
  have front := laidOut_proof jsd
  simp only [jsDescriptionSerialize, JsDescription.laidOut] at front ⊢
  rw [front]

theorem length_ite_le {β : Type} (keep : Bool) (values : List β)
    : (if keep then values else []).length ≤ values.length := by
  cases keep with
  | false => exact Nat.zero_le _
  | true => exact Nat.le_refl _

theorem wellFormed_laidOut (encodable : tx.Encodable) : tx.laidOut.WellFormed := by
  obtain ⟨v3, v4⟩ := laidOut_kind tx
  refine
    { plain := ?_, known := ?_, expiry := ?_, unshielded := ?_, unjoined := ?_, unsigned := ?_,
      unbound := ?_, vin := encodable.vin, vout := encodable.vout, spends := ?_, outputs := ?_,
      joinsplits := ?_, scriptSigs := encodable.scriptSigs,
      scriptPubKeys := encodable.scriptPubKeys, proofs := ?_ }
  · intro plain
    exact ⟨encodable.plain plain, if_neg (Bool.eq_false_iff.mp plain)⟩
  · intro overwintered
    rw [v3, v4]
    exact encodable.known overwintered
  · intro neither
    rw [v3, v4] at neither
    exact if_neg (Bool.eq_false_iff.mp neither)
  · intro notSapling
    rw [v4] at notSapling
    have no := Bool.eq_false_iff.mp notSapling
    exact ⟨if_neg no, if_neg no, if_neg no⟩
  · intro early
    exact if_pos early
  · intro bare
    have none : (tx.version < 2 || tx.vJoinsplit.isEmpty) = true := by
      by_cases early : tx.version < 2
      · simp [early]
      · have empty : tx.vJoinsplit.map JsDescription.laidOut = [] := (if_neg early).symm.trans bare
        simp [List.map_eq_nil_iff.mp empty]
    exact ⟨if_pos none, if_pos none⟩
  · intro unshielded
    cases sapling : tx.isSaplingV4 with
    | false => simp [laidOut, sapling]
    | true =>
      have bare : tx.hasShielded = false := by
        simpa [laidOut, hasShielded, sapling] using unshielded
      simp [laidOut, bare]
  · exact (length_ite_le _ tx.vShieldedSpend).trans encodable.spends
  · exact (length_ite_le _ tx.vShieldedOutput).trans encodable.outputs
  · change (if tx.version < 2 then [] else tx.vJoinsplit.map JsDescription.laidOut).length ≤ _
    split
    · exact Nat.zero_le _
    · rw [List.length_map]
      exact encodable.joinsplits
  · intro jsd held
    change jsd ∈ (if tx.version < 2 then [] else tx.vJoinsplit.map JsDescription.laidOut) at held
    split at held
    · cases held
    · obtain ⟨old, member, rfl⟩ := List.mem_map.mp held
      have kind := encodable.proofs old member
      refine ⟨kind, ?_⟩
      change padProof (old.laidOut.proof.data.take (proofSize tx.usesGroth)) = _
      rw [← kind, laidOut_proof]
      rfl

theorem serialize_laidOut (tx : Transaction) : tx.laidOut.serialize = tx.serialize := by
  obtain ⟨v3, v4⟩ := laidOut_kind tx
  have header : tx.laidOut.serializeHeader = tx.serializeHeader := by
    cases overwintered : tx.overwintered with
    | false => simp [laidOut, serializeHeader, overwintered]
    | true => simp [laidOut, serializeHeader, overwintered]
  have transparent : tx.laidOut.serializeTransparent = tx.serializeTransparent := by
    rw [serializeTransparent, serializeTransparent, v3, v4]
    cases late : (tx.isOverwinterV3 || tx.isSaplingV4) with
    | false => rfl
    | true =>
      have expiry : tx.laidOut.expiryHeight = tx.expiryHeight := if_pos late
      rw [expiry]
      rfl
  have sapling : tx.laidOut.serializeSapling = tx.serializeSapling := by
    rw [serializeSapling, serializeSapling, v4]
    cases kind : tx.isSaplingV4 with
    | false => rfl
    | true => simp [laidOut, kind]
  have joinsplits : tx.laidOut.serializeJoinsplits = tx.serializeJoinsplits := by
    have version : tx.laidOut.version = tx.version := rfl
    rw [serializeJoinsplits, serializeJoinsplits, version]
    by_cases early : tx.version < 2
    · rw [if_pos early, if_pos early]
    · have parts : (tx.vJoinsplit.map JsDescription.laidOut).flatMap jsDescriptionSerialize
          = tx.vJoinsplit.flatMap jsDescriptionSerialize := by
        rw [List.flatMap_map]
        simp only [jsDescriptionSerialize_laidOut]
      rw [if_neg early, if_neg early]
      cases empty : tx.vJoinsplit.isEmpty with
      | false => simp [laidOut, early, empty, parts]
      | true => simp [laidOut, early, empty, parts]
  have binding : (if tx.laidOut.isSaplingV4 && tx.laidOut.hasShielded then
        tx.laidOut.bindingSig.data else [])
      = if tx.isSaplingV4 && tx.hasShielded then tx.bindingSig.data else [] := by
    rw [v4]
    cases kind : tx.isSaplingV4 with
    | false => rfl
    | true =>
      have shielded : tx.laidOut.hasShielded = tx.hasShielded := by
        simp [laidOut, hasShielded, kind]
      rw [shielded]
      cases some_shielded : tx.hasShielded with
      | false => rfl
      | true => simp [laidOut, kind, some_shielded]
  rw [serialize, serialize, header, transparent, sapling, joinsplits, binding]

end LaidOut

/-- The wire format round-trips: an encodable transaction is read back with all the fields its
version writes, and what is accepted with shortest sizes is written as it was read. -/
theorem wire_roundtrip (hash256 : List UInt8 → Uint256)
    : (∀ tx : Transaction, tx.Encodable → ∀ rest,
        deserialize hash256 (tx.serialize ++ rest) = some (tx.laidOut.computeHash hash256, rest))
      ∧ ∀ (bytes rest : List UInt8) (tx : Transaction),
          deserialize hash256 bytes = some (tx, rest) → ShortestSizes hash256 bytes →
            bytes = tx.serialize ++ rest := by
  refine ⟨?_, fun bytes rest tx accepted shortest => serialize_deserialize accepted shortest⟩
  intro tx encodable rest
  rw [← serialize_laidOut]
  exact deserialize_serialize hash256 (wellFormed_laidOut encodable) rest

def sampleTransaction : Transaction :=
  { Transaction.init with
    version := 2
    vin := [⟨⟨Uint256.fill 0, 0⟩, [1], 0xffffffff⟩]
    vout := [⟨7, []⟩]
    lockTime := 5 }

/-- Double SHA-256 of the bytes of the sample. -/
def sampleHash256 (bytes : List UInt8) : Uint256 :=
  if bytes = sampleTransaction.serialize then
    Uint256.ofNatLE 0x4c56da6fc20e52a8db9144c254ed4de258d9f5c9bced63cdea4de5d7d72c2d24
  else Uint256.fill 0

theorem wire_roundtrip_sample
    : deserialize sampleHash256 sampleTransaction.serialize
        = some (sampleTransaction.computeHash sampleHash256, [])
      ∧ sampleTransaction.serialize
          = (sampleTransaction.computeHash sampleHash256).serialize ++ [] := by
  have both := wire_roundtrip sampleHash256
  have back := both.1 sampleTransaction (by decide) []
  rw [List.append_nil] at back
  have plain : sampleTransaction.laidOut = sampleTransaction := by decide
  rw [plain] at back
  refine ⟨back, both.2 _ [] _ back ?_⟩
  rw [ShortestSizes]
  decide

end Transaction

end Z23.Wire
