import Z23.Primitives.TransactionCanonical

/-!
The guards that the transaction reader puts before its allocations. A guard refuses a count when
the unread bytes cannot hold that many elements of the least size; the reader without the guards
accepts the same bytes, since reading the elements runs out of bytes there.
-/

namespace Z23.Wire

open Z23.Lib.Bytes Z23.Lib.Codec

-- The reader without guards

/-- A count, refused beyond the limit, and the elements. -/
def Transaction.deserializeCountedUnguarded {β : Type} (limit : Nat) (read : Reader β)
    : Reader (List β) :=
  fun bytes => do
    let (count, bytes) ← streamReadCompactSize bytes
    if count > limit then none
    else readMany read count bytes

namespace Transaction

def deserializeInputsUnguarded (tx : Transaction) : Reader Transaction := fun bytes => do
  let (vin, bytes) ← deserializeCountedUnguarded maxTxInputs txInDeserialize bytes
  some ({ tx with vin }, bytes)

def deserializeOutputsAndLockUnguarded (tx : Transaction) : Reader Transaction := fun bytes => do
  let (vout, bytes) ← deserializeCountedUnguarded maxTxOutputs txOutDeserialize bytes
  let (lockTime, bytes) ← streamReadU32 bytes
  let tx := { tx with vout, lockTime }
  if tx.isOverwinterV3 || tx.isSaplingV4 then do
    let (expiryHeight, bytes) ← streamReadU32 bytes
    some ({ tx with expiryHeight }, bytes)
  else some (tx, bytes)

def deserializeShieldedUnguarded (tx : Transaction) : Reader Transaction := fun bytes =>
  if tx.isSaplingV4 then do
    let (valueBalance, bytes) ← streamReadI64 bytes
    let (vShieldedSpend, bytes) ←
      deserializeCountedUnguarded maxShieldedSpends spendDescriptionDeserialize bytes
    let (vShieldedOutput, bytes) ←
      deserializeCountedUnguarded maxShieldedOutputs outputDescriptionDeserialize bytes
    some ({ tx with valueBalance, vShieldedSpend, vShieldedOutput }, bytes)
  else some (tx, bytes)

def deserializeJoinsplitsUnguarded (tx : Transaction) : Reader Transaction := fun bytes =>
  if tx.version < 2 then some (tx, bytes)
  else do
    let (vJoinsplit, bytes) ←
      deserializeCountedUnguarded maxJoinsplits (jsDescriptionDeserialize tx.usesGroth) bytes
    if vJoinsplit.isEmpty then some (tx, bytes)
    else do
      let (joinsplitPubkey, bytes) ← streamReadHash bytes
      let (joinsplitSig, bytes) ← readBlob 64 bytes
      some ({ tx with vJoinsplit, joinsplitPubkey, joinsplitSig }, bytes)

/-- `transaction_deserialize` with every guard on a count taken out. -/
def deserializeUnguarded (hash256 : List UInt8 → Uint256) : Reader Transaction := fun bytes => do
  let (tx, bytes) ← deserializeHeader bytes
  let (tx, bytes) ← tx.deserializeInputsUnguarded bytes
  let (tx, bytes) ← tx.deserializeOutputsAndLockUnguarded bytes
  let (tx, bytes) ← tx.deserializeShieldedUnguarded bytes
  let (tx, bytes) ← tx.deserializeJoinsplitsUnguarded bytes
  let (tx, bytes) ← tx.deserializeBindingSig bytes
  some (tx.computeHash hash256, bytes)

end Transaction

-- The least size of an element

theorem streamReadLE_consumes (width : Nat) : Consumes width (streamReadLE width) := by
  intro bytes value rest read
  obtain ⟨front, tail, taken, read⟩ := bind_read read
  cases read
  exact takeBytes_consumes width bytes front rest taken

theorem streamReadCompactSize_consumes : Consumes 1 streamReadCompactSize := by
  intro bytes size rest read
  cases bytes with
  | nil => cases read
  | cons marker tail =>
    have wide : ∀ width, streamReadLE width tail = some (size, rest) →
        1 + rest.length ≤ (marker :: tail).length := by
      intro width longer
      have taken := streamReadLE_consumes width tail size rest longer
      rw [List.length_cons]
      omega
    simp only [streamReadCompactSize, streamReadU8, Option.bind_eq_bind, Option.bind_some] at read
    split at read
    · cases read
      rw [List.length_cons, Nat.add_comm]
    · split at read
      · exact wide 2 read
      · split at read
        · exact wide 4 read
        · exact wide 8 read

theorem streamReadU32_consumes : Consumes 4 streamReadU32 :=
  streamReadU32_only.consumes fun _ => Nat.le_of_eq (length_bytesLE 4 _).symm

theorem streamReadI64_consumes : Consumes 8 streamReadI64 :=
  streamReadI64_only.consumes fun _ => Nat.le_of_eq (length_bytesLE 8 _).symm

theorem outpointDeserialize_consumes : Consumes 36 outpointDeserialize := by
  refine outpointDeserialize_only.consumes fun op => ?_
  rw [outpointSerialize, List.length_append, op.hash.size_data, streamWriteU32, length_bytesLE]

theorem scriptDeserialize_consumes : Consumes 1 scriptDeserialize := by
  intro bytes script rest read
  obtain ⟨size, tail, readSize, read⟩ := bind_read read
  dsimp only at read
  split at read
  · cases read
  · have first := streamReadCompactSize_consumes bytes size tail readSize
    have second := takeBytes_consumes size tail script rest read
    omega

theorem txInDeserialize_consumes : Consumes 41 txInDeserialize := by
  intro bytes input rest read
  obtain ⟨prevout, afterPrevout, readPrevout, read⟩ := bind_read read
  obtain ⟨script, afterScript, readScript, read⟩ := bind_read read
  obtain ⟨sequence, afterSequence, readSequence, read⟩ := bind_read read
  cases read
  have first := outpointDeserialize_consumes bytes prevout afterPrevout readPrevout
  have second := scriptDeserialize_consumes afterPrevout script afterScript readScript
  have third := streamReadU32_consumes afterScript sequence rest readSequence
  omega

theorem txOutDeserialize_consumes : Consumes 9 txOutDeserialize := by
  intro bytes output rest read
  obtain ⟨value, afterValue, readValue, read⟩ := bind_read read
  obtain ⟨script, afterScript, readScript, read⟩ := bind_read read
  cases read
  have first := streamReadI64_consumes bytes value afterValue readValue
  have second := scriptDeserialize_consumes afterValue script rest readScript
  omega

-- The guards refuse nothing that can be read

namespace Transaction

theorem deserializeCounted_unguarded {β : Type} {limit least : Nat} {read : Reader β}
    (consumes : Consumes least read)
    : deserializeCounted limit least read = deserializeCountedUnguarded limit read := by
  funext bytes
  rw [deserializeCounted, deserializeCountedUnguarded]
  congr 1
  funext counted
  obtain ⟨count, rest⟩ := counted
  dsimp only
  split
  · rfl
  · split
    · rename_i short
      -- a run over the elements would have taken more bytes than there are
      symm
      rw [Option.eq_none_iff_forall_ne_some]
      rintro ⟨values, last⟩ done
      have taken := readMany_consumes consumes count rest values last done
      omega
    · rfl

theorem deserializeInputs_unguarded (tx : Transaction)
    : tx.deserializeInputs = tx.deserializeInputsUnguarded := by
  funext bytes
  rw [deserializeInputs, deserializeInputsUnguarded,
    deserializeCounted_unguarded txInDeserialize_consumes]

theorem deserializeOutputsAndLock_unguarded (tx : Transaction)
    : tx.deserializeOutputsAndLock = tx.deserializeOutputsAndLockUnguarded := by
  funext bytes
  rw [deserializeOutputsAndLock, deserializeOutputsAndLockUnguarded,
    deserializeCounted_unguarded txOutDeserialize_consumes]

theorem deserializeShielded_unguarded (tx : Transaction)
    : tx.deserializeShielded = tx.deserializeShieldedUnguarded := by
  have spends : Consumes 384 spendDescriptionDeserialize :=
    spendDescriptionDeserialize_only.consumes length_spendDescriptionSerialize
  have outputs : Consumes 948 outputDescriptionDeserialize :=
    outputDescriptionDeserialize_only.consumes length_outputDescriptionSerialize
  funext bytes
  rw [deserializeShielded, deserializeShieldedUnguarded, deserializeCounted_unguarded spends,
    deserializeCounted_unguarded outputs]

theorem deserializeJoinsplits_unguarded (tx : Transaction)
    : tx.deserializeJoinsplits = tx.deserializeJoinsplitsUnguarded := by
  have joinsplits : Consumes 1634 (jsDescriptionDeserialize tx.usesGroth) :=
    ReadsOnly.consumes (jsDescriptionDeserialize_only tx.usesGroth) length_jsDescriptionSerialize
  funext bytes
  rw [deserializeJoinsplits, deserializeJoinsplitsUnguarded,
    deserializeCounted_unguarded joinsplits]

/-- The reader accepts the same bytes with and without its guards, as the same transaction. -/
theorem deserialize_eq_unguarded (hash256 : List UInt8 → Uint256)
    : Transaction.deserialize hash256 = deserializeUnguarded hash256 := by
  funext bytes
  rw [Transaction.deserialize, deserializeUnguarded]
  simp only [deserializeInputs_unguarded, deserializeOutputsAndLock_unguarded,
    deserializeShielded_unguarded, deserializeJoinsplits_unguarded]

end Transaction

end Z23.Wire
