import Z23.Consensus.SigHash

/-!
What a signature hash of the Overwinter and Sapling forms commits to. The digest is a function of a
record of covered data, and as long as BLAKE2b tells apart what was hashed for two digests, the
digests are equal only if the records are.
-/

namespace Z23.Wire

open Z23.Lib.Bytes
open Z23.Lib.Codec

-- Covered data

/-- What is signed, except for the hash type. -/
structure Signing where
  scriptCode : Script
  tx : Transaction
  nIn : UInt32
  amount : Int64
  consensusBranchId : UInt32

def Signing.digest (s : Signing) (hashes : Hashes) (hashType : UInt32) : Option Uint256 :=
  signatureHash hashes s.scriptCode s.tx s.nIn hashType s.amount s.consensusBranchId none

/-- A spend without its authorizing signature. -/
structure CoveredSpend where
  cv : Uint256
  anchor : Uint256
  nullifier : Uint256
  rk : Uint256
  zkproof : Blob grothProofSize
deriving DecidableEq, Repr

structure CoveredInput where
  prevout : Outpoint
  scriptCode : Script
  amount : Int64
  sequence : UInt32
deriving DecidableEq, Repr

structure CoveredSapling where
  spends : List CoveredSpend
  outputs : List OutputDescription
  valueBalance : Int64
deriving DecidableEq, Repr

/-- Parts that the hash type or the version excludes are `none`. -/
structure Covered where
  consensusBranchId : UInt32
  header : UInt32
  versionGroupId : UInt32
  prevouts : Option (List Outpoint)
  sequences : Option (List UInt32)
  outputs : Option (List TxOut)
  joinsplits : Option (List JsDescription × Uint256)
  sapling : Option CoveredSapling
  lockTime : UInt32
  expiryHeight : UInt32
  input : Option CoveredInput
deriving DecidableEq, Repr

def SpendDescription.covered (sd : SpendDescription) : CoveredSpend :=
  ⟨sd.cv, sd.anchor, sd.nullifier, sd.rk, sd.zkproof⟩

/-- All inputs are covered unless anyone can pay. -/
def coveredPrevouts (tx : Transaction) (hashType : UInt32) : Option (List Outpoint) :=
  if sighashHasAnyoneCanPay hashType then none else some (tx.vin.map TxIn.prevout)

/-- All sequences are covered unless anyone can pay or outputs are left open. -/
def coveredSequences (tx : Transaction) (hashType : UInt32) : Option (List UInt32) :=
  if sighashHasAnyoneCanPay hashType ∨ sighashGetBaseType hashType = sighashSingle
      ∨ sighashGetBaseType hashType = sighashNone then none
  else some (tx.vin.map TxIn.sequence)

/-- The output beside the input, no output, or all of them. -/
def coveredOutputs (tx : Transaction) (nIn hashType : UInt32) : Option (List TxOut) :=
  if sighashGetBaseType hashType = sighashSingle then
    tx.vout[nIn.toNat]?.map fun output => [output]
  else if sighashGetBaseType hashType = sighashNone then none
  else some tx.vout

def coveredJoinsplits (tx : Transaction) : Option (List JsDescription × Uint256) :=
  if tx.vJoinsplit = [] then none else some (tx.vJoinsplit, tx.joinsplitPubkey)

def coveredSapling (tx : Transaction) : Option CoveredSapling :=
  if tx.versionGroupId = saplingVersionGroupId then
    some ⟨tx.vShieldedSpend.map SpendDescription.covered, tx.vShieldedOutput, tx.valueBalance⟩
  else none

/-- The input that is signed, if one is. -/
def Signing.input (s : Signing) : Option CoveredInput :=
  if s.nIn = notAnInput then none
  else s.tx.vin[s.nIn.toNat]?.map fun input =>
    ⟨input.prevout, s.scriptCode, s.amount, input.sequence⟩

def Signing.covered (s : Signing) (hashType : UInt32) : Covered where
  consensusBranchId := s.consensusBranchId
  header := txGetHeader s.tx
  versionGroupId := s.tx.versionGroupId
  prevouts := coveredPrevouts s.tx hashType
  sequences := coveredSequences s.tx hashType
  outputs := coveredOutputs s.tx s.nIn hashType
  joinsplits := coveredJoinsplits s.tx
  sapling := coveredSapling s.tx
  lockTime := s.tx.lockTime
  expiryHeight := s.tx.expiryHeight
  input := s.input

-- What is hashed

def CoveredSpend.bytes (spend : CoveredSpend) : List UInt8 :=
  spend.cv.data ++ spend.anchor.data ++ spend.nullifier.data ++ spend.rk.data ++ spend.zkproof.data

def CoveredInput.bytes (input : CoveredInput) : List UInt8 :=
  outpointSerialize input.prevout ++ scriptSerialize input.scriptCode
    ++ streamWriteI64 input.amount ++ streamWriteU32 input.sequence

/-- The bytes of a list of descriptions, nothing for the empty list. -/
def listBytes {α : Type} (write : α → List UInt8) : List α → Option (List UInt8)
  | [] => none
  | value :: values => some ((value :: values).flatMap write)

def Covered.prevoutBytes (c : Covered) : Option (List UInt8) :=
  c.prevouts.map fun prevouts => prevouts.flatMap outpointSerialize

def Covered.sequenceBytes (c : Covered) : Option (List UInt8) :=
  c.sequences.map fun sequences => sequences.flatMap streamWriteU32

def Covered.outputBytes (c : Covered) : Option (List UInt8) :=
  c.outputs.map fun outputs => outputs.flatMap txOutSerialize

def Covered.joinsplitBytes (c : Covered) : Option (List UInt8) :=
  c.joinsplits.map fun joins => joins.1.flatMap jsDescriptionSerialize ++ joins.2.data

def CoveredSapling.spendBytes (sapling : CoveredSapling) : Option (List UInt8) :=
  listBytes CoveredSpend.bytes sapling.spends

def CoveredSapling.outputBytes (sapling : CoveredSapling) : Option (List UInt8) :=
  listBytes outputDescriptionSerialize sapling.outputs

/-- The digest of a part, null where the part is left out. -/
def partDigest (hashes : Hashes) (personal : List UInt8) : Option (List UInt8) → Uint256
  | none => nullHash
  | some bytes => hashes.blake2b personal bytes

/-- The hashed bytes of the shielded parts and those of the balance. -/
def saplingBytes (hashes : Hashes) : Option CoveredSapling → List UInt8 × List UInt8
  | none => ([], [])
  | some sapling =>
    ((partDigest hashes shieldedSpendsPersonal sapling.spendBytes).data
      ++ (partDigest hashes shieldedOutputsPersonal sapling.outputBytes).data,
      streamWriteI64 sapling.valueBalance)

def inputBytes : Option CoveredInput → List UInt8
  | none => []
  | some input => input.bytes

def Covered.preimage (c : Covered) (hashes : Hashes) (hashType : UInt32) : List UInt8 :=
  streamWriteU32 c.header ++ streamWriteU32 c.versionGroupId
    ++ (partDigest hashes prevoutsPersonal c.prevoutBytes).data
    ++ (partDigest hashes sequencePersonal c.sequenceBytes).data
    ++ (partDigest hashes outputsPersonal c.outputBytes).data
    ++ (partDigest hashes joinsplitsPersonal c.joinsplitBytes).data
    ++ (saplingBytes hashes c.sapling).1
    ++ streamWriteU32 c.lockTime ++ streamWriteU32 c.expiryHeight
    ++ (saplingBytes hashes c.sapling).2
    ++ streamWriteU32 hashType ++ inputBytes c.input

def Covered.digest (c : Covered) (hashes : Hashes) (hashType : UInt32) : Uint256 :=
  hashes.blake2b (sigHashPersonal c.consensusBranchId) (c.preimage hashes hashType)

-- The digest is one of the covered data

section

variable (hashes : Hashes)

theorem sighashOverwinterPrevoutSequence_parts (tx : Transaction) (hashType : UInt32)
    : sighashOverwinterPrevoutSequence hashes tx hashType none
      = (partDigest hashes prevoutsPersonal
          ((coveredPrevouts tx hashType).map fun prevouts => prevouts.flatMap outpointSerialize),
        partDigest hashes sequencePersonal
          ((coveredSequences tx hashType).map fun sequences =>
            sequences.flatMap streamWriteU32)) := by
  rw [sighashOverwinterPrevoutSequence, coveredPrevouts, coveredSequences]
  cases anyone : sighashHasAnyoneCanPay hashType with
  | true => rfl
  | false =>
    by_cases single : sighashGetBaseType hashType = sighashSingle
    · simp [single, partDigest, getPrevoutHash, List.flatMap_map]
    by_cases none : sighashGetBaseType hashType = sighashNone
    · simp [none, partDigest, getPrevoutHash, List.flatMap_map]
    · simp [single, none, partDigest, getPrevoutHash, getSequenceHash, List.flatMap_map]

theorem sighashOverwinterOutputs_part (tx : Transaction) (nIn hashType : UInt32)
    : sighashOverwinterOutputs hashes tx nIn hashType none
      = partDigest hashes outputsPersonal
          ((coveredOutputs tx nIn hashType).map fun outputs =>
            outputs.flatMap txOutSerialize) := by
  rw [sighashOverwinterOutputs, coveredOutputs]
  by_cases single : sighashGetBaseType hashType = sighashSingle
  · rw [single]
    cases found : tx.vout[nIn.toNat]? with
    | none => simp [partDigest]
    | some output => simp [partDigest]
  by_cases none : sighashGetBaseType hashType = sighashNone
  · rw [none]
    rfl
  · simp [single, none, partDigest, getOutputsHash]

theorem sighashJoinsplits_part (tx : Transaction)
    : sighashJoinsplits hashes tx none
      = partDigest hashes joinsplitsPersonal
          ((coveredJoinsplits tx).map fun joins =>
            joins.1.flatMap jsDescriptionSerialize ++ joins.2.data) := by
  rw [sighashJoinsplits, coveredJoinsplits, getJoinsplitsHash]
  cases joins : tx.vJoinsplit with
  | nil => rfl
  | cons jsd joins => rfl

theorem sighashSection_list {α : Type} (personal : List UInt8) (write : α → List UInt8)
    (values : List α)
    : sighashSection values.length none (hashes.blake2b personal (values.flatMap write))
      = partDigest hashes personal (listBytes write values) := by
  cases values with
  | nil => rfl
  | cons value values => rfl

theorem sighashShieldedSpends_part (tx : Transaction)
    : sighashShieldedSpends hashes tx none
      = partDigest hashes shieldedSpendsPersonal
          (listBytes CoveredSpend.bytes (tx.vShieldedSpend.map SpendDescription.covered)) := by
  have bytes : tx.vShieldedSpend.flatMap spendSighashBytes
      = (tx.vShieldedSpend.map SpendDescription.covered).flatMap CoveredSpend.bytes := by
    rw [List.flatMap_map]
    rfl
  have count : tx.vShieldedSpend.length
      = (tx.vShieldedSpend.map SpendDescription.covered).length := List.length_map _ |>.symm
  rw [sighashShieldedSpends, getShieldedSpendsHash, bytes, count]
  exact sighashSection_list hashes _ _ _

theorem sighashShieldedOutputs_part (tx : Transaction)
    : sighashShieldedOutputs hashes tx none
      = partDigest hashes shieldedOutputsPersonal
          (listBytes outputDescriptionSerialize tx.vShieldedOutput) :=
  sighashSection_list hashes _ _ _

theorem signatureHashVersion_sapling {tx : Transaction} (overwintered : tx.overwintered = true)
    : signatureHashVersion tx = .sapling ↔ tx.versionGroupId = saplingVersionGroupId := by
  rw [signatureHashVersion, if_pos overwintered]
  split
  · simp_all
  · simp_all

/-- The input is one of the transaction, or none is signed. -/
def Signing.Inside (s : Signing) : Prop := s.nIn ≠ notAnInput → s.nIn.toNat < s.tx.vin.length

variable {s : Signing}

theorem sighashInput_covered (inside : s.Inside)
    : sighashInput s.scriptCode s.tx s.nIn s.amount = some (inputBytes s.input) := by
  rw [sighashInput, Signing.input]
  by_cases absent : s.nIn = notAnInput
  · simp [absent, inputBytes]
  · simp only [absent, if_false, ne_eq, not_false_eq_true, if_true, inputBytes,
      List.getElem?_eq_getElem (inside absent), Option.map_some, Option.bind_eq_bind,
      Option.bind_some, CoveredInput.bytes, scriptSerialize, sighashScriptCompactSize,
      List.append_assoc]

theorem inside_of_digest {hashType : UInt32} {digest : Uint256}
    (succeeds : s.digest hashes hashType = some digest) : s.Inside := by
  rw [Signing.digest, signatureHash] at succeeds
  split at succeeds
  · cases succeeds
  · rename_i inside
    intro present
    by_contra beyond
    exact inside ⟨Nat.le_of_not_lt beyond, present⟩

theorem digest_covered (hashType : UInt32) (overwintered : s.tx.overwintered = true)
    (inside : s.Inside)
    : s.digest hashes hashType = some ((s.covered hashType).digest hashes hashType) := by
  have version := signatureHashVersion_sapling overwintered
  have form : signatureHashVersion s.tx = .overwinter ∨ signatureHashVersion s.tx = .sapling := by
    rw [signatureHashVersion, if_pos overwintered]
    split
    · exact .inr rfl
    · exact .inl rfl
  have range : ¬ (s.nIn.toNat ≥ s.tx.vin.length ∧ s.nIn ≠ notAnInput) := fun beyond =>
    Nat.not_lt.mpr beyond.1 (inside beyond.2)
  rw [Signing.digest, signatureHash, if_neg range]
  dsimp only
  rw [if_pos form, sighashOverwinterSapling, sighashOverwinterPrevoutSequence_parts,
    sighashInput_covered inside]
  simp only [Option.bind_eq_bind, Option.bind_some]
  rw [Covered.digest, Covered.preimage, sighashOverwinterOutputs_part, sighashJoinsplits_part,
    sighashShieldedSpends_part, sighashShieldedOutputs_part]
  by_cases sapling : s.tx.versionGroupId = saplingVersionGroupId
  · rw [version.mpr sapling]
    simp only [Signing.covered, coveredSapling, if_pos sapling, saplingBytes]
    rfl
  · rw [if_neg (mt version.mp sapling), if_neg (mt version.mp sapling)]
    simp only [Signing.covered, coveredSapling, if_neg sapling, saplingBytes]
    rfl

end

-- Telling apart what was hashed

/-- A personalization and the bytes hashed under it. -/
abbrev HashCall := List UInt8 × List UInt8

def partCall (personal : List UInt8) (part : Option (List UInt8)) : List HashCall :=
  match part with
  | none => []
  | some bytes => [(personal, bytes)]

/-- Everything that is hashed for a digest. -/
def Covered.calls (c : Covered) (hashes : Hashes) (hashType : UInt32) : List HashCall :=
  partCall prevoutsPersonal c.prevoutBytes ++ partCall sequencePersonal c.sequenceBytes
    ++ partCall outputsPersonal c.outputBytes ++ partCall joinsplitsPersonal c.joinsplitBytes
    ++ partCall shieldedSpendsPersonal (c.sapling.bind CoveredSapling.spendBytes)
    ++ partCall shieldedOutputsPersonal (c.sapling.bind CoveredSapling.outputBytes)
    ++ [(sigHashPersonal c.consensusBranchId, c.preimage hashes hashType)]

/-- BLAKE2b is injective in personalization and bytes on the calls, and none of them gives the null
digest that stands for parts left out. -/
structure Distinguishes (hashes : Hashes) (calls : List HashCall) : Prop where
  injective
    : ∀ p ∈ calls, ∀ q ∈ calls, hashes.blake2b p.1 p.2 = hashes.blake2b q.1 q.2 → p = q
  nonnull : ∀ p ∈ calls, hashes.blake2b p.1 p.2 ≠ nullHash

variable {hashes : Hashes}

theorem partDigest_inj {calls : List HashCall} (distinguishes : Distinguishes hashes calls)
    {personal : List UInt8} {a b : Option (List UInt8)} (aCalled : partCall personal a ⊆ calls)
    (bCalled : partCall personal b ⊆ calls)
    (same : partDigest hashes personal a = partDigest hashes personal b) : a = b := by
  cases a with
  | none =>
    cases b with
    | none => rfl
    | some b =>
      exact absurd same.symm (distinguishes.nonnull _ (bCalled List.mem_cons_self))
  | some a =>
    cases b with
    | none => exact absurd same (distinguishes.nonnull _ (aCalled List.mem_cons_self))
    | some b =>
      have calls := distinguishes.injective _ (aCalled List.mem_cons_self) _
        (bCalled List.mem_cons_self) same
      exact congrArg some (Prod.mk.inj calls).2

-- Equal bytes are bytes of equal parts

/-- The kind of proofs that a header asks for. -/
def headerUsesGroth (header : UInt32) : Bool :=
  saplingTxVersion ≤ (header &&& 0x7fffffff).toInt32

/-- Covered data of a transaction that the reader can produce. -/
structure Covered.Formed (c : Covered) : Prop where
  outputs
    : ∀ outputs, c.outputs = some outputs →
        ∀ output ∈ outputs, output.scriptPubKey.length ≤ maxScriptSize
  joinsplits
    : ∀ joins, c.joinsplits = some joins →
        ∀ jsd ∈ joins.1, jsd.WellFormed (headerUsesGroth c.header)
  sapling : c.sapling.isSome = true ↔ c.versionGroupId = saplingVersionGroupId
  input : ∀ input, c.input = some input → input.scriptCode.length ≤ maxScriptSize

variable {a b : Covered}

theorem prevoutBytes_inj (same : a.prevoutBytes = b.prevoutBytes)
    : a.prevouts = b.prevouts := by
  have long : ∀ op, outpointSerialize op ≠ [] := fun op => by
    apply List.ne_nil_of_length_pos
    simp [outpointSerialize, op.hash.size_data]
  exact (ReadsBack.on outpointDeserialize_write fun _ => True).delimits.map_flatMap_inj long
    (fun _ _ _ _ => trivial) (fun _ _ _ _ => trivial) same

theorem sequenceBytes_inj (same : a.sequenceBytes = b.sequenceBytes)
    : a.sequences = b.sequences := by
  have long : ∀ value, streamWriteU32 value ≠ [] := fun value => by
    apply List.ne_nil_of_length_pos
    simp [streamWriteU32]
  exact (ReadsBack.on streamReadU32_write fun _ => True).delimits.map_flatMap_inj long
    (fun _ _ _ _ => trivial) (fun _ _ _ _ => trivial) same

theorem outputBytes_inj (aFormed : a.Formed) (bFormed : b.Formed)
    (same : a.outputBytes = b.outputBytes) : a.outputs = b.outputs := by
  have long : ∀ output, txOutSerialize output ≠ [] := fun output =>
    List.ne_nil_of_length_pos (Nat.lt_of_lt_of_le (by decide) (length_txOutSerialize output))
  exact txOutDeserialize_write.delimits.map_flatMap_inj long aFormed.outputs bFormed.outputs same

theorem joinsplitBytes_inj (aFormed : a.Formed) (bFormed : b.Formed) (header : a.header = b.header)
    (same : a.joinsplitBytes = b.joinsplitBytes)
    : a.joinsplits = b.joinsplits := by
  have aProofs := aFormed.joinsplits
  have bProofs := bFormed.joinsplits
  rw [Covered.joinsplitBytes, Covered.joinsplitBytes] at same
  rw [← header] at bProofs
  generalize a.joinsplits = aJoins at same aProofs ⊢
  generalize b.joinsplits = bJoins at same bProofs ⊢
  cases aJoins with
  | none =>
    cases bJoins with
    | none => rfl
    | some bJoins => cases same
  | some aJoins =>
    cases bJoins with
    | none => cases same
    | some bJoins =>
      obtain ⟨joins, pubkey⟩ := List.append_inj' (Option.some.inj same)
        (aJoins.2.size_data.trans bJoins.2.size_data.symm)
      have long : ∀ jsd, jsDescriptionSerialize jsd ≠ [] := fun jsd =>
        List.ne_nil_of_length_pos
          (Nat.lt_of_lt_of_le (by decide) (length_jsDescriptionSerialize jsd))
      have descriptions := (jsDescriptionDeserialize_write _).delimits.flatMap_inj long
        (aProofs _ rfl) (bProofs _ rfl) joins
      exact congrArg some (Prod.ext descriptions (Uint256.ext pubkey))

theorem CoveredSpend.delimits : Delimits (fun _ => True) CoveredSpend.bytes := by
  intro a b aRest bRest _ _ same
  simp only [CoveredSpend.bytes, List.append_assoc] at same
  obtain ⟨cv, same⟩ := ReadsBack.append_inj streamReadHash_data same
  obtain ⟨anchor, same⟩ := ReadsBack.append_inj streamReadHash_data same
  obtain ⟨nullifier, same⟩ := ReadsBack.append_inj streamReadHash_data same
  obtain ⟨rk, same⟩ := ReadsBack.append_inj streamReadHash_data same
  obtain ⟨zkproof, rest⟩ := ReadsBack.append_inj (readBlob_data grothProofSize) same
  cases a
  cases b
  cases cv
  cases anchor
  cases nullifier
  cases rk
  cases zkproof
  exact ⟨rfl, rest⟩

theorem listBytes_inj {α : Type} {write : α → List UInt8}
    (delimits : Delimits (fun _ => True) write) (long : ∀ value, write value ≠ [])
    {xs ys : List α} (same : listBytes write xs = listBytes write ys) : xs = ys := by
  have flat : xs.flatMap write = ys.flatMap write := by
    cases xs with
    | nil =>
      cases ys with
      | nil => rfl
      | cons y ys => cases same
    | cons x xs =>
      cases ys with
      | nil => cases same
      | cons y ys => exact Option.some.inj same
  exact delimits.flatMap_inj long (fun _ _ => trivial) (fun _ _ => trivial) flat

theorem spendBytes_inj {a b : CoveredSapling} (same : a.spendBytes = b.spendBytes)
    : a.spends = b.spends := by
  have long : ∀ spend, CoveredSpend.bytes spend ≠ [] := fun spend => by
    apply List.ne_nil_of_length_pos
    simp [CoveredSpend.bytes, spend.cv.size_data]
  exact listBytes_inj CoveredSpend.delimits long same

theorem shieldedOutputBytes_inj {a b : CoveredSapling} (same : a.outputBytes = b.outputBytes)
    : a.outputs = b.outputs := by
  have long : ∀ od, outputDescriptionSerialize od ≠ [] := fun od =>
    List.ne_nil_of_length_pos
      (Nat.lt_of_lt_of_le (by decide) (length_outputDescriptionSerialize od))
  exact listBytes_inj (ReadsBack.on outputDescriptionDeserialize_write _).delimits long same

theorem inputBytes_inj {a b : Option CoveredInput}
    (aShort : ∀ input, a = some input → input.scriptCode.length ≤ maxScriptSize)
    (bShort : ∀ input, b = some input → input.scriptCode.length ≤ maxScriptSize)
    (same : inputBytes a = inputBytes b) : a = b := by
  have long : ∀ input, CoveredInput.bytes input ≠ [] := fun input => by
    apply List.ne_nil_of_length_pos
    simp [CoveredInput.bytes, outpointSerialize, input.prevout.hash.size_data]
  cases a with
  | none =>
    cases b with
    | none => rfl
    | some b => exact absurd same.symm (long b)
  | some a =>
    cases b with
    | none => exact absurd same (long a)
    | some b =>
      simp only [inputBytes, CoveredInput.bytes, List.append_assoc] at same
      obtain ⟨prevout, same⟩ := ReadsBack.append_inj outpointDeserialize_write same
      obtain ⟨scriptCode, same⟩ :=
        scriptDeserialize_write.delimits _ _ _ _ (aShort a rfl) (bShort b rfl) same
      obtain ⟨amount, same⟩ := ReadsBack.append_inj streamReadI64_write same
      rw [← List.append_nil (streamWriteU32 a.sequence),
        ← List.append_nil (streamWriteU32 b.sequence)] at same
      obtain ⟨sequence, -⟩ := ReadsBack.append_inj streamReadU32_write same
      cases a
      cases b
      cases prevout
      cases scriptCode
      cases amount
      cases sequence
      rfl

theorem saplingBytes_inj {calls : List HashCall} (distinguishes : Distinguishes hashes calls)
    {a b : Option CoveredSapling} (kind : a.isSome = b.isSome)
    (aSpends : partCall shieldedSpendsPersonal (a.bind CoveredSapling.spendBytes) ⊆ calls)
    (bSpends : partCall shieldedSpendsPersonal (b.bind CoveredSapling.spendBytes) ⊆ calls)
    (aOutputs : partCall shieldedOutputsPersonal (a.bind CoveredSapling.outputBytes) ⊆ calls)
    (bOutputs : partCall shieldedOutputsPersonal (b.bind CoveredSapling.outputBytes) ⊆ calls)
    {aLock aExpiry bLock bExpiry : UInt32} {aRest bRest : List UInt8}
    (same : (saplingBytes hashes a).1 ++ (streamWriteU32 aLock ++ (streamWriteU32 aExpiry ++
      ((saplingBytes hashes a).2 ++ aRest))) =
      (saplingBytes hashes b).1 ++ (streamWriteU32 bLock ++ (streamWriteU32 bExpiry ++
      ((saplingBytes hashes b).2 ++ bRest))))
    : a = b ∧ aLock = bLock ∧ aExpiry = bExpiry ∧ aRest = bRest := by
  cases a with
  | none =>
    cases b with
    | some b => cases kind
    | none =>
      obtain ⟨lock, same⟩ := ReadsBack.append_inj streamReadU32_write same
      obtain ⟨expiry, rest⟩ := ReadsBack.append_inj streamReadU32_write same
      exact ⟨rfl, lock, expiry, rest⟩
  | some a =>
    cases b with
    | none => cases kind
    | some b =>
      simp only [saplingBytes, List.append_assoc] at same
      obtain ⟨spends, same⟩ := ReadsBack.append_inj streamReadHash_data same
      obtain ⟨outputs, same⟩ := ReadsBack.append_inj streamReadHash_data same
      obtain ⟨lock, same⟩ := ReadsBack.append_inj streamReadU32_write same
      obtain ⟨expiry, same⟩ := ReadsBack.append_inj streamReadU32_write same
      obtain ⟨balance, rest⟩ := ReadsBack.append_inj streamReadI64_write same
      have spends := spendBytes_inj (partDigest_inj distinguishes aSpends bSpends spends)
      have outputs :=
        shieldedOutputBytes_inj (partDigest_inj distinguishes aOutputs bOutputs outputs)
      cases a
      cases b
      cases spends
      cases outputs
      cases balance
      exact ⟨rfl, lock, expiry, rest⟩

/-- The calls of a digest, one part after the other. -/
structure Covered.Called (c : Covered) (hashes : Hashes) (hashType : UInt32)
    (calls : List HashCall) : Prop where
  prevouts : partCall prevoutsPersonal c.prevoutBytes ⊆ calls
  sequences : partCall sequencePersonal c.sequenceBytes ⊆ calls
  outputs : partCall outputsPersonal c.outputBytes ⊆ calls
  joinsplits : partCall joinsplitsPersonal c.joinsplitBytes ⊆ calls
  spends : partCall shieldedSpendsPersonal (c.sapling.bind CoveredSapling.spendBytes) ⊆ calls
  shieldedOutputs
    : partCall shieldedOutputsPersonal (c.sapling.bind CoveredSapling.outputBytes) ⊆ calls
  whole : (sigHashPersonal c.consensusBranchId, c.preimage hashes hashType) ∈ calls

variable {hashType : UInt32}

theorem Covered.called {c : Covered} {calls : List HashCall}
    (within : c.calls hashes hashType ⊆ calls)
    : c.Called hashes hashType calls where
  prevouts _ member := within (by simp [Covered.calls, member])
  sequences _ member := within (by simp [Covered.calls, member])
  outputs _ member := within (by simp [Covered.calls, member])
  joinsplits _ member := within (by simp [Covered.calls, member])
  spends _ member := within (by simp [Covered.calls, member])
  shieldedOutputs _ member := within (by simp [Covered.calls, member])
  whole := within (by simp [Covered.calls])

theorem Covered.digest_inj (aFormed : a.Formed) (bFormed : b.Formed) {calls : List HashCall}
    (distinguishes : Distinguishes hashes calls) (aCalled : a.Called hashes hashType calls)
    (bCalled : b.Called hashes hashType calls)
    (same : a.digest hashes hashType = b.digest hashes hashType) : a = b := by
  have calls := distinguishes.injective _ aCalled.whole _ bCalled.whole same
  obtain ⟨branch, bytes⟩ := Prod.mk.inj calls
  have branch := List.append_cancel_left branch
  rw [← List.append_nil (streamWriteU32 a.consensusBranchId),
    ← List.append_nil (streamWriteU32 b.consensusBranchId)] at branch
  obtain ⟨branch, -⟩ := ReadsBack.append_inj streamReadU32_write branch
  simp only [Covered.preimage, List.append_assoc] at bytes
  obtain ⟨header, bytes⟩ := ReadsBack.append_inj streamReadU32_write bytes
  obtain ⟨group, bytes⟩ := ReadsBack.append_inj streamReadU32_write bytes
  obtain ⟨prevouts, bytes⟩ := ReadsBack.append_inj streamReadHash_data bytes
  obtain ⟨sequences, bytes⟩ := ReadsBack.append_inj streamReadHash_data bytes
  obtain ⟨outputs, bytes⟩ := ReadsBack.append_inj streamReadHash_data bytes
  obtain ⟨joinsplits, bytes⟩ := ReadsBack.append_inj streamReadHash_data bytes
  have kind : a.sapling.isSome = b.sapling.isSome := by
    rw [Bool.eq_iff_iff, aFormed.sapling, bFormed.sapling, group]
  obtain ⟨sapling, lock, expiry, bytes⟩ := saplingBytes_inj distinguishes kind aCalled.spends
    bCalled.spends aCalled.shieldedOutputs bCalled.shieldedOutputs bytes
  obtain ⟨-, bytes⟩ := ReadsBack.append_inj streamReadU32_write bytes
  have prevouts := prevoutBytes_inj
    (partDigest_inj distinguishes aCalled.prevouts bCalled.prevouts prevouts)
  have sequences := sequenceBytes_inj
    (partDigest_inj distinguishes aCalled.sequences bCalled.sequences sequences)
  have outputs := outputBytes_inj aFormed bFormed
    (partDigest_inj distinguishes aCalled.outputs bCalled.outputs outputs)
  have joinsplits := joinsplitBytes_inj aFormed bFormed header
    (partDigest_inj distinguishes aCalled.joinsplits bCalled.joinsplits joinsplits)
  have input := inputBytes_inj aFormed.input bFormed.input bytes
  cases a
  cases b
  simp only [Covered.mk.injEq]
  exact ⟨branch, header, group, prevouts, sequences, outputs, joinsplits, sapling, lock, expiry,
    input⟩

-- Signatures commit to the covered data

/-- An overwintered transaction as the reader leaves it, and scripts of the largest size at most. -/
structure Signing.Formed (s : Signing) : Prop where
  overwintered : s.tx.overwintered = true
  nonneg : 0 ≤ s.tx.version
  proofs : ∀ jsd ∈ s.tx.vJoinsplit, jsd.WellFormed s.tx.usesGroth
  scriptPubKeys : ∀ output ∈ s.tx.vout, output.scriptPubKey.length ≤ maxScriptSize
  scriptCode : s.scriptCode.length ≤ maxScriptSize

theorem usesGroth_header {tx : Transaction} (overwintered : tx.overwintered = true)
    (nonneg : 0 ≤ tx.version) : tx.usesGroth = headerUsesGroth (txGetHeader tx) := by
  have small := Transaction.toNat_toUInt32_of_nonneg nonneg
  have masked : txGetHeader tx &&& 0x7fffffff = tx.version.toUInt32 := by
    apply UInt32.toNat.inj
    rw [txGetHeader, if_pos overwintered, UInt32.toNat_and, UInt32.toNat_or]
    refine (Nat.and_two_pow_sub_one_eq_mod _ 31).trans ?_
    have sum := Nat.two_pow_add_eq_or_of_lt small 1
    rw [Nat.mul_one, Nat.or_comm] at sum
    refine (congrArg (· % 2 ^ 31) sum.symm).trans ?_
    rw [Nat.add_mod_left]
    exact Nat.mod_eq_of_lt small
  rw [headerUsesGroth, masked, Transaction.usesGroth, overwintered, Bool.true_and,
    Int32.toInt32_toUInt32]

variable {s : Signing}

theorem Signing.Formed.covered (formed : s.Formed) (hashType : UInt32)
    : (s.covered hashType).Formed where
  outputs := by
    intro outputs found output member
    apply formed.scriptPubKeys
    simp only [Signing.covered, coveredOutputs] at found
    split at found
    · obtain ⟨single, inside, rfl⟩ := Option.map_eq_some_iff.mp found
      rw [List.mem_singleton.mp member]
      exact List.mem_of_getElem? inside
    · split at found
      · cases found
      · cases found
        exact member
  joinsplits := by
    intro joins found
    change ∀ jsd ∈ joins.1, jsd.WellFormed (headerUsesGroth (txGetHeader s.tx))
    rw [← usesGroth_header formed.overwintered formed.nonneg]
    simp only [Signing.covered, coveredJoinsplits] at found
    split at found
    · cases found
    · cases found
      exact formed.proofs
  sapling := by
    simp only [Signing.covered, coveredSapling]
    split
    · simp_all
    · simp_all
  input := by
    intro input found
    simp only [Signing.covered, Signing.input] at found
    split at found
    · cases found
    · obtain ⟨signed, -, rfl⟩ := Option.map_eq_some_iff.mp found
      exact formed.scriptCode

/-- The transactions agree on everything that the hash type covers for the input. Scripts of inputs,
authorizing signatures of spends, the signature of the joinsplits and the binding signature are free. -/
structure Agree (hashType nIn : UInt32) (tx other : Transaction) : Prop where
  overwintered : tx.overwintered = other.overwintered
  version : tx.version = other.version
  versionGroupId : tx.versionGroupId = other.versionGroupId
  lockTime : tx.lockTime = other.lockTime
  expiryHeight : tx.expiryHeight = other.expiryHeight
  valueBalance : tx.valueBalance = other.valueBalance
  joinsplits : tx.vJoinsplit = other.vJoinsplit
  joinsplitPubkey : tx.joinsplitPubkey = other.joinsplitPubkey
  spends
    : tx.vShieldedSpend.map SpendDescription.covered
        = other.vShieldedSpend.map SpendDescription.covered
  shieldedOutputs : tx.vShieldedOutput = other.vShieldedOutput
  prevouts
    : sighashHasAnyoneCanPay hashType = false →
        tx.vin.map TxIn.prevout = other.vin.map TxIn.prevout
  sequences
    : sighashHasAnyoneCanPay hashType = false → sighashGetBaseType hashType ≠ sighashSingle →
        sighashGetBaseType hashType ≠ sighashNone →
        tx.vin.map TxIn.sequence = other.vin.map TxIn.sequence
  outputs
    : sighashGetBaseType hashType ≠ sighashSingle → sighashGetBaseType hashType ≠ sighashNone →
        tx.vout = other.vout
  output : sighashGetBaseType hashType = sighashSingle → tx.vout[nIn.toNat]? = other.vout[nIn.toNat]?
  input
    : nIn ≠ notAnInput →
        tx.vin[nIn.toNat]?.map (fun input => (input.prevout, input.sequence))
          = other.vin[nIn.toNat]?.map fun input => (input.prevout, input.sequence)

theorem Agree.covered {other : Transaction} (agree : Agree hashType s.nIn s.tx other)
    : ({ s with tx := other } : Signing).covered hashType = s.covered hashType := by
  have prevouts : coveredPrevouts other hashType = coveredPrevouts s.tx hashType := by
    rw [coveredPrevouts, coveredPrevouts]
    split
    · rfl
    · rename_i all
      rw [agree.prevouts (Bool.not_eq_true _ ▸ all)]
  have sequences : coveredSequences other hashType = coveredSequences s.tx hashType := by
    rw [coveredSequences, coveredSequences]
    split
    · rfl
    · rename_i all
      rw [not_or, not_or] at all
      rw [agree.sequences (Bool.not_eq_true _ ▸ all.1) all.2.1 all.2.2]
  have outputs : coveredOutputs other s.nIn hashType = coveredOutputs s.tx s.nIn hashType := by
    rw [coveredOutputs, coveredOutputs]
    split
    · rename_i single
      rw [agree.output single]
    · split
      · rfl
      · rename_i single none
        rw [agree.outputs single none]
  have input : ({ s with tx := other } : Signing).input = s.input := by
    rw [Signing.input, Signing.input]
    split
    · rfl
    · rename_i present
      have same := congrArg
        (Option.map fun pair : Outpoint × UInt32 =>
          (⟨pair.1, s.scriptCode, s.amount, pair.2⟩ : CoveredInput)) (agree.input present)
      rw [Option.map_map, Option.map_map] at same
      exact same.symm
  have joinsplits : coveredJoinsplits other = coveredJoinsplits s.tx := by
    rw [coveredJoinsplits, coveredJoinsplits, agree.joinsplits, agree.joinsplitPubkey]
  have sapling : coveredSapling other = coveredSapling s.tx := by
    rw [coveredSapling, coveredSapling, agree.versionGroupId, agree.spends,
      agree.shieldedOutputs, agree.valueBalance]
  have header : txGetHeader other = txGetHeader s.tx := by
    rw [txGetHeader, txGetHeader, agree.version, agree.overwintered]
  simp only [Signing.covered, prevouts, sequences, outputs, input, joinsplits, sapling, header,
    agree.versionGroupId, agree.lockTime, agree.expiryHeight]

theorem Agree.inside {other : Transaction} (agree : Agree hashType s.nIn s.tx other)
    (inside : s.Inside)
    : ({ s with tx := other } : Signing).Inside := by
  intro present
  have same := agree.input present
  rw [List.getElem?_eq_getElem (inside present)] at same
  obtain ⟨input, found, -⟩ := Option.map_eq_some_iff.mp same.symm
  exact (List.getElem?_eq_some_iff.mp found).1

/-- Two digests under one hash type are equal exactly if the data that the type covers is, as far as
BLAKE2b tells apart what was hashed; and a digest stays when only other data changes. -/
theorem signatureHash_commits {hashes : Hashes} {hashType : UInt32} {a b : Signing}
    (aFormed : a.Formed) (bFormed : b.Formed) {aDigest bDigest : Uint256}
    (aSucceeds : a.digest hashes hashType = some aDigest)
    (bSucceeds : b.digest hashes hashType = some bDigest)
    : (Distinguishes hashes ((a.covered hashType).calls hashes hashType
            ++ (b.covered hashType).calls hashes hashType) →
          aDigest = bDigest → a.covered hashType = b.covered hashType)
      ∧ (a.covered hashType = b.covered hashType → aDigest = bDigest)
      ∧ (∀ other, Agree hashType a.nIn a.tx other →
          ({ a with tx := other } : Signing).digest hashes hashType = some aDigest) := by
  have aInside := inside_of_digest hashes aSucceeds
  have bInside := inside_of_digest hashes bSucceeds
  have aCovered := digest_covered hashes hashType aFormed.overwintered aInside
  have bCovered := digest_covered hashes hashType bFormed.overwintered bInside
  rw [aSucceeds] at aCovered
  rw [bSucceeds] at bCovered
  cases aCovered
  cases bCovered
  refine ⟨?_, ?_, ?_⟩
  · intro distinguishes same
    exact Covered.digest_inj (aFormed.covered hashType) (bFormed.covered hashType) distinguishes
      (Covered.called (List.subset_append_left _ _)) (Covered.called (List.subset_append_right _ _))
      same
  · intro same
    rw [same]
  · intro other agree
    have overwintered : other.overwintered = true :=
      agree.overwintered.symm.trans aFormed.overwintered
    rw [digest_covered hashes hashType overwintered (agree.inside aInside), agree.covered]

-- One input with two scripts

/-- A transaction of one input, whose script is no part of what is signed. -/
def oneInput (scriptSig : Script) : Signing where
  scriptCode := [0x51]
  tx := {
    overwintered := true
    version := 4
    versionGroupId := saplingVersionGroupId
    vin := [{ prevout := ⟨Uint256.fill 1, 0⟩, scriptSig := scriptSig }]
    vout := [⟨1000, [0x51]⟩] }
  nIn := 0
  amount := 2000
  consensusBranchId := 0x76b809bb

def tableHashes (table : List (HashCall × Uint256)) : Hashes where
  blake2b personal bytes := (table.lookup (personal, bytes)).getD nullHash
  hash256 _ := nullHash

/-- The digests of the parts of `oneInput`. -/
def partDigests : List (HashCall × Uint256) :=
  [((prevoutsPersonal, outpointSerialize ⟨Uint256.fill 1, 0⟩),
      Uint256.ofNatLE 0x8c26533e9010b5920ddea9217e4c54f3dae944bed658365f46faa1cf52ec9c3d),
    ((sequencePersonal, streamWriteU32 0xffffffff),
      Uint256.ofNatLE 0x2648bb9d9d8ec663f109ff4ac2f33c1dbb228ac27a8d7844ae383f1d81f3ddac),
    ((outputsPersonal, txOutSerialize ⟨1000, [0x51]⟩),
      Uint256.ofNatLE 0xd9176157e075cb44413551631c0edb8f8fa6a01bcee7eabfd3fd55ec1fcc42a)]

/-- The signature hash of `oneInput`. -/
def oneInputDigest : Uint256 :=
  Uint256.ofNatLE 0x95c8a4ccc6b241c6e748237aec6c6f0b9159efd37a4a3e977aa43e63474d3ba7

/-- BLAKE2b on what is hashed for `oneInput`. -/
def knownHashes : Hashes :=
  tableHashes (partDigests ++
    [((sigHashPersonal 0x76b809bb,
      ((oneInput []).covered 1).preimage (tableHashes partDigests) 1), oneInputDigest)])

theorem oneInput_formed (scriptSig : Script) : (oneInput scriptSig).Formed where
  overwintered := rfl
  nonneg := (by decide : (0 : Int32) ≤ 4)
  proofs jsd member := absurd member List.not_mem_nil
  scriptPubKeys output member := by
    rw [List.mem_singleton.mp member]
    decide
  scriptCode := (by decide : 1 ≤ maxScriptSize)

theorem signatureHash_commits_oneInput
    : (oneInput []).Formed ∧ (oneInput [1, 7]).Formed
      ∧ Distinguishes knownHashes (((oneInput []).covered 1).calls knownHashes 1
          ++ ((oneInput [1, 7]).covered 1).calls knownHashes 1)
      ∧ (oneInput []).digest knownHashes 1 = (oneInput [1, 7]).digest knownHashes 1
      ∧ (oneInput []).covered 1 = (oneInput [1, 7]).covered 1 := by
  have distinguishes : Distinguishes knownHashes
      (((oneInput []).covered 1).calls knownHashes 1
        ++ ((oneInput [1, 7]).covered 1).calls knownHashes 1) := by
    constructor
    · decide +kernel
    · decide +kernel
  have first : (oneInput []).digest knownHashes 1 = some oneInputDigest := by decide +kernel
  have second : (oneInput [1, 7]).digest knownHashes 1 = some oneInputDigest := by
    decide +kernel
  refine ⟨oneInput_formed _, oneInput_formed _, distinguishes, first.trans second.symm, ?_⟩
  exact (signatureHash_commits (oneInput_formed []) (oneInput_formed [1, 7]) first second).1
    distinguishes rfl

end Z23.Wire
