import Z23.Net.CompactBlocksRebuild

/-!
Relay: a block's message goes over the wire unchanged but for the coinbase's cached hash, and what
the receiver rebuilds and completes is the block.
-/

namespace Z23.Net.CompactBlocks

open Z23.Lib.Bytes
open Z23.Lib.Codec
open Z23.Wire

variable (hash256 : List UInt8 → Uint256)

-- The wire

/-- A prefilled transaction as the receiver has it. -/
def PrefilledTx.hashed (entry : PrefilledTx) : PrefilledTx :=
  { entry with tx := entry.tx.computeHash hash256 }

theorem readPrefilledTx_write {absIdx step diff : Nat} {entry : PrefilledTx}
    (wellFormed : entry.tx.WellFormed) (position : absIdx + diff + step = entry.index.toNat)
    (rest : List UInt8)
    : readPrefilledTx hash256 absIdx step
          (streamWriteCompactSize diff ++ (entry.tx.serialize ++ rest))
        = some (entry.hashed hash256, rest) := by
  have small : entry.index.toNat < UInt16.size := entry.index.toNat_lt
  have fits : diff < 2 ^ 64 := by
    have size : UInt16.size < 2 ^ 64 := by decide
    omega
  rw [readPrefilledTx, streamReadCompactSize_write fits]
  simp only [Option.bind_eq_bind, Option.bind_some]
  rw [if_neg (by omega), if_neg (by omega), position,
    Transaction.deserialize_serialize hash256 wellFormed, Option.bind_some, UInt16.ofNat_toNat]
  rfl

theorem toNat_prefilledDiff {last index : UInt16} (behind : last < index)
    : (index.toUInt64 - last.toUInt64 - 1).toNat = index.toNat - last.toNat - 1 := by
  have order : last.toNat < index.toNat := UInt16.lt_iff_toNat_lt.mp behind
  have first : last.toUInt64 ≤ index.toUInt64 := by
    rw [UInt64.le_iff_toNat_le, UInt16.toNat_toUInt64, UInt16.toNat_toUInt64]
    exact Nat.le_of_lt order
  have firstDiff : (index.toUInt64 - last.toUInt64).toNat = index.toNat - last.toNat := by
    rw [UInt64.toNat_sub_of_le _ _ first, UInt16.toNat_toUInt64, UInt16.toNat_toUInt64]
  have second : 1 ≤ index.toUInt64 - last.toUInt64 := by
    rw [UInt64.le_iff_toNat_le, firstDiff]
    have one : (1 : UInt64).toNat = 1 := rfl
    omega
  rw [UInt64.toNat_sub_of_le _ _ second, firstDiff]
  rfl

theorem readPrefilledFrom_write {entries : List PrefilledTx} {last : UInt16}
    (increasing : List.IsChain (· < ·) (last :: entries.map PrefilledTx.index))
    (wellFormed : ∀ entry ∈ entries, entry.tx.WellFormed) (rest : List UInt8)
    : readPrefilledFrom hash256 entries.length last.toNat
          (serializePrefilledFrom last.toUInt64 entries ++ rest)
        = some (entries.map (PrefilledTx.hashed hash256), rest) := by
  induction entries generalizing last with
  | nil => rfl
  | cons entry entries ih =>
    rw [List.map_cons, List.isChain_cons_cons] at increasing
    obtain ⟨behind, increasing⟩ := increasing
    have order : last.toNat < entry.index.toNat := UInt16.lt_iff_toNat_lt.mp behind
    have here := readPrefilledTx_write hash256 (wellFormed entry List.mem_cons_self)
      (show last.toNat + (entry.index.toNat - last.toNat - 1) + 1 = entry.index.toNat by omega)
    have later := ih increasing (List.forall_mem_cons.mp wellFormed).2
    simp only [serializePrefilledFrom, toNat_prefilledDiff behind, List.length_cons,
      readPrefilledFrom, List.append_assoc, here, PrefilledTx.hashed, later, Option.bind_eq_bind,
      Option.bind_some]
    rfl

theorem cbReadPrefilled_write {entries : List PrefilledTx}
    (increasing : List.IsChain (· < ·) (entries.map PrefilledTx.index))
    (wellFormed : ∀ entry ∈ entries, entry.tx.WellFormed) (rest : List UInt8)
    : cbReadPrefilled hash256 entries.length (serializePrefilled entries ++ rest)
        = some (entries.map (PrefilledTx.hashed hash256), rest) := by
  cases entries with
  | nil => rfl
  | cons entry entries =>
    have here := readPrefilledTx_write hash256 (wellFormed entry List.mem_cons_self)
      (show 0 + entry.index.toNat + 0 = entry.index.toNat by omega)
    have later := readPrefilledFrom_write hash256 increasing (List.forall_mem_cons.mp wellFormed).2
    simp only [serializePrefilled, List.length_cons, cbReadPrefilled, List.append_assoc, here,
      PrefilledTx.hashed, later, Option.bind_eq_bind, Option.bind_some]
    rfl

/-- Messages that survive the wire. -/
structure CompactBlockMsg.Sendable (cb : CompactBlockMsg) : Prop where
  key : cb.siphashKey = deriveKey hash256 cb.header cb.nonce
  shortTxids : cb.shortTxids.length ≤ maxCompactBlockTxns
  prefilled : cb.prefilled.length ≤ maxCompactBlockTxns
  increasing : List.IsChain (· < ·) (cb.prefilled.map PrefilledTx.index)
  wellFormed : ∀ entry ∈ cb.prefilled, entry.tx.WellFormed

/-- What arrives of a message. -/
def CompactBlockMsg.received (cb : CompactBlockMsg) : CompactBlockMsg :=
  { cb with prefilled := cb.prefilled.map (PrefilledTx.hashed hash256) }

theorem CompactBlockMsg.deserialize_serialize {cb : CompactBlockMsg}
    (sendable : cb.Sendable hash256) (rest : List UInt8)
    : CompactBlockMsg.deserialize hash256 (cb.serialize ++ rest)
        = some (cb.received hash256, rest) := by
  have shortFits : cb.shortTxids.length < 2 ^ 64 :=
    Nat.lt_of_le_of_lt sendable.shortTxids (by decide)
  have prefilledFits : cb.prefilled.length < 2 ^ 64 :=
    Nat.lt_of_le_of_lt sendable.prefilled (by decide)
  have shortTxids := readMany_flatMap (readBlob_data shortTxidLen)
  simp only [CompactBlockMsg.deserialize, CompactBlockMsg.serialize, readShortTxids,
    List.append_assoc, BlockHeader.deserialize_write _ _, streamReadU64_write _ _,
    streamReadCompactSize_write shortFits, if_neg (Nat.not_lt.mpr sendable.shortTxids),
    shortTxids, streamReadCompactSize_write prefilledFits,
    if_neg (Nat.not_lt.mpr sendable.prefilled), ← sendable.key,
    cbReadPrefilled_write hash256 sendable.increasing sendable.wellFormed,
    Option.bind_eq_bind, Option.bind_some]
  rfl

-- Reconstructing what was sent

/-- What identifies the block's transactions among the sources: hashes that are the serialized
transactions', or null in the block, no two different transactions with one hash, and no source
with a short id of the block's and another hash. -/
structure Relayable (blk : Wire.Block) (nonce : UInt64) (sources : List Wire.Transaction)
    : Prop where
  wellFormed : ∀ tx ∈ blk.vtx ++ sources, tx.WellFormed
  cached : ∀ tx ∈ blk.vtx, tx.hash = Uint256.fill 0 ∨ tx.hash = tx.hashSerialized hash256
  sourceHashes : ∀ source ∈ sources, source.hash = source.hashSerialized hash256
  collisionFree
    : ∀ tx ∈ blk.vtx, ∀ source ∈ sources,
        hash256 source.serialize = hash256 tx.serialize → source.serialize = tx.serialize
  distinct
    : ∀ tx ∈ blk.vtx, ∀ source ∈ sources,
        tx.hashSerialized hash256 ≠ source.hashSerialized hash256 →
          shortTxid (deriveKey hash256 blk.header nonce) (tx.hashSerialized hash256)
            ≠ shortTxid (deriveKey hash256 blk.header nonce) (source.hashSerialized hash256)

theorem copyable_of_wellFormed {tx : Wire.Transaction} (wellFormed : tx.WellFormed)
    : tx.copyable = true := by
  simp [Transaction.copyable, wellFormed.vin, wellFormed.vout]

variable {hash256} {blk : Wire.Block} {nonce : UInt64}
  {mempoolTxs extraTxs sources : List Wire.Transaction}

theorem computeHash_eq_of_serialize {a b : Wire.Transaction} (wellFormedA : a.WellFormed)
    (wellFormedB : b.WellFormed) (same : a.serialize = b.serialize)
    : a.computeHash hash256 = b.computeHash hash256 := by
  have readA := Transaction.deserialize_serialize hash256 wellFormedA []
  have readB := Transaction.deserialize_serialize hash256 wellFormedB []
  rw [same, readB] at readA
  exact (congrArg Prod.fst (Option.some.inj readA)).symm

theorem Relayable.txHash_eq (relayable : Relayable hash256 blk nonce sources)
    {tx : Wire.Transaction} (member : tx ∈ blk.vtx)
    : txHash hash256 tx = tx.hashSerialized hash256 := by
  have wellFormed := relayable.wellFormed tx (List.mem_append_left _ member)
  have same : tx.copy = tx := if_pos (copyable_of_wellFormed wellFormed)
  rw [txHash]
  split
  · rw [same]
    rfl
  · rename_i known
    rcases relayable.cached tx member with null | right
    · exact absurd null known
    · exact right

theorem Relayable.resolved_eq (relayable : Relayable hash256 blk nonce sources)
    {tx source : Wire.Transaction} (member : tx ∈ blk.vtx)
    (resolves
      : Resolves sources (deriveKey hash256 blk.header nonce)
          (shortTxid (deriveKey hash256 blk.header nonce) (tx.hashSerialized hash256)) source)
    : source = tx.computeHash hash256 := by
  have sourceHash := relayable.sourceHashes source resolves.member
  have sameHash : source.hashSerialized hash256 = tx.hashSerialized hash256 := by
    by_contra differs
    apply relayable.distinct tx member source resolves.member (Ne.symm differs)
    rw [← sourceHash]
    exact resolves.shortId.symm
  have same := relayable.collisionFree tx member source resolves.member sameHash
  have equal : source.computeHash hash256 = tx.computeHash hash256 :=
    computeHash_eq_of_serialize (relayable.wellFormed _ (List.mem_append_right _ resolves.member))
      (relayable.wellFormed _ (List.mem_append_left _ member)) same
  rw [← equal, Transaction.computeHash, ← sourceHash]

theorem cbResolveShortIds_total {tab : SidTable} {slots : List (Option Wire.Transaction)}
    {ids : List ShortTxid} (enough : slots.countP Option.isNone ≤ ids.length)
    (copies : ∀ id ∈ ids, ∃ content, resolveSlot mempoolTxs extraTxs tab id = .ok content)
    : ∃ out, cbResolveShortIds mempoolTxs extraTxs tab slots ids = .ok out := by
  induction slots generalizing ids with
  | nil => exact ⟨[], rfl⟩
  | cons first slots ih =>
    cases first with
    | some tx =>
      obtain ⟨out, done⟩ := ih (by simpa using enough) copies
      refine ⟨some tx :: out, ?_⟩
      rw [cbResolveShortIds, done]
      rfl
    | none =>
      cases ids with
      | nil => simp at enough
      | cons target ids =>
        obtain ⟨content, contentOk⟩ := copies target List.mem_cons_self
        obtain ⟨out, done⟩ := ih (by simpa using enough) (List.forall_mem_cons.mp copies).2
        refine ⟨content :: out, ?_⟩
        rw [cbResolveShortIds, contentOk, done]
        rfl

theorem resolveSlot_total {id : ShortTxid} {siphashKey : Blob 16}
    (wellFormed : ∀ tx ∈ mempoolTxs ++ extraTxs, tx.WellFormed)
    : ∃ content, resolveSlot mempoolTxs extraTxs
        (cbBuildSidTable mempoolTxs extraTxs siphashKey) id = .ok content := by
  rw [resolveSlot]
  cases lookup
      : cbSidLookup (cbBuildSidTable mempoolTxs extraTxs siphashKey) (cbSidFromBytes id) with
  | none => exact ⟨none, rfl⟩
  | some src =>
    have member := ((cbSidLookup_resolves id).1 src lookup).member
    have copyable := copyable_of_wellFormed (wellFormed _ member)
    dsimp only
    rw [copyable]
    exact ⟨_, rfl⟩

section

variable {cb : CompactBlockMsg} {coinbase : Wire.Transaction}
  (prefilled : cb.prefilled = [⟨0, coinbase⟩])
include prefilled

theorem reconstruct_total (copyable : coinbase.copyable = true)
    (few : cb.total ≤ maxCompactBlockTxns)
    (wellFormed : ∀ tx ∈ mempoolTxs ++ extraTxs, tx.WellFormed)
    : ∃ r, reconstruct mempoolTxs extraTxs cb = .ok r := by
  have total : cb.prefilled.length + cb.shortTxids.length = cb.shortTxids.length + 1 := by
    rw [prefilled, List.length_singleton, Nat.add_comm]
  have count : ¬ (cb.shortTxids.length + 1 = 0 ∨ cb.shortTxids.length + 1 > maxCompactBlockTxns) := by
    rw [CompactBlockMsg.total, total] at few
    omega
  have placed : cbPlacePrefilled cb.prefilled (List.replicate (cb.shortTxids.length + 1) none)
      = .ok (some coinbase :: List.replicate cb.shortTxids.length none) := by
    rw [prefilled, List.replicate_succ]
    simp [cbPlacePrefilled, copyable]
  have enough : (some coinbase :: List.replicate cb.shortTxids.length none).countP Option.isNone
      ≤ cb.shortTxids.length := by
    rw [List.countP_cons_of_neg (by simp)]
    exact List.countP_le_length.trans (by simp)
  obtain ⟨out, resolved⟩ := cbResolveShortIds_total enough fun id _ =>
    @resolveSlot_total _ _ id cb.siphashKey wellFormed
  rw [reconstruct, total]
  dsimp only
  rw [if_neg count, placed]
  simp only [bind, Except.bind, resolved]
  exact ⟨_, rfl⟩

-- The completed block

theorem isPrefilled_coinbase (slot : Nat) : cb.isPrefilled slot = decide (slot = 0) := by
  rw [CompactBlockMsg.isPrefilled, prefilled]
  simp [eq_comm]

theorem slotShortId_coinbase (slot : Nat) : cb.slotShortId (slot + 1) = cb.shortTxids[slot]? := by
  rw [CompactBlockMsg.slotShortId, List.range_succ_eq_map]
  simp [isPrefilled_coinbase prefilled, List.filter_map, Function.comp_def]

end

theorem fillSlots_spec {vtx : List Wire.Transaction} {missing : List Nat}
    {content : Nat → Wire.Transaction} (inside : ∀ index ∈ missing, index < vtx.length)
    (copyable : ∀ index ∈ missing, (content index).copyable = true)
    : ∃ out, fillSlots vtx (missing.map content) missing = some out
        ∧ ∀ slot : Nat, out[slot]? = if slot ∈ missing then some (content slot) else vtx[slot]? := by
  induction missing generalizing vtx with
  | nil => exact ⟨vtx, rfl, by simp⟩
  | cons index missing ih =>
    have here := inside index List.mem_cons_self
    obtain ⟨out, filled, holds⟩ := @ih (vtx.set index (content index))
      (fun other member => by
        rw [List.length_set]
        exact inside other (List.mem_cons_of_mem _ member))
      (List.forall_mem_cons.mp copyable).2
    refine ⟨out, ?_, ?_⟩
    · rw [List.map_cons, fillSlots, if_neg (Nat.not_le.mpr here),
        copyable index List.mem_cons_self]
      exact filled
    · intro slot
      rw [holds slot]
      by_cases later : slot ∈ missing
      · simp [later]
      · rw [if_neg later]
        by_cases same : slot = index
        · simp [same, here]
        · rw [List.getElem?_set_ne (Ne.symm same), if_neg (by simp [same, later])]

/-- The receiver's block: the sender's but for hashes that only one of them has cached. -/
structure Restored (hash256 : List UInt8 → Uint256) (blk out : Wire.Block) : Prop where
  header : out.header = blk.header
  vtx : out.vtx.map (Transaction.computeHash hash256) = blk.vtx.map (Transaction.computeHash hash256)
  exact : (∀ tx ∈ blk.vtx, tx.hash = tx.hashSerialized hash256) → out = blk

theorem restored_of_slots {out : Wire.Block} (header : out.header = blk.header)
    (slots
      : ∀ slot : Nat, out.vtx[slot]? = blk.vtx[slot]?
          ∨ out.vtx[slot]? = blk.vtx[slot]?.map (Transaction.computeHash hash256))
    : Restored hash256 blk out where
  header := header
  vtx := by
    apply List.ext_getElem?
    intro slot
    rw [List.getElem?_map, List.getElem?_map]
    rcases slots slot with same | computed
    · rw [same]
    · rw [computed, Option.map_map]
      rfl
  exact := by
    intro cached
    have sameVtx : out.vtx = blk.vtx := by
      apply List.ext_getElem?
      intro slot
      rcases slots slot with same | computed
      · exact same
      · rw [computed]
        cases read : blk.vtx[slot]? with
        | none => rfl
        | some tx =>
          rw [Option.map_some, Transaction.computeHash, ← cached tx (List.mem_of_getElem? read)]
    cases out
    cases blk
    cases header
    cases sameVtx
    rfl

theorem Relayable.slots (relayable : Relayable hash256 blk nonce sources)
    {coinbase : Wire.Transaction} {rest : List Wire.Transaction} (split : blk.vtx = coinbase :: rest)
    {cb : CompactBlockMsg} (key : cb.siphashKey = deriveKey hash256 blk.header nonce)
    (shortTxids
      : cb.shortTxids = rest.map fun tx => shortTxid cb.siphashKey (txHash hash256 tx))
    (prefilled : cb.prefilled = [⟨0, coinbase.computeHash hash256⟩]) {r : Reconstruction}
    (rebuilt : Rebuilt cb sources r) {slot : Nat} (present : slot ∉ r.missing)
    : r.block.vtx[slot]? = blk.vtx[slot]?.map (Transaction.computeHash hash256) := by
  have total : cb.total = blk.vtx.length := by
    rw [CompactBlockMsg.total, prefilled, shortTxids, split, List.length_map, List.length_singleton,
      List.length_cons, Nat.add_comm]
  by_cases inside : slot < blk.vtx.length
  · cases slot with
    | zero =>
      have first := (rebuilt.prefilled ⟨0, coinbase.computeHash hash256⟩ (by simp [prefilled])).1
      rw [split]
      exact first
    | succ slot =>
      have free : cb.isPrefilled (slot + 1) = false := by
        rw [isPrefilled_coinbase prefilled]
        rfl
      obtain ⟨id, source, shortId, held, resolves⟩ :=
        rebuilt.resolved (slot + 1) (total ▸ inside) free present
      rw [slotShortId_coinbase prefilled, shortTxids, List.getElem?_map] at shortId
      obtain ⟨tx, read, rfl⟩ := Option.map_eq_some_iff.mp shortId
      have member : tx ∈ blk.vtx := by
        rw [split]
        exact List.mem_cons_of_mem _ (List.mem_of_getElem? read)
      rw [relayable.txHash_eq member, key] at resolves
      rw [held, split, List.getElem?_cons_succ, read, Option.map_some,
        relayable.resolved_eq member resolves]
  · have outside := Nat.le_of_not_lt inside
    rw [List.getElem?_eq_none outside, List.getElem?_eq_none]
    · rfl
    · rw [rebuilt.total, total]
      exact outside

theorem Relayable.restored (relayable : Relayable hash256 blk nonce (mempoolTxs ++ extraTxs))
    (nonempty : blk.vtx ≠ []) (few : blk.vtx.length ≤ maxCompactBlockTxns)
    : ∃ cb sent r out,
        fromBlock hash256 blk nonce = some cb
        ∧ CompactBlockMsg.deserialize hash256 cb.serialize = some (sent, [])
        ∧ reconstruct mempoolTxs extraTxs sent = .ok r
        ∧ fillMissing r.block (r.missing.map fun index => blk.vtx.getD index Transaction.init)
            r.missing = some out
        ∧ Restored hash256 blk out := by
  obtain ⟨coinbase, rest, split⟩ := List.exists_cons_of_ne_nil nonempty
  have inBlock : ∀ tx ∈ blk.vtx, tx.WellFormed := fun tx member =>
    relayable.wellFormed tx (List.mem_append_left _ member)
  have coinbaseWellFormed : coinbase.WellFormed := inBlock coinbase (by simp [split])
  have copyable := copyable_of_wellFormed coinbaseWellFormed
  obtain ⟨cb, built⟩ : ∃ cb : CompactBlockMsg, cb = {
      header := blk.header
      nonce := nonce
      siphashKey := deriveKey hash256 blk.header nonce
      shortTxids := rest.map fun tx =>
        shortTxid (deriveKey hash256 blk.header nonce) (txHash hash256 tx)
      prefilled := [⟨0, coinbase⟩] } := ⟨_, rfl⟩
  have sendable : cb.Sendable hash256 := by
    rw [split, List.length_cons] at few
    rw [built]
    refine ⟨rfl, ?_, ?_, ?_, ?_⟩
    · rw [List.length_map]
      exact Nat.le_of_succ_le few
    · exact (by decide : 1 ≤ maxCompactBlockTxns)
    · exact List.IsChain.singleton _
    · intro entry member
      rw [List.mem_singleton.mp member]
      exact coinbaseWellFormed
  have sent := CompactBlockMsg.deserialize_serialize hash256 sendable []
  rw [List.append_nil] at sent
  have total : (cb.received hash256).total = blk.vtx.length := by
    simp [CompactBlockMsg.total, CompactBlockMsg.received, built, split, Nat.add_comm]
  have received : (cb.received hash256).prefilled = [⟨0, coinbase.computeHash hash256⟩] := by
    rw [built]
    rfl
  obtain ⟨r, done⟩ := reconstruct_total received copyable (total.trans_le few) fun tx member =>
    relayable.wellFormed tx (List.mem_append_right _ member)
  have rebuilt := reconstruct_rebuilt done
  have inside : ∀ index ∈ r.missing, index < blk.vtx.length := fun index member =>
    total ▸ (rebuilt.missing index member).1
  obtain ⟨out, filled, holds⟩ := @fillSlots_spec r.block.vtx r.missing
    (fun index => blk.vtx.getD index Transaction.init)
    (fun index member => by
      rw [rebuilt.total, total]
      exact inside index member)
    (fun index member => by
      rw [List.getD_eq_getElem _ _ (inside index member)]
      exact copyable_of_wellFormed (inBlock _ (List.getElem_mem _)))
  refine ⟨cb, cb.received hash256, r, ⟨r.block.header, out⟩, ?_, sent, done, ?_, ?_⟩
  · rw [fromBlock, split, built]
    simp [copyable]
  · rw [fillMissing, filled]
    simp
  · apply restored_of_slots
    · exact rebuilt.header.trans (by rw [built]; rfl)
    · intro slot
      rw [holds slot]
      by_cases absent : slot ∈ r.missing
      · left
        rw [if_pos absent, List.getD_eq_getElem _ _ (inside slot absent),
          List.getElem?_eq_getElem (inside slot absent)]
      · right
        rw [if_neg absent]
        exact relayable.slots split (by rw [built]; rfl) (by rw [built]; rfl) received rebuilt absent

/-- Whatever the message and the sources, a slot filled from the sources holds one whose short id
is the slot's and unshared, and the other unfilled slots are missing, in order; a block's own
message, sent, reconstructed and completed from the block, gives the block back. -/
theorem reconstruct_relays_block (hash256 : List UInt8 → Uint256)
    : (∀ cb mempoolTxs extraTxs r, reconstruct mempoolTxs extraTxs cb = .ok r →
          Rebuilt cb (mempoolTxs ++ extraTxs) r)
      ∧ ∀ blk nonce mempoolTxs extraTxs,
          1 ≤ blk.vtx.length → blk.vtx.length ≤ maxCompactBlockTxns →
          Relayable hash256 blk nonce (mempoolTxs ++ extraTxs) →
          ∃ cb sent r out,
            fromBlock hash256 blk nonce = some cb
            ∧ CompactBlockMsg.deserialize hash256 cb.serialize = some (sent, [])
            ∧ reconstruct mempoolTxs extraTxs sent = .ok r
            ∧ fillMissing r.block (r.missing.map fun index => blk.vtx.getD index Transaction.init)
                r.missing = some out
            ∧ Restored hash256 blk out := by
  refine ⟨fun cb mempoolTxs extraTxs r done => reconstruct_rebuilt done, ?_⟩
  intro blk nonce mempoolTxs extraTxs nonempty few relayable
  exact relayable.restored (List.ne_nil_of_length_pos nonempty) few

-- A block of three transactions

def sampleHeader : BlockHeader :=
  ⟨4, Uint256.fill 1, Uint256.fill 2, Uint256.fill 3, 1700000000, 0x1f07ffff, Uint256.fill 4, [],
    by decide⟩

def sampleCoinbase : Wire.Transaction where
  vin := [⟨⟨Uint256.fill 0, 0xffffffff⟩, [1, 42], 0xffffffff⟩]
  vout := [⟨1250000000, [0x51]⟩]

def samplePayment (lockTime : UInt32) : Wire.Transaction where
  vin := [⟨⟨Uint256.fill 7, 1⟩, [0x51], 0xffffffff⟩]
  vout := [⟨1000, [0x51]⟩]
  lockTime := lockTime

def sampleDigest (value : Nat) : Uint256 := Uint256.ofNatLE value

/-- Double SHA-256 of the byte strings that the sample hashes. -/
def sampleHash256 (bytes : List UInt8) : Uint256 :=
  if bytes = sampleHeader.serialize ++ streamWriteU64 9 then
    sampleDigest 0x642d71bed363a1c8da716064c0dbb40af78cd202269a737ca1ec3499a52bdfb2
  else if bytes = sampleCoinbase.serialize then
    sampleDigest 0xbe198d78b5e492a0bfc1e67a90c2b6e346bf7107daef15c1077d5bf4d3b9bba2
  else if bytes = (samplePayment 0).serialize then
    sampleDigest 0x237e82b387967ced7e4c49d4ea1341d9324b6e5758b43ef1777b10dd96fd0e9e
  else if bytes = (samplePayment 5).serialize then
    sampleDigest 0xe936e2d34230537e94608417549b97b9c7d59020981342040de6c24f98c433dd
  else Uint256.fill 0

def sampleBlock : Wire.Block := ⟨sampleHeader, [sampleCoinbase, samplePayment 0, samplePayment 5]⟩

def sampleSource : Wire.Transaction := (samplePayment 0).computeHash sampleHash256

theorem sample_relayable : Relayable sampleHash256 sampleBlock 9 ([sampleSource] ++ []) where
  wellFormed := by decide +kernel
  cached := by decide +kernel
  sourceHashes := by decide +kernel
  collisionFree := by decide +kernel
  distinct := by decide +kernel

theorem reconstruct_relays_sample
    : ∃ cb sent r out,
        fromBlock sampleHash256 sampleBlock 9 = some cb
        ∧ CompactBlockMsg.deserialize sampleHash256 cb.serialize = some (sent, [])
        ∧ reconstruct [sampleSource] [] sent = .ok r
        ∧ fillMissing r.block
            (r.missing.map fun index => sampleBlock.vtx.getD index Transaction.init)
            r.missing = some out
        ∧ Restored sampleHash256 sampleBlock out :=
  (reconstruct_relays_block sampleHash256).2 sampleBlock 9 [sampleSource] [] (by decide) (by decide)
    sample_relayable

end Z23.Net.CompactBlocks
