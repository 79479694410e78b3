import Z23.Lib.OpenTable
import Z23.Primitives.TransactionWire

/-!
Compact blocks: the message built from a block, its wire form, the reconstruction of the block from
transactions at hand, and the completion with those asked for.
-/

namespace Z23.Net.CompactBlocks

open Z23.Lib.Bytes
open Z23.Lib.Codec
open Z23.Lib.OpenTable
open Z23.Wire

-- SipHash-2-4

def rotl64 (x b : UInt64) : UInt64 := (x <<< b) ||| (x >>> (64 - b))

structure SipState where
  v0 : UInt64
  v1 : UInt64
  v2 : UInt64
  v3 : UInt64

/-- Models `SIPROUND`, one assignment a line. -/
def sipRound (s : SipState) : SipState :=
  let v0 := s.v0 + s.v1
  let v1 := rotl64 s.v1 13
  let v1 := v1 ^^^ v0
  let v0 := rotl64 v0 32
  let v2 := s.v2 + s.v3
  let v3 := rotl64 s.v3 16
  let v3 := v3 ^^^ v2
  let v0 := v0 + v3
  let v3 := rotl64 v3 21
  let v3 := v3 ^^^ v0
  let v2 := v2 + v1
  let v1 := rotl64 v1 17
  let v1 := v1 ^^^ v2
  let v2 := rotl64 v2 32
  ⟨v0, v1, v2, v3⟩

def sipWord (s : SipState) (m : UInt64) : SipState :=
  let s := sipRound (sipRound { s with v3 := s.v3 ^^^ m })
  { s with v0 := s.v0 ^^^ m }

/-- The full words, and the bytes that are left. -/
def sipWords : SipState → List UInt8 → SipState × List UInt8
  | s, b0 :: b1 :: b2 :: b3 :: b4 :: b5 :: b6 :: b7 :: rest =>
    sipWords (sipWord s (UInt64.ofNat (natLE [b0, b1, b2, b3, b4, b5, b6, b7]))) rest
  | s, left => (s, left)

/-- Models `siphash_2_4`. -/
def siphash (key : Blob 16) (data : List UInt8) : UInt64 :=
  let k0 := UInt64.ofNat (natLE (key.data.take 8))
  let k1 := UInt64.ofNat (natLE (key.data.drop 8))
  let s : SipState := ⟨0x736f6d6570736575 ^^^ k0, 0x646f72616e646f6d ^^^ k1,
    0x6c7967656e657261 ^^^ k0, 0x7465646279746573 ^^^ k1⟩
  let (s, left) := sipWords s data
  let s := sipWord s ((UInt64.ofNat data.length <<< 56) ||| UInt64.ofNat (natLE left))
  let s := sipRound (sipRound (sipRound (sipRound { s with v2 := s.v2 ^^^ 0xff })))
  s.v0 ^^^ s.v1 ^^^ s.v2 ^^^ s.v3

-- Short ids

def shortTxidLen : Nat := 6

def maxCompactBlockTxns : Nat := 50000

abbrev ShortTxid := Blob shortTxidLen

/-- Models `compact_block_short_txid`. -/
def shortTxid (siphashKey : Blob 16) (txhash : Uint256) : ShortTxid :=
  ⟨(bytesLE 8 (siphash siphashKey txhash.data).toNat).take shortTxidLen, by
    rw [List.length_take, length_bytesLE]
    rfl⟩

/-- Models `cb_sid_from_bytes`. -/
def cbSidFromBytes (b : ShortTxid) : Nat := natLE b.data

/-- Models `compact_block_derive_key`. -/
def deriveKey (hash256 : List UInt8 → Uint256) (header : BlockHeader) (nonce : UInt64) : Blob 16 :=
  ⟨(hash256 (header.serialize ++ streamWriteU64 nonce)).data.take 16, by
    rw [List.length_take, Uint256.size_data]
    rfl⟩

-- The message

/-- A transaction at its absolute position. -/
structure PrefilledTx where
  index : UInt16
  tx : Wire.Transaction
deriving DecidableEq, Repr

structure CompactBlockMsg where
  header : BlockHeader
  nonce : UInt64
  siphashKey : Blob 16
  shortTxids : List ShortTxid
  prefilled : List PrefilledTx
deriving DecidableEq, Repr

/-- The cached hash, computed when it is null. -/
def txHash (hash256 : List UInt8 → Uint256) (tx : Wire.Transaction) : Uint256 :=
  if tx.hash = Uint256.fill 0 then (tx.copy.computeHash hash256).hash else tx.hash

/-- Models `compact_block_from_block`. -/
def fromBlock (hash256 : List UInt8 → Uint256) (blk : Wire.Block) (nonce : UInt64)
    : Option CompactBlockMsg :=
  match blk.vtx with
  | [] => none
  | coinbase :: rest =>
    if !coinbase.copyable then none
    else
      let siphashKey := deriveKey hash256 blk.header nonce
      some {
        header := blk.header
        nonce
        siphashKey
        shortTxids := rest.map fun tx => shortTxid siphashKey (txHash hash256 tx)
        prefilled := [⟨0, coinbase⟩] }

-- The wire form

/-- The prefilled transactions behind one at `lastAbs`, each with the distance to the one before. -/
def serializePrefilledFrom (lastAbs : UInt64) : List PrefilledTx → List UInt8
  | [] => []
  | entry :: rest =>
    streamWriteCompactSize (entry.index.toUInt64 - lastAbs - 1).toNat ++ entry.tx.serialize
      ++ serializePrefilledFrom entry.index.toUInt64 rest

def serializePrefilled : List PrefilledTx → List UInt8
  | [] => []
  | first :: rest =>
    streamWriteCompactSize first.index.toNat ++ first.tx.serialize
      ++ serializePrefilledFrom first.index.toUInt64 rest

/-- Models `compact_block_msg_serialize`. -/
def CompactBlockMsg.serialize (cb : CompactBlockMsg) : List UInt8 :=
  cb.header.serialize ++ streamWriteU64 cb.nonce
    ++ streamWriteCompactSize cb.shortTxids.length ++ cb.shortTxids.flatMap Blob.data
    ++ streamWriteCompactSize cb.prefilled.length ++ serializePrefilled cb.prefilled

section Hash

variable (hash256 : List UInt8 → Uint256)

/-- One prefilled transaction, `step` behind the position `absIdx`. -/
def readPrefilledTx (absIdx step : Nat) : Reader PrefilledTx := fun bytes => do
  let (diff, bytes) ← streamReadCompactSize bytes
  if diff > UInt16.size - 1 then none
  else
    let absIdx := absIdx + diff + step
    if absIdx > UInt16.size - 1 then none
    else do
      let (tx, bytes) ← Wire.Transaction.deserialize hash256 bytes
      some (⟨UInt16.ofNat absIdx, tx⟩, bytes)

/-- The entries behind the first. -/
def readPrefilledFrom : Nat → Nat → Reader (List PrefilledTx)
  | 0, _, bytes => some ([], bytes)
  | count + 1, absIdx, bytes => do
    let (entry, bytes) ← readPrefilledTx hash256 absIdx 1 bytes
    let (rest, bytes) ← readPrefilledFrom count entry.index.toNat bytes
    some (entry :: rest, bytes)

/-- Models `cb_read_prefilled`: only the first entry's distance counts from zero. -/
def cbReadPrefilled : Nat → Reader (List PrefilledTx)
  | 0, bytes => some ([], bytes)
  | count + 1, bytes => do
    let (entry, bytes) ← readPrefilledTx hash256 0 0 bytes
    let (rest, bytes) ← readPrefilledFrom hash256 count entry.index.toNat bytes
    some (entry :: rest, bytes)

/-- Models `cb_read_short_txids` behind its count. -/
def readShortTxids : Reader (List ShortTxid) := fun bytes => do
  let (numShort, bytes) ← streamReadCompactSize bytes
  if numShort > maxCompactBlockTxns then none
  else readMany (readBlob shortTxidLen) numShort bytes

/-- Models `compact_block_msg_deserialize`. -/
def CompactBlockMsg.deserialize : Reader CompactBlockMsg := fun bytes => do
  let (header, bytes) ← BlockHeader.deserialize bytes
  let (nonce, bytes) ← streamReadU64 bytes
  let (shortTxids, bytes) ← readShortTxids bytes
  let (numPrefilled, bytes) ← streamReadCompactSize bytes
  if numPrefilled > maxCompactBlockTxns then none
  else do
    let (prefilled, bytes) ← cbReadPrefilled hash256 numPrefilled bytes
    some (⟨header, nonce, deriveKey hash256 header nonce, shortTxids, prefilled⟩, bytes)

end Hash

-- The table of short ids

/-- An occupied entry: the source, and whether another transaction has the same short id. -/
structure CbSidEntry where
  src : Nat
  ambiguous : Bool
deriving DecidableEq, Repr

/-- The cells at `(sid + i) & mask` are those the probe of `Lib.OpenTable` walks through. -/
abbrev SidTable := Slots Nat CbSidEntry

section Sources

variable (mempoolTxs extraTxs : List Wire.Transaction)

/-- Models `cb_src_tx`. -/
def cbSrcTx (src : Nat) : Wire.Transaction :=
  if src < mempoolTxs.length then mempoolTxs.getD src Wire.Transaction.init
  else extraTxs.getD (src - mempoolTxs.length) Wire.Transaction.init

/-- Models `cb_sid_insert`. -/
def cbSidInsert (tab : SidTable) (sid src : Nat) : SidTable :=
  match probe id tab sid with
  | .free pos => tab.set pos (some (sid, ⟨src, false⟩))
  | .found pos =>
    match cellAt tab pos with
    | some (_, ⟨first, false⟩) =>
      if (cbSrcTx mempoolTxs extraTxs first).hash ≠ (cbSrcTx mempoolTxs extraTxs src).hash then
        tab.set pos (some (sid, ⟨first, true⟩))
      else tab
    | _ => tab
  | .exhausted => tab

/-- Models `cb_sid_lookup`. -/
def cbSidLookup (tab : SidTable) (sid : Nat) : Option Nat :=
  match probe id tab sid with
  | .found pos =>
    match cellAt tab pos with
    | some (_, ⟨src, false⟩) => some src
    | _ => none
  | _ => none

/-- Doubling from 16 cells, at most `fuel` times, until there are twice as many as sources. -/
def sidSlots (numSources : Nat) : Nat → Nat → Nat
  | 0, slots => slots
  | fuel + 1, slots => if slots < numSources * 2 then sidSlots numSources fuel (slots * 2) else slots

def insertSources (siphashKey : Blob 16) (tab : SidTable) (srcs : List Nat) : SidTable :=
  srcs.foldl (fun tab src =>
    cbSidInsert mempoolTxs extraTxs tab
      (cbSidFromBytes (shortTxid siphashKey (cbSrcTx mempoolTxs extraTxs src).hash)) src) tab

/-- Models `cb_build_sid_table`; without sources there are no cells. -/
def cbBuildSidTable (siphashKey : Blob 16) : SidTable :=
  let numSources := mempoolTxs.length + extraTxs.length
  if numSources = 0 then []
  else
    insertSources mempoolTxs extraTxs siphashKey
      (List.replicate (sidSlots numSources numSources 16) none) (List.range numSources)

-- Reconstruction

inductive CbError where
  | txCount
  | range (index : Nat)
  | copy
  | runout
deriving DecidableEq, Repr

/-- Models `cb_place_prefilled`; an unfilled slot is `none`. -/
def cbPlacePrefilled : List PrefilledTx → List (Option Wire.Transaction)
    → Except CbError (List (Option Wire.Transaction))
  | [], slots => .ok slots
  | entry :: rest, slots =>
    match slots[entry.index.toNat]? with
    | some none =>
      if !entry.tx.copyable then .error .copy
      else cbPlacePrefilled rest (slots.set entry.index.toNat (some entry.tx))
    | _ => .error (.range entry.index.toNat)

/-- One unfilled slot, from the short id it is for. -/
def resolveSlot (tab : SidTable) (target : ShortTxid) : Except CbError (Option Wire.Transaction) :=
  match cbSidLookup tab (cbSidFromBytes target) with
  | none => .ok none
  | some src =>
    let tx := cbSrcTx mempoolTxs extraTxs src
    if !tx.copyable then .error .copy else .ok (some tx)

/-- Models `cb_resolve_short_ids`, with the short ids from `short_idx` on. -/
def cbResolveShortIds (tab : SidTable) : List (Option Wire.Transaction) → List ShortTxid
    → Except CbError (List (Option Wire.Transaction))
  | [], _ => .ok []
  | some tx :: slots, ids => do
    let rest ← cbResolveShortIds tab slots ids
    .ok (some tx :: rest)
  | none :: _, [] => .error .runout
  | none :: slots, target :: ids => do
    let slot ← resolveSlot mempoolTxs extraTxs tab target
    let rest ← cbResolveShortIds tab slots ids
    .ok (slot :: rest)

/-- Models `cb_collect_missing`. -/
def cbCollectMissing (slots : List (Option Wire.Transaction)) : List Nat :=
  (List.range slots.length).filter fun slot => slots[slot]? = some none

/-- What `compact_block_reconstruct` leaves behind when it does not fail; it returns whether nothing
is missing. -/
structure Reconstruction where
  block : Wire.Block
  missing : List Nat

/-- Models `compact_block_reconstruct`. -/
def reconstruct (cb : CompactBlockMsg) : Except CbError Reconstruction :=
  let total := cb.prefilled.length + cb.shortTxids.length
  if total = 0 ∨ total > maxCompactBlockTxns then .error .txCount
  else do
    let slots ← cbPlacePrefilled cb.prefilled (List.replicate total none)
    let tab := cbBuildSidTable mempoolTxs extraTxs cb.siphashKey
    let slots ← cbResolveShortIds mempoolTxs extraTxs tab slots cb.shortTxids
    .ok {
      block := ⟨cb.header, slots.map fun slot => slot.getD Wire.Transaction.init⟩
      missing := cbCollectMissing slots }

end Sources

def fillSlots : List Wire.Transaction → List Wire.Transaction → List Nat
    → Option (List Wire.Transaction)
  | vtx, tx :: txs, index :: indices =>
    if index ≥ vtx.length then none
    else if !tx.copyable then none
    else fillSlots (vtx.set index tx) txs indices
  | vtx, _, _ => some vtx

/-- Models `compact_block_fill_missing`. -/
def fillMissing (partialBlock : Wire.Block) (txs : List Wire.Transaction) (missing : List Nat)
    : Option Wire.Block :=
  if txs.length ≠ missing.length then none
  else do
    let vtx ← fillSlots partialBlock.vtx txs missing
    some { partialBlock with vtx }

end Z23.Net.CompactBlocks
