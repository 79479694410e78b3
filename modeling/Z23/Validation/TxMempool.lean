import Z23.Consensus.TxStructural
import Z23.Core.Serialize
import Z23.Lib.ProbeTable

/-!
The memory pool: an array of entries and an open-addressed table from each spent outpoint to the
entry and the input that spends it. Allocations may fail wherever the pool makes one.
-/

namespace Z23.Validation

open Z23.Consensus
open Z23.Lib
open Z23.Lib.Bytes
open Z23.Lib.OpenTable (Slots Contains entries)

-- Serialized size

def compactSizeLength (size : Nat) : Nat := (streamWriteCompactSize size).length

def isOverwinterV3 (tx : Transaction) : Bool :=
  tx.overwintered && tx.versionGroupId == overwinterVersionGroupId && tx.version == 3

def isSaplingV4 (tx : Transaction) : Bool :=
  tx.overwintered && tx.versionGroupId == saplingVersionGroupId && tx.version == 4

def txInSize (input : TxIn) : Nat :=
  36 + compactSizeLength input.scriptSig.length + input.scriptSig.length + 4

def txOutSize (output : TxOut) : Nat :=
  8 + compactSizeLength output.scriptPubKey.length + output.scriptPubKey.length

def transparentSize (tx : Transaction) : Nat :=
  compactSizeLength tx.vin.length + (tx.vin.map txInSize).sum
    + compactSizeLength tx.vout.length + (tx.vout.map txOutSize).sum
    + 4 + (if isOverwinterV3 tx || isSaplingV4 tx then 4 else 0)

def saplingSize (tx : Transaction) : Nat :=
  if isSaplingV4 tx then
    8 + compactSizeLength tx.vShieldedSpend.length + 384 * tx.vShieldedSpend.length
      + compactSizeLength tx.vShieldedOutput.length + 948 * tx.vShieldedOutput.length
  else 0

/-- A joinsplit has the proof system that deserialization reads for the transaction's version. -/
def jsDescriptionSize (tx : Transaction) : Nat :=
  1506 + (if tx.overwintered && tx.version ≥ 4 then 192 else 296)

def joinsplitsSize (tx : Transaction) : Nat :=
  if tx.version < 2 then 0
  else
    compactSizeLength tx.vJoinsplit.length + jsDescriptionSize tx * tx.vJoinsplit.length
      + (if tx.vJoinsplit.length > 0 then 96 else 0)

/-- The number of bytes that `transaction_serialize` writes. -/
def transactionSerializeSize (tx : Transaction) : Nat :=
  4 + (if tx.overwintered then 4 else 0) + transparentSize tx + saplingSize tx + joinsplitsSize tx
    + (if isSaplingV4 tx && (tx.vShieldedSpend.length > 0 || tx.vShieldedOutput.length > 0)
        then 64 else 0)

theorem one_le_compactSizeLength (size : Nat) : 1 ≤ compactSizeLength size := by
  rw [compactSizeLength, streamWriteCompactSize]
  split
  · exact Nat.le_refl 1
  split
  · exact Nat.le_add_left 1 _
  split
  · exact Nat.le_add_left 1 _
  · exact Nat.le_add_left 1 _

/-- Each input takes its outpoint, its script's length and its sequence number at least. -/
theorem inputs_le_size (tx : Transaction) : 41 * tx.vin.length ≤ transactionSerializeSize tx := by
  have each : ∀ input ∈ tx.vin, 41 ≤ txInSize input := by
    intro input _
    have length := one_le_compactSizeLength input.scriptSig.length
    rw [txInSize]
    omega
  have all : (tx.vin.map txInSize).length • 41 ≤ (tx.vin.map txInSize).sum := by
    refine List.card_nsmul_le_sum _ 41 fun size member => ?_
    obtain ⟨input, inside, rfl⟩ := List.mem_map.mp member
    exact each input inside
  rw [List.length_map, nsmul_eq_mul, Nat.cast_id] at all
  rw [transactionSerializeSize, transparentSize]
  omega

-- Removal from an array

/-- The last item takes the place of the one at an index. -/
def swapRemove {α : Type} (items : List α) (idx : Nat) : List α :=
  match items.getLast? with
  | none => []
  | some last => (items.set idx last).dropLast

theorem length_swapRemove {α : Type} (items : List α) (idx : Nat)
    : (swapRemove items idx).length = items.length - 1 := by
  rw [swapRemove]
  split
  · rename_i empty
    rw [List.getLast?_eq_none_iff.mp empty]
    rfl
  · rw [List.length_dropLast, List.length_set]

theorem getElem?_swapRemove {α : Type} (items : List α) {idx : Nat} (j : Nat)
    : (swapRemove items idx)[j]?
        = if j + 1 < items.length then
            (if j = idx then items[items.length - 1]? else items[j]?)
          else none := by
  rw [swapRemove]
  split
  · rename_i empty
    rw [List.getLast?_eq_none_iff.mp empty]
    simp
  · rename_i last ends
    rw [List.getElem?_dropLast, List.length_set, List.getElem?_set, ← List.getLast?_eq_getElem?,
      ends]
    by_cases inside : j + 1 < items.length
    · rw [if_pos inside, if_pos (show j < items.length - 1 by omega)]
      by_cases same : j = idx
      · subst same
        rw [if_pos rfl, if_pos rfl, if_pos (show j < items.length by omega)]
      · rw [if_neg same, if_neg (Ne.symm same)]
    · rw [if_neg inside, if_neg (show ¬ j < items.length - 1 by omega)]

theorem swapRemove_perm {α : Type} {items : List α} {idx : Nat} {item : α}
    (found : items[idx]? = some item)
    : (item :: swapRemove items idx).Perm items := by
  rcases items.eq_nil_or_concat with rfl | ⟨front, last, rfl⟩
  · cases found
  rw [List.concat_eq_append] at found ⊢
  rw [swapRemove, List.getLast?_append_of_ne_nil _ (List.cons_ne_nil last [])]
  dsimp only [List.getLast?_singleton]
  rcases Nat.lt_or_ge idx front.length with inside | outside
  · rw [List.getElem?_append_left inside] at found
    rw [List.set_append_left _ _ inside, List.dropLast_concat]
    obtain ⟨before, after, rfl, rfl⟩ : ∃ before after, front = before ++ item :: after
        ∧ before.length = idx := by
      obtain ⟨_, rfl⟩ := List.getElem?_eq_some_iff.mp found
      refine ⟨front.take idx, front.drop (idx + 1), ?_, List.length_take_of_le inside.le⟩
      rw [List.getElem_cons_drop, List.take_append_drop]
    have written : (before ++ item :: after).set before.length last = before ++ last :: after := by
      simp
    rw [written, List.append_assoc, List.cons_append]
    exact (((List.perm_append_singleton last after).symm.append_left before).cons item).trans
      List.perm_middle.symm
  · have atEnd : idx = front.length := by
      have inside := (List.getElem?_eq_some_iff.mp found).1
      rw [List.length_append, List.length_singleton] at inside
      omega
    subst atEnd
    rw [List.getElem?_concat_length, Option.some.injEq] at found
    subst found
    have written : (front ++ [last]).set front.length last = front ++ [last] := by simp
    rw [written, List.dropLast_concat]
    exact (List.perm_append_singleton last front).symm

-- Entries

structure MempoolEntry where
  tx : Transaction
  txSize : UInt64
  branchId : UInt32
deriving DecidableEq, Repr

/--
How the allocations of one `mempool_entry_init` go: whether the arrays of the copy are had, and
how many bytes the stream can hold before it fails to grow. A buffer is less than half of the
address space.
-/
structure InitAllocs where
  copies : Bool
  room : Nat
  room_lt : room < 2 ^ 63

def maxTxInputs : Nat := 65536

def maxTxOutputs : Nat := 65536

/-- Models `transaction_copy`; a copy that fails keeps the scalars and loses the arrays. -/
def transactionCopy (allocated : Bool) (tx : Transaction) : Transaction :=
  if allocated && tx.vin.length ≤ maxTxInputs && tx.vout.length ≤ maxTxOutputs then tx
  else { tx with vin := [], vout := [], vShieldedSpend := [], vShieldedOutput := [],
                 vJoinsplit := [] }

/-- Models `mempool_entry_init`, which takes neither failure for its own. -/
def mempoolEntryInit (allocs : InitAllocs) (tx : Transaction) (branchId : UInt32)
    : MempoolEntry :=
  let copy := transactionCopy allocs.copies tx
  { tx := copy,
    txSize := UInt64.ofNat (min allocs.room (transactionSerializeSize copy)),
    branchId }

-- The pool

structure Inpoint where
  txIndex : Nat
  n : UInt32
deriving DecidableEq, Repr

def outpointMapCap : Nat := 4096

def mempoolInitialCap : Nat := 256

def outpointHash (cap : Nat) (op : Outpoint) : Nat :=
  (UInt32.ofNat (natLE (op.hash.data.take 4)) ^^^ (op.n * 2654435761)).toNat % (cap % 2 ^ 32)

structure TxMempool where
  entries : List MempoolEntry
  entriesCap : Nat
  nextTx : Slots Outpoint Inpoint
  nextTxUsed : Nat
  totalTxSize : UInt64
  txsUpdated : UInt32
  addedTotal : UInt64
  removedDirectTotal : UInt64
  removedForBlockTotal : UInt64
  removedForBranchTotal : UInt64
  clearedTotal : UInt64
deriving Repr

def txMempoolInit : TxMempool where
  entries := []
  entriesCap := mempoolInitialCap
  nextTx := List.replicate outpointMapCap none
  nextTxUsed := 0
  totalTxSize := 0
  txsUpdated := 0
  addedTotal := 0
  removedDirectTotal := 0
  removedForBlockTotal := 0
  removedForBranchTotal := 0
  clearedTotal := 0

def outpointFind (pool : TxMempool) (op : Outpoint) : Option Inpoint :=
  ProbeTable.find outpointHash pool.nextTx op

def findEntryByHash (pool : TxMempool) (hash : Uint256) : Option Nat :=
  pool.entries.findIdx? fun entry => entry.tx.hash == hash

def txMempoolClear (pool : TxMempool) : TxMempool :=
  { pool with
    clearedTotal := pool.clearedTotal + UInt64.ofNat pool.entries.length,
    entries := [],
    nextTx := List.replicate pool.nextTx.length none,
    nextTxUsed := 0,
    totalTxSize := 0,
    txsUpdated := pool.txsUpdated + 1 }

/-- Models `outpoint_map_grow`. -/
def outpointMapGrow (pool : TxMempool) (newcap : Nat) (allocated : Bool) : Option TxMempool :=
  if allocated then
    match ProbeTable.grow outpointHash pool.nextTx newcap with
    | none => none
    | some newmap => some { pool with nextTx := newmap }
  else none

def mempoolReserveOutpointMap (pool : TxMempool) (projected : Nat) (allocated : Bool)
    : Option TxMempool :=
  if projected * 10 > pool.nextTx.length * 7 then
    let target := if projected * 4 < outpointMapCap then outpointMapCap else projected * 4
    outpointMapGrow pool
      (if target ≤ pool.nextTx.length then pool.nextTx.length * 2 else target) allocated
  else some pool

def mempoolGrowEntriesIfFull (pool : TxMempool) (allocated : Bool) : Option TxMempool :=
  if pool.entries.length < pool.entriesCap then some pool
  else if allocated then some { pool with entriesCap := pool.entriesCap * 2 }
  else none

/-- How the allocations of one `tx_mempool_add_unchecked` go. -/
structure AddAllocs where
  map : Bool
  entries : Bool
  init : InitAllocs

def maxMempoolBytes : UInt64 := 300 * 1024 * 1024

/-- What an input of the entry at an index puts into the table. -/
def inputKey (idx : Nat) (input : TxIn × Nat) : Outpoint × Inpoint :=
  (input.1.prevout, { txIndex := idx, n := UInt32.ofNat input.2 })

/-- Models one turn of the insertion loop; a full table drops the outpoint with a warning. -/
def trackInput (pool : TxMempool) (key : Outpoint × Inpoint) : TxMempool :=
  match ProbeTable.insert outpointHash pool.nextTx key.1 key.2 with
  | none => pool
  | some (nextTx, added) =>
    { pool with
      nextTx,
      nextTxUsed := if added then pool.nextTxUsed + 1 else pool.nextTxUsed }

/-- The end of `tx_mempool_add_unchecked`, behind its last check. -/
def appendEntry (pool : TxMempool) (entry : MempoolEntry) (allocs : InitAllocs) : TxMempool :=
  let e := mempoolEntryInit allocs entry.tx entry.branchId
  let idx := pool.entries.length
  let pool := { pool with
    entries := pool.entries ++ [e],
    addedTotal := pool.addedTotal + 1 }
  let pool := (e.tx.vin.zipIdx.map (inputKey idx)).foldl trackInput pool
  { pool with
    txsUpdated := pool.txsUpdated + 1,
    totalTxSize := pool.totalTxSize + entry.txSize }

theorem foldl_trackInput_entries (pool : TxMempool) (keys : List (Outpoint × Inpoint))
    : (keys.foldl trackInput pool).entries = pool.entries := by
  induction keys generalizing pool with
  | nil => rfl
  | cons key rest ih =>
    rw [List.foldl_cons, ih, trackInput]
    split <;> rfl

theorem appendEntry_entries (pool : TxMempool) (entry : MempoolEntry) (allocs : InitAllocs)
    : (appendEntry pool entry allocs).entries
        = pool.entries ++ [mempoolEntryInit allocs entry.tx entry.branchId] :=
  foldl_trackInput_entries _ _

def txMempoolAddUnchecked (pool : TxMempool) (hash : Uint256) (entry : MempoolEntry)
    (allocs : AddAllocs) : Bool × TxMempool :=
  if (findEntryByHash pool hash).isSome then (false, pool)
  else if pool.totalTxSize + entry.txSize > maxMempoolBytes then (false, pool)
  else if entry.tx.vin.any fun input => (outpointFind pool input.prevout).isSome then (false, pool)
  else
    match mempoolReserveOutpointMap pool (pool.nextTxUsed + entry.tx.vin.length) allocs.map with
    | none => (false, pool)
    | some pool =>
      match mempoolGrowEntriesIfFull pool allocs.entries with
      | none => (false, pool)
      | some pool => (true, appendEntry pool entry allocs.init)

/-- Models one turn of the removal loop. -/
def untrackInput (pool : TxMempool) (op : Outpoint) : TxMempool :=
  let (nextTx, removed) := ProbeTable.remove outpointHash pool.nextTx op
  { pool with
    nextTx,
    nextTxUsed :=
      if removed && pool.nextTxUsed > 0 then pool.nextTxUsed - 1 else pool.nextTxUsed }

/-- Models one turn of the loop that corrects the index of a moved entry. -/
def redirectInput (idx : Nat) (nextTx : Slots Outpoint Inpoint) (op : Outpoint)
    : Slots Outpoint Inpoint :=
  ProbeTable.modify outpointHash nextTx op fun value => { value with txIndex := idx }

/-- Models the end of `remove_entry_at`: an entry that was moved to the index is found there. -/
def redirectMoved (entries : List MempoolEntry) (idx : Nat) (nextTx : Slots Outpoint Inpoint)
    : Slots Outpoint Inpoint :=
  match entries[idx]? with
  | none => nextTx
  | some moved => (moved.tx.vin.map TxIn.prevout).foldl (redirectInput idx) nextTx

def removeEntryAt (pool : TxMempool) (idx : Nat) : TxMempool :=
  match pool.entries[idx]? with
  | none => pool
  | some e =>
    let untracked := (e.tx.vin.map TxIn.prevout).foldl untrackInput pool
    let entries := swapRemove pool.entries idx
    { untracked with
      totalTxSize := untracked.totalTxSize - e.txSize,
      entries,
      txsUpdated := untracked.txsUpdated + 1,
      nextTx := redirectMoved entries idx untracked.nextTx }

def txMempoolRemove (pool : TxMempool) (hash : Uint256) : TxMempool :=
  match findEntryByHash pool hash with
  | none => pool
  | some idx =>
    removeEntryAt { pool with removedDirectTotal := pool.removedDirectTotal + 1 } idx

/-- Models one turn of `tx_mempool_remove_for_block`. -/
def removeConfirmed (pool : TxMempool) (hash : Uint256) : TxMempool :=
  match findEntryByHash pool hash with
  | none => pool
  | some idx =>
    removeEntryAt { pool with removedForBlockTotal := pool.removedForBlockTotal + 1 } idx

def txMempoolRemoveForBlock (pool : TxMempool) (txs : List Transaction) : TxMempool :=
  (txs.map Transaction.hash).foldl removeConfirmed pool

theorem removeEntryAt_entries {pool : TxMempool} {idx : Nat} (inside : idx < pool.entries.length)
    : (removeEntryAt pool idx).entries = swapRemove pool.entries idx := by
  rw [removeEntryAt, List.getElem?_eq_getElem inside]

/-- Models the loop of `tx_mempool_remove_without_branch_id` from an index on. -/
def removeOtherBranches (branchId : UInt32) (pool : TxMempool) (i : Nat) : TxMempool :=
  match _found : pool.entries[i]? with
  | none => pool
  | some entry =>
    if entry.branchId ≠ branchId then
      removeOtherBranches branchId
        (removeEntryAt
          { pool with removedForBranchTotal := pool.removedForBranchTotal + 1 } i) i
    else removeOtherBranches branchId pool (i + 1)
termination_by pool.entries.length - i
decreasing_by
  · have inside := (List.getElem?_eq_some_iff.mp _found).1
    have entries : (removeEntryAt
        { pool with removedForBranchTotal := pool.removedForBranchTotal + 1 } i).entries
          = swapRemove pool.entries i := removeEntryAt_entries inside
    rw [entries, length_swapRemove]
    omega
  · have inside := (List.getElem?_eq_some_iff.mp _found).1
    omega

def txMempoolRemoveWithoutBranchId (pool : TxMempool) (branchId : UInt32) : TxMempool :=
  removeOtherBranches branchId pool 0

end Z23.Validation
