import Z23.Jobs.UtxoApplyConservation
import Z23.Jobs.UtxoApplyDb
import Z23.Lib.Bytes

/-!
The stored inverse delta of a block: the two blobs, their parsers, and the disconnect that
replays them. Unwinding a run of folded blocks restores the coin table exactly.
-/

namespace Z23.Jobs

open Z23.Consensus Z23.Lib Z23.Lib.Bytes Z23.Lib.FiniteMap Z23.Lib.FoldM Z23.Storage

-- Writing the blobs

def blobPutU32 (v : UInt32) : List UInt8 := bytesLE 4 v.toNat

def blobPutI64 (v : Int64) : List UInt8 := bytesLE 8 v.toUInt64.toNat

/-- The spent entry: txid, vout, value, height, coinbase flag, script length, script. -/
def spentEntryBytes (e : DeltaEntry) : List UInt8 :=
  e.txid.data ++ (blobPutU32 e.vout ++ (blobPutI64 e.value ++ (blobPutU32 e.height
    ++ ((if e.isCoinbase then 1 else 0)
      :: (blobPutU32 (UInt32.ofNat e.script.length) ++ e.script)))))

def serializeSpent (s : DeltaSummary) : List UInt8 := s.spent.flatMap spentEntryBytes

/-- The added entry: txid and vout, all that a deletion needs. -/
def addedEntryBytes (e : DeltaEntry) : List UInt8 := e.txid.data ++ blobPutU32 e.vout

def serializeAdded (s : DeltaSummary) : List UInt8 := s.added.flatMap addedEntryBytes

/-- The default limit of SQLite on the size of a bound blob. -/
def sqliteMaxLength : Nat := 1000000000

/--
Models `delta_persist_impl`: INSERT OR REPLACE of the row. A blob over the SQLite limit is not
bound, and the NOT NULL column then refuses the row.
-/
def utxoApplyDeltaPersist (db : ApplyDb) (height : Int) (branchHash : Uint256)
    (s : DeltaSummary) : Option ApplyDb :=
  let spentBlob := serializeSpent s
  let addedBlob := serializeAdded s
  if spentBlob.length > sqliteMaxLength || addedBlob.length > sqliteMaxLength then none
  else some { db with deltas := db.deltas.insert height ⟨branchHash.data, spentBlob, addedBlob⟩ }

theorem utxoApplyDeltaPersist_some {db next : ApplyDb} {height : Int} {branchHash : Uint256}
    {s : DeltaSummary} (persisted : utxoApplyDeltaPersist db height branchHash s = some next)
    : next =
        { db with
          deltas := db.deltas.insert height
            ⟨branchHash.data, serializeSpent s, serializeAdded s⟩ } := by
  simp only [utxoApplyDeltaPersist] at persisted
  split at persisted
  · simp at persisted
  · exact (Option.some.inj persisted).symm

-- Reading the blobs back

def blobGetU32 (p : List UInt8) : Option (UInt32 × List UInt8) :=
  (takeBytes 4 p).map (fun split => (UInt32.ofNat (natLE split.1), split.2))

def blobGetI64 (p : List UInt8) : Option (Int64 × List UInt8) :=
  (takeBytes 8 p).map (fun split => ((UInt64.ofNat (natLE split.1)).toInt64, split.2))

def blobGetTxid (p : List UInt8) : Option (Uint256 × List UInt8) :=
  (takeBytes 32 p).bind (fun split =>
    if size : split.1.length = 32 then some (⟨split.1, size⟩, split.2) else none)

def blobGetFlag : List UInt8 → Option (Bool × List UInt8)
  | [] => none
  | byte :: rest => some (byte != 0, rest)

/-- One turn of the loop in `inverse_readd_spent`, up to the write. -/
def spentEntryParse (p : List UInt8) : Option ((Outpoint × Coin) × List UInt8) := do
  let (txid, p) ← blobGetTxid p
  let (vout, p) ← blobGetU32 p
  let (value, p) ← blobGetI64 p
  let (ch, p) ← blobGetU32 p
  let (isCb, p) ← blobGetFlag p
  let (slen, p) ← blobGetU32 p
  let (script, p) ← takeBytes slen.toNat p
  return ((⟨txid, vout⟩, ⟨value, ch.toInt32, isCb, script⟩), p)

def addedEntryParse (p : List UInt8) : Option (Outpoint × List UInt8) := do
  let (txid, p) ← blobGetTxid p
  let (vout, p) ← blobGetU32 p
  return (⟨txid, vout⟩, p)

/--
The blob loop: parse an entry, write it, go on until the blob is used up. A malformed entry stops
the loop with the writes made so far. `fuel` is the blob length; every entry takes some bytes.
-/
def blobReplay {α : Type} (parse : List UInt8 → Option (α × List UInt8))
    (write : CoinStore → α → CoinStore) : Nat → List UInt8 → CoinStore → CoinStore × Bool
  | _, [], store => (store, true)
  | 0, _ :: _, store => (store, false)
  | fuel + 1, byte :: rest, store =>
    match parse (byte :: rest) with
    | none => (store, false)
    | some (entry, p) => blobReplay parse write fuel p (write store entry)

def inverseReaddSpent (store : CoinStore) (blob : List UInt8) : CoinStore × Bool :=
  blobReplay spentEntryParse (fun store row => coinsKvAdd store row.1 row.2) blob.length blob
    store

def inverseSpendAdded (store : CoinStore) (blob : List UInt8) : CoinStore × Bool :=
  blobReplay addedEntryParse coinsKvSpend blob.length blob store

/-- A height without a delta row may be skipped only when the apply log records a failure. -/
def inverseMissingDeltaAllowed (db : ApplyDb) (height : Int) : Bool :=
  match db.log.lookup height with
  | some row => !row.ok
  | none => false

/--
Models `utxo_apply_emit_inverse_delta`: first every spent coin is added back, then every created
outpoint is deleted. The flag is the return value; the state keeps the writes of a failed call.
-/
def utxoApplyEmitInverseDelta (db : ApplyDb) (height : Int) : ApplyDb × Bool :=
  match db.deltas.lookup height with
  | none => (db, inverseMissingDeltaAllowed db height)
  | some row =>
    match inverseReaddSpent db.store row.spentBlob with
    | (store, false) => ({ db with store := store }, false)
    | (store, true) =>
      let (store, ok) := inverseSpendAdded store row.addedBlob
      ({ db with store := store }, ok)

-- Round trip of the blobs

theorem blobGetU32_put (v : UInt32) (rest : List UInt8)
    : blobGetU32 (blobPutU32 v ++ rest) = some (v, rest) := by
  have fits : v.toNat < 256 ^ 4 := v.toNat_lt
  rw [blobGetU32, blobPutU32, takeBytes_bytesLE, Option.map_some, natLE_bytesLE fits,
    UInt32.ofNat_toNat]

theorem blobGetI64_put (v : Int64) (rest : List UInt8)
    : blobGetI64 (blobPutI64 v ++ rest) = some (v, rest) := by
  have fits : v.toUInt64.toNat < 256 ^ 8 := v.toUInt64.toNat_lt
  rw [blobGetI64, blobPutI64, takeBytes_bytesLE, Option.map_some, natLE_bytesLE fits,
    UInt64.ofNat_toNat]
  rfl

theorem blobGetTxid_put (txid : Uint256) (rest : List UInt8)
    : blobGetTxid (txid.data ++ rest) = some (txid, rest) := by
  rw [blobGetTxid, takeBytes_append txid.size_data]
  simp [txid.size_data]

theorem blobGetFlag_put (flag : Bool) (rest : List UInt8)
    : blobGetFlag ((if flag then 1 else 0) :: rest) = some (flag, rest) := by
  cases flag <;> rfl

theorem spentEntryParse_bytes {e : DeltaEntry} (short : e.script.length ≤ utxoApplyScriptMax)
    (rest : List UInt8)
    : spentEntryParse (spentEntryBytes e ++ rest) = some (e.restoreRow, rest) := by
  have lengthExact : (UInt32.ofNat e.script.length).toNat = e.script.length := by
    rw [utxoApplyScriptMax] at short
    rw [UInt32.toNat_ofNat']
    omega
  simp only [spentEntryParse, spentEntryBytes, List.append_assoc, List.cons_append,
    blobGetTxid_put, blobGetU32_put, blobGetI64_put, blobGetFlag_put, lengthExact,
    takeBytes_append rfl, Option.bind_eq_bind, Option.bind_some]
  rfl

theorem addedEntryParse_bytes (e : DeltaEntry) (rest : List UInt8)
    : addedEntryParse (addedEntryBytes e ++ rest) = some (e.outpoint, rest) := by
  simp only [addedEntryParse, addedEntryBytes, List.append_assoc, blobGetTxid_put,
    blobGetU32_put, Option.bind_eq_bind, Option.bind_some]
  rfl

theorem blobReplay_flatMap {α : Type} {parse : List UInt8 → Option (α × List UInt8)}
    {write : CoinStore → α → CoinStore} {bytes : DeltaEntry → List UInt8} {row : DeltaEntry → α}
    {entries : List DeltaEntry} (nonempty : ∀ e, bytes e ≠ [])
    (parses : ∀ e ∈ entries, ∀ rest, parse (bytes e ++ rest) = some (row e, rest)) {fuel : Nat}
    (enough : (entries.flatMap bytes).length ≤ fuel) (store : CoinStore)
    : blobReplay parse write fuel (entries.flatMap bytes) store
        = ((entries.map row).foldl write store, true) := by
  induction entries generalizing fuel store with
  | nil =>
    cases fuel <;> rfl
  | cons e rest ih =>
    obtain ⟨first, tail, split⟩ := List.exists_cons_of_ne_nil (nonempty e)
    have parsed := parses e List.mem_cons_self (rest.flatMap bytes)
    rw [List.flatMap_cons, split] at enough ⊢
    rw [split] at parsed
    cases fuel with
    | zero => simp at enough
    | succ fuel =>
      have enoughRest : (rest.flatMap bytes).length ≤ fuel := by
        simp only [List.cons_append, List.length_cons, List.length_append] at enough
        omega
      rw [List.cons_append] at parsed ⊢
      rw [blobReplay, parsed]
      exact ih (List.forall_mem_cons.mp parses).2
        enoughRest (write store (row e))

private theorem spentEntryBytes_ne_nil (e : DeltaEntry) : spentEntryBytes e ≠ [] := by
  simp [spentEntryBytes]

private theorem addedEntryBytes_ne_nil (e : DeltaEntry) : addedEntryBytes e ≠ [] := by
  intro empty
  have lengths := congrArg List.length empty
  simp [addedEntryBytes, e.txid.size_data] at lengths

theorem inverseReaddSpent_serialized {s : DeltaSummary}
    (scripts : ∀ e ∈ s.spent, e.script.length ≤ utxoApplyScriptMax) (store : CoinStore)
    : inverseReaddSpent store (serializeSpent s)
        = (coinsKvAddMany store (s.spent.map DeltaEntry.restoreRow), true) :=
  blobReplay_flatMap spentEntryBytes_ne_nil
    (fun e member => spentEntryParse_bytes (scripts e member)) (Nat.le_refl _) store

theorem inverseSpendAdded_serialized (s : DeltaSummary) (store : CoinStore)
    : inverseSpendAdded store (serializeAdded s)
        = (coinsKvSpendMany store (s.added.map DeltaEntry.outpoint), true) :=
  blobReplay_flatMap addedEntryBytes_ne_nil (fun e _ => addedEntryParse_bytes e)
    (Nat.le_refl _) store

-- One block there and back

/-- A delta that fits a coin table: what the inverse needs of it. -/
structure Invertible (coins : CoinTable) (height : UInt32) (s : DeltaSummary) : Prop where
  fresh : ∀ e ∈ s.added, e.outpoint ∉ coins
  restores
    : ∀ e ∈ s.spent,
        (withAdded coins height s.added).lookup e.outpoint = some e.restoreRow.2
  scripts : ∀ e ∈ s.spent, e.script.length ≤ utxoApplyScriptMax
  addedScripts : ∀ e ∈ s.added, e.script.length ≤ maxScriptSize

variable {cfg : ApplyConfig} {coins : CoinTable} {height : UInt32} {lookup : LookupFn}

/-- Every reported delta fits, the empty ones of genesis and of a count-only skip included. -/
theorem utxoApplyComputeBlockDelta_invertible {blk : Block} (answers : AnswersFrom lookup coins)
    (reported : (utxoApplyComputeBlockDelta cfg blk height lookup).ok = true)
    : Invertible coins height (utxoApplyComputeBlockDelta cfg blk height lookup) := by
  by_cases genesis : blk.hash = cfg.params.hashGenesisBlock
  · rw [utxoApplyComputeBlockDelta, if_pos genesis]
    constructor <;> simp [deltaSummaryInit]
  · rcases utxoApplyComputeBlockDelta_reported genesis reported with
      ⟨out, rfl, -, noSpent, noAdded⟩ | ⟨idx, init, run⟩
    · constructor <;> simp [noSpent, noAdded]
    · generalize utxoApplyComputeBlockDelta cfg blk height lookup = s at run
      simp only [utxoDeltaRun, bind_eq_ok, pure, Except.pure, Except.ok.injEq] at run
      obtain ⟨st, foldRun, _, -, _, -, rfl⟩ := run
      have records := (utxoDeltaFoldTransactions_ok init answers foldRun).2
      exact ⟨records.fresh, records.restores, records.scripts, records.addedScripts⟩

/-- Adding the spent coins back and deleting the created ones undoes `apply_coins_kv`. -/
theorem Invertible.restore_table {s : DeltaSummary} (fits : Invertible coins height s)
    : dropAll (putAll (appliedTable coins s height) (s.spent.map DeltaEntry.restoreRow))
        (s.added.map DeltaEntry.outpoint) = coins := by
  have recorded : ∀ row ∈ s.spent.map DeltaEntry.restoreRow,
      row.1 ∈ (s.added.map (DeltaEntry.addRow height)).map Prod.fst
        ∨ coins.lookup row.1 = some row.2 := by
    intro row member
    obtain ⟨e, inSpent, rfl⟩ := List.mem_map.mp member
    obtain inAdded | ⟨-, before⟩ := lookup_putAll_mem (fits.restores e inSpent)
    · exact .inl (List.mem_map_of_mem inAdded)
    · exact .inr before
  have fresh : ∀ op ∈ (s.added.map (DeltaEntry.addRow height)).map Prod.fst, op ∉ coins := by
    rw [map_fst_addRow]
    intro op member
    obtain ⟨e, inAdded, rfl⟩ := List.mem_map.mp member
    exact fits.fresh e inAdded
  have restored := dropAll_putAll_restore coins fresh recorded
  rwa [map_fst_addRow, map_fst_restoreRow] at restored

theorem utxoApplyEmitInverseDelta_restores {db : ApplyDb} {atHeight : Int}
    {branchHash : List UInt8} {s : DeltaSummary}
    (stored : db.deltas.lookup atHeight
      = some ⟨branchHash, serializeSpent s, serializeAdded s⟩)
    (fits : Invertible coins height s)
    (applied : db.store.Presents (appliedTable coins s height))
    : ∃ store, utxoApplyEmitInverseDelta db atHeight = ({ db with store := store }, true)
        ∧ store.Presents coins ∧ (db.store.overlay = none → store.overlay = none) := by
  refine ⟨coinsKvSpendMany (coinsKvAddMany db.store (s.spent.map DeltaEntry.restoreRow))
    (s.added.map DeltaEntry.outpoint), ?_, ?_, fun off => coinsKvSpendMany_addMany_off off _ _⟩
  · simp only [utxoApplyEmitInverseDelta, stored, inverseReaddSpent_serialized fits.scripts,
      inverseSpendAdded_serialized]
  · rw [← fits.restore_table]
    refine (applied.addMany ?_).spendMany _
    intro row member
    obtain ⟨e, inSpent, rfl⟩ := List.mem_map.mp member
    exact fits.scripts e inSpent

-- Runs of blocks

/--
The part of one apply step that concerns the coins: compute the delta, author it, persist its
inverse under the block's height.
-/
def foldBlock (cfg : ApplyConfig) (lookup : LookupFn) (db : ApplyDb) (height : Nat)
    (branchHash : Uint256) (blk : Block) : Option ApplyDb :=
  let s := utxoApplyComputeBlockDelta cfg blk (UInt32.ofNat height) lookup
  if s.ok then
    utxoApplyDeltaPersist { db with store := applyCoinsKv db.store s (UInt32.ofNat height) }
      height branchHash s
  else none

/--
Blocks `first, …, last - 1` folded one after another, each accepted over the coin set that the
one before it left.
-/
inductive Folded (cfg : ApplyConfig) (first : Nat) (db : ApplyDb) (coins : CoinTable)
    : Nat → ApplyDb → CoinTable → Prop where
  | start : Folded cfg first db coins first db coins
  | block {last : Nat} {mid next : ApplyDb} {midCoins : CoinTable} {lookup : LookupFn}
      {branchHash : Uint256} {blk : Block}
      (before : Folded cfg first db coins last mid midCoins)
      (answers : AnswersFrom lookup midCoins)
      (folded : foldBlock cfg lookup mid last branchHash blk = some next)
      : Folded cfg first db coins (last + 1) next
          (appliedTable midCoins (utxoApplyComputeBlockDelta cfg blk (UInt32.ofNat last) lookup)
            (UInt32.ofNat last))

/-- The loop `for (h = C - 1; h >= fork_plus1; h--)` over `count` heights from `first` up. -/
def inverseDeltas (db : ApplyDb) (first : Nat) : Nat → ApplyDb × Bool
  | 0 => (db, true)
  | count + 1 =>
    match utxoApplyEmitInverseDelta db (first + count : Nat) with
    | (db, false) => (db, false)
    | (db, true) => inverseDeltas db first count

/-- The stored delta of a height connects the coin tables before and after it. -/
def DeltaConnects (deltas : Table Int DeltaRow) (tables : Nat → CoinTable) (h : Nat) : Prop :=
  ∃ s branchHash,
    deltas.lookup (h : Int) = some ⟨branchHash, serializeSpent s, serializeAdded s⟩
      ∧ Invertible (tables h) (UInt32.ofNat h) s
      ∧ tables (h + 1) = appliedTable (tables h) s (UInt32.ofNat h)

/--
The stored deltas of the heights in `[first, last)` connect the coin tables `tables first`, …,
`tables last`.
-/
def DeltaHistory (deltas : Table Int DeltaRow) (tables : Nat → CoinTable) (first last : Nat)
    : Prop :=
  ∀ h, first ≤ h → h < last → DeltaConnects deltas tables h

theorem inverseDeltas_restores {tables : Nat → CoinTable} {first count : Nat} {db : ApplyDb}
    (history : DeltaHistory db.deltas tables first (first + count))
    (applied : db.store.Presents (tables (first + count)))
    : ∃ store, inverseDeltas db first count = ({ db with store := store }, true)
        ∧ store.Presents (tables first) ∧ (db.store.overlay = none → store.overlay = none) := by
  induction count generalizing db with
  | zero => exact ⟨db.store, rfl, applied, id⟩
  | succ count ih =>
    obtain ⟨s, branchHash, stored, fits, next⟩ :=
      history (first + count) (Nat.le_add_right _ _) (by omega)
    have reached : db.store.Presents (appliedTable (tables (first + count)) s
        (UInt32.ofNat (first + count))) := next ▸ applied
    obtain ⟨store, undone, presents, keepsOff⟩ :=
      utxoApplyEmitInverseDelta_restores stored fits reached
    have historyBelow : DeltaHistory db.deltas tables first (first + count) :=
      fun h low high => history h low (by omega)
    obtain ⟨final, rest, restored, finalOff⟩ :=
      ih (show DeltaHistory { db with store := store }.deltas tables first (first + count)
        from historyBelow) presents
    rw [inverseDeltas, undone]
    exact ⟨final, rest, restored, fun off => finalOff (keepsOff off)⟩

theorem foldBlock_some {db next : ApplyDb} {atHeight : Nat} {branchHash : Uint256} {blk : Block}
    (presents : db.store.Presents coins) (answers : AnswersFrom lookup coins)
    (folded : foldBlock cfg lookup db atHeight branchHash blk = some next)
    : ∃ s, s = utxoApplyComputeBlockDelta cfg blk (UInt32.ofNat atHeight) lookup
        ∧ Invertible coins (UInt32.ofNat atHeight) s
        ∧ next.store.Presents (appliedTable coins s (UInt32.ofNat atHeight))
        ∧ (db.store.overlay = none → next.store.overlay = none)
        ∧ next.deltas = db.deltas.insert (atHeight : Int)
            ⟨branchHash.data, serializeSpent s, serializeAdded s⟩ := by
  simp only [foldBlock] at folded
  split at folded
  · rename_i reported
    have fits := utxoApplyComputeBlockDelta_invertible answers reported
    obtain rfl := utxoApplyDeltaPersist_some folded
    exact ⟨_, rfl, fits, applyCoinsKv_presents presents fits.addedScripts _,
      fun off => coinsKvSpendMany_addMany_off off _ _, rfl⟩
  · simp at folded

theorem Folded.history {first last : Nat} {db final : ApplyDb} {finalCoins : CoinTable}
    (presents : db.store.Presents coins) (run : Folded cfg first db coins last final finalCoins)
    : first ≤ last ∧ final.store.Presents finalCoins
        ∧ (db.store.overlay = none → final.store.overlay = none)
        ∧ ∃ tables, tables first = coins ∧ tables last = finalCoins
          ∧ DeltaHistory final.deltas tables first last := by
  induction run with
  | start =>
    exact ⟨le_refl _, presents, id, fun _ => coins, rfl, rfl, fun h low high => by omega⟩
  | block before answers folded ih =>
    rename_i last mid next midCoins lookup branchHash blk
    obtain ⟨ordered, midPresents, midOff, tables, atFirst, atLast, history⟩ := ih
    obtain ⟨s, rfl, fits, nextPresents, nextOff, deltas⟩ :=
      foldBlock_some midPresents answers folded
    refine ⟨by omega, nextPresents, fun off => nextOff (midOff off),
      Function.update tables (last + 1) _, ?_,
      Function.update_self _ _ _, ?_⟩
    · rw [Function.update_of_ne (by omega), atFirst]
    · intro h low high
      rw [DeltaConnects, Function.update_of_ne (by omega)]
      rcases Nat.lt_succ_iff_lt_or_eq.mp high with below | rfl
      · rw [deltas, lookup_insert_eq, if_neg (by omega), Function.update_of_ne (by omega)]
        exact history h low below
      · rw [deltas, lookup_insert_eq, if_pos rfl, Function.update_self, atLast]
        exact ⟨_, _, rfl, fits, rfl⟩

/--
Unwinding is the exact inverse of folding: whatever run of blocks was folded over a coin set,
replaying their stored inverse deltas from the top down succeeds and presents the same coin set;
with the overlay off that is the coin table, row for row.
-/
theorem inverseDeltas_folded {first last : Nat} {db final : ApplyDb} {finalCoins : CoinTable}
    (presents : db.store.Presents coins) (run : Folded cfg first db coins last final finalCoins)
    : (inverseDeltas final first (last - first)).2 = true
        ∧ (inverseDeltas final first (last - first)).1.store.Presents coins
        ∧ (db.store.overlay = none →
            (inverseDeltas final first (last - first)).1.store.coins = coins) := by
  obtain ⟨ordered, finalPresents, finalOff, tables, atFirst, atLast, history⟩ :=
    run.history presents
  have count : first + (last - first) = last := by omega
  obtain ⟨store, restored, storePresents, storeOff⟩ :
      ∃ store, inverseDeltas final first (last - first) = ({ final with store := store }, true)
        ∧ store.Presents (tables first)
        ∧ (final.store.overlay = none → store.overlay = none) :=
    inverseDeltas_restores (count.symm ▸ history) (count.symm ▸ atLast.symm ▸ finalPresents)
  rw [restored, ← atFirst]
  exact ⟨rfl, storePresents, fun off => storePresents.coins_eq (storeOff (finalOff off))⟩

/-- A store that holds only the sample coins. -/
def sampleDb : ApplyDb where
  store := ⟨sampleCoins, none, none⟩
  deltas := ∅
  log := ∅
  nullifiers := []
  anchors := []
  poolTotals := ∅
  cursor := 200
  coinsAppliedHeight := some 200

/-- The block that creates and spends an output itself is undone as well. -/
theorem inverseDeltas_folded_chained
    : ∃ final finalCoins, Folded sampleConfig 200 sampleDb sampleCoins 201 final finalCoins
        ∧ (inverseDeltas final 200 1).2 = true
        ∧ (inverseDeltas final 200 1).1.store.Presents sampleCoins := by
  have succeeds : (foldBlock sampleConfig (lookupFrom sampleCoins) sampleDb 200 (.fill 8)
      chainedBlock).isSome = true := by
    decide +kernel
  obtain ⟨final, folded⟩ := Option.isSome_iff_exists.mp succeeds
  have run : Folded sampleConfig 200 sampleDb sampleCoins 201 final _ :=
    .block .start (lookupFrom_answersFrom sampleCoins) folded
  have presents : sampleDb.store.Presents sampleCoins := CoinStore.presents_of_off rfl
  have restored := inverseDeltas_folded presents run
  rw [show 201 - 200 = 1 from rfl] at restored
  exact ⟨final, _, run, restored.1, restored.2.1⟩

end Z23.Jobs
