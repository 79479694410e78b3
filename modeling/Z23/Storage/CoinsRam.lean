import Mathlib.Data.Finset.Sort
import Z23.Lib.BitGroups
import Z23.Lib.OpenTable
import Z23.Storage.CoinsKv

/-!
The RAM overlay of the coin set as it lies in memory: an open-addressed table of LIVE and TOMB
slots over the `coins` table, its reads and aggregates, and the flush that drains it.
-/

namespace Z23.Storage.CoinsRam

open Z23.Lib.BitGroups
open Z23.Lib.Bytes
open Z23.Lib.FiniteMap
open Z23.Lib.LinearProbing
open Z23.Lib.OpenTable

-- State

/-- The static `G`, active. A slot holds its outpoint and a LIVE coin, or `none` for a TOMB. -/
structure RamStore where
  slots : Slots Outpoint (Option Coin)
  liveCount : Nat
  used : Nat
  occupied : List Nat
  flushEvery : UInt32
  sinceFlush : UInt32
  lastApplied : Int32
  maxSlots : Nat

/-- The tables of the progress store that a flush writes. -/
structure RamDb where
  coins : CoinTable
  /-- The blob under `coins_ram_flushed_height`. -/
  flushedHeight : Option (List UInt8)
  /-- The blob under `coins_applied_height`. -/
  appliedHeight : Option (List UInt8)
  /-- The `utxo_apply` row of `stage_cursor`. -/
  cursor : Option Int

structure System where
  ram : RamStore
  db : RamDb

def coinsRamDefaultSlots : Nat := 8 * 1024 * 1024

/-- `coins_ram_init` with the cadence and the high-water mark it settled on. -/
def coinsRamInit (flushEvery : UInt32) (maxSlots : Nat) : RamStore where
  slots := List.replicate coinsRamDefaultSlots none
  liveCount := 0
  used := 0
  occupied := []
  flushEvery := flushEvery
  sinceFlush := 0
  lastApplied := -1
  maxSlots := maxSlots

-- Search and growth

/-- FNV-1a over the txid and the little-endian bytes of the output number. -/
def keyHash (op : Outpoint) : Nat :=
  ((op.hash.data ++ bytesLE 4 op.n.toNat).foldl
    (fun (h : UInt64) byte => (h ^^^ byte.toUInt64) * 1099511628211)
    1469598103934665603).toNat

/-- The probe of the store; a search without an end is `exhausted`. -/
def RamStore.probe (ram : RamStore) (op : Outpoint) : Outcome Nat :=
  Z23.Lib.OpenTable.probe keyHash ram.slots op

def RamStore.grow (ram : RamStore) : RamStore :=
  let moved := rehash keyHash ram.slots ram.occupied (List.replicate (ram.slots.length * 2) none)
  { ram with slots := moved.1, occupied := moved.2 }

/-- Which allocations of a call succeed. -/
structure Alloc where
  grow : Bool := true
  script : Bool := true
  occupied : Bool := true

/-- The probe budget with one more slot crosses the load factor. -/
def RamStore.overLoad (ram : RamStore) : Bool := ram.used + 1 > ram.slots.length * 7 / 10

def growWhenLoaded (alloc : Alloc) (ram : RamStore) : Option RamStore :=
  if ram.overLoad then if alloc.grow then some ram.grow else none
  else some ram

-- Mutations

/-- An empty slot is filled and remembered. -/
def RamStore.fill (ram : RamStore) (pos : Nat) (op : Outpoint) (slot : Option Coin) : RamStore :=
  { ram with
    slots := ram.slots.set pos (some (op, slot))
    occupied := ram.occupied ++ [pos]
    used := ram.used + 1
    liveCount := if slot.isSome then ram.liveCount + 1 else ram.liveCount }

def RamStore.isLive (ram : RamStore) (pos : Nat) : Bool :=
  match cellAt ram.slots pos with
  | some (_, some _) => true
  | _ => false

def coinsRamAdd (alloc : Alloc) (ram : RamStore) (op : Outpoint) (coin : Coin)
    : Bool × RamStore :=
  let coin := { coin with script := coin.script.take maxScriptSize }
  match growWhenLoaded alloc ram with
  | none => (false, ram)
  | some ram =>
    match ram.probe op with
    | .exhausted => (false, ram)
    | .free pos =>
      if 0 < coin.script.length ∧ alloc.script = false then (false, ram)
      else if alloc.occupied then (true, ram.fill pos op (some coin))
      else (false, ram)
    | .found pos =>
      if 0 < coin.script.length ∧ alloc.script = false then (false, ram)
      else
        (true, { ram with
          slots := ram.slots.set pos (some (op, some coin))
          liveCount := if ram.isLive pos then ram.liveCount else ram.liveCount + 1 })

def coinsRamSpend (alloc : Alloc) (ram : RamStore) (op : Outpoint) : Bool × RamStore :=
  match ram.probe op with
  | .exhausted => (false, ram)
  | .found pos =>
    if ram.isLive pos then
      (true, { ram with
        slots := ram.slots.set pos (some (op, none)), liveCount := ram.liveCount - 1 })
    else (true, ram)
  | .free _ =>
    match growWhenLoaded alloc ram with
    | none => (false, ram)
    | some ram =>
      match ram.probe op with
      | .free pos => if alloc.occupied then (true, ram.fill pos op none) else (false, ram)
      | _ => (false, ram)

-- Reads

/-- What a point read writes for a buffer of `scriptCap` bytes. -/
structure PointRead where
  value : Int64
  script : List UInt8
  scriptLen : Nat
deriving DecidableEq

def pointRead (scriptCap : Nat) (coin : Coin) : PointRead :=
  ⟨coin.value, coin.script.take scriptCap, coin.script.length⟩

structure PrevoutRead extends PointRead where
  height : Int32
  isCoinbase : Bool
deriving DecidableEq

def prevoutRead (scriptCap : Nat) (coin : Coin) : PrevoutRead :=
  { pointRead scriptCap coin with height := coin.height, isCoinbase := coin.isCoinbase }

def coinsKvGetSqlite (coins : CoinTable) (op : Outpoint) (scriptCap : Nat) : Option PointRead :=
  (coins.lookup op).map (pointRead scriptCap)

def coinsKvGetPrevoutSqlite (coins : CoinTable) (op : Outpoint) (scriptCap : Nat)
    : Option PrevoutRead :=
  (coins.lookup op).map (prevoutRead scriptCap)

def coinsKvExistsSqlite (coins : CoinTable) (op : Outpoint) : Bool := (coins.lookup op).isSome

/-- The slot of an outpoint; a search without an end is kept apart. -/
def RamStore.slotOf (ram : RamStore) (op : Outpoint) : Option (Option (Option Coin)) :=
  match ram.probe op with
  | .exhausted => none
  | .free _ => some none
  | .found pos => some ((cellAt ram.slots pos).map Prod.snd)

def coinsRamGet (sys : System) (op : Outpoint) (scriptCap : Nat) : Option PointRead :=
  match sys.ram.slotOf op with
  | none => none
  | some (some slot) => slot.map (pointRead scriptCap)
  | some none => coinsKvGetSqlite sys.db.coins op scriptCap

def coinsRamGetPrevout (sys : System) (op : Outpoint) (scriptCap : Nat) : Option PrevoutRead :=
  match sys.ram.slotOf op with
  | none => none
  | some (some slot) => slot.map (prevoutRead scriptCap)
  | some none => coinsKvGetPrevoutSqlite sys.db.coins op scriptCap

def coinsRamExists (sys : System) (op : Outpoint) : Bool :=
  match sys.ram.slotOf op with
  | none => false
  | some (some slot) => slot.isSome
  | some none => coinsKvExistsSqlite sys.db.coins op

-- Count

def coinsKvCountSqlite (coins : CoinTable) : Int := rowCount coins

/-- The change of the count that a slot stands for. -/
def countAdjust (coins : CoinTable) (eff : Int) (entry : Outpoint × Option Coin) : Int :=
  match entry.2 with
  | some _ => if coinsKvExistsSqlite coins entry.1 then eff else eff + 1
  | none => if coinsKvExistsSqlite coins entry.1 then eff - 1 else eff

def coinsRamCount (sys : System) : Int :=
  sys.ram.slots.foldl
    (fun eff cell =>
      match cell with
      | none => eff
      | some entry => countAdjust sys.db.coins eff entry)
    (coinsKvCountSqlite sys.db.coins)

-- Commitment

/-- `memcmp` of the txids, then the output numbers as `index` reads them. -/
def outpointLe (index : UInt32 → Int) (x y : Outpoint) : Bool :=
  if memcmpLt x.hash.data y.hash.data then true
  else if memcmpLt y.hash.data x.hash.data then false
  else index x.n ≤ index y.n

/-- `comm_cmp` is not positive. -/
def commLe (x y : Outpoint) : Bool := outpointLe (fun n => n.toNat) x y

/-- The order of `ORDER BY txid, vout`: the column holds the output number as an `int`. -/
def sqlLe (x y : Outpoint) : Prop := outpointLe (fun n => n.toInt32.toInt) x y = true

instance : DecidableRel sqlLe := fun x y =>
  inferInstanceAs (Decidable (outpointLe (fun n => n.toInt32.toInt) x y = true))

theorem outpointLe_iff (index : UInt32 → Int) (x y : Outpoint)
    : outpointLe index x y = true
        ↔ natBE x.hash.data < natBE y.hash.data
          ∨ natBE x.hash.data = natBE y.hash.data ∧ index x.n ≤ index y.n := by
  have length : x.hash.data.length = y.hash.data.length := by
    rw [x.hash.size_data, y.hash.size_data]
  have below := memcmpLt_iff_natBE length
  have above := memcmpLt_iff_natBE length.symm
  rw [outpointLe]
  split
  · simp [below.mp ‹_›]
  · rename_i notBelow
    rw [below] at notBelow
    split
    · have more := above.mp ‹_›
      simp only [Bool.false_eq_true, false_iff]
      omega
    · rename_i notAbove
      rw [above] at notAbove
      simp only [decide_eq_true_eq]
      omega

theorem outpointLe_trans (index : UInt32 → Int) {x y z : Outpoint}
    (first : outpointLe index x y = true) (second : outpointLe index y z = true)
    : outpointLe index x z = true := by
  rw [outpointLe_iff] at *
  omega

theorem outpointLe_total (index : UInt32 → Int) (x y : Outpoint)
    : outpointLe index x y = true ∨ outpointLe index y x = true := by
  rw [outpointLe_iff, outpointLe_iff]
  omega

theorem outpointLe_antisymm {index : UInt32 → Int} (injective : Function.Injective index)
    {x y : Outpoint} (first : outpointLe index x y = true) (second : outpointLe index y x = true)
    : x = y := by
  rw [outpointLe_iff] at first second
  have hashes : natBE x.hash.data = natBE y.hash.data := by omega
  have numbers : index x.n = index y.n := by omega
  refine Outpoint.ext (Uint256.ext (natBE_inj ?_ hashes)) (injective numbers)
  rw [x.hash.size_data, y.hash.size_data]

instance : IsTrans Outpoint sqlLe := ⟨fun _ _ _ => outpointLe_trans _⟩

instance : Std.Total sqlLe := ⟨outpointLe_total _⟩

instance : Std.Antisymm sqlLe :=
  ⟨fun _ _ => outpointLe_antisymm fun a b same => by
    have signed := Int32.toInt_inj.mp same
    simpa using congrArg Int32.toUInt32 signed⟩

/-- `SELECT … FROM coins ORDER BY txid, vout`. -/
def selectCoins (coins : CoinTable) : List (Outpoint × Coin) :=
  (coins.keys.sort sqlLe).filterMap fun op => (coins.lookup op).map (op, ·)

/-- `utxo_sha3_serialize_record`. -/
def utxoSha3SerializeRecord (record : Outpoint × Coin) : List UInt8 :=
  record.1.hash.data ++ bytesLE 4 record.1.n.toNat ++ bytesLE 8 record.2.value.toUInt64.toNat
    ++ bytesLE 4 record.2.script.length ++ record.2.script
    ++ bytesLE 4 record.2.height.toUInt32.toNat ++ [if record.2.isCoinbase then 1 else 0]

/-- The stream that `coins_kv_commitment` hashes. -/
def coinsKvStream (coins : CoinTable) : List UInt8 :=
  (selectCoins coins).flatMap utxoSha3SerializeRecord

/-- One durable row of the scan; `none` is the full record array. -/
def effTakeDurableRow (ram : RamStore) (cap : Nat) (recs : List (Outpoint × Coin))
    (row : Outpoint × Coin) : Option (List (Outpoint × Coin)) :=
  match ram.probe row.1 with
  | .free _ => if recs.length ≥ cap then none else some (recs ++ [row])
  | _ => some recs

/-- The LIVE slots in the order of the cells. -/
def liveRecords (ram : RamStore) : List (Outpoint × Coin) :=
  (entries ram.slots).filterMap fun entry => entry.2.map (entry.1, ·)

/-- The records of the effective set; the order of `qsort` is settled, the keys being distinct. -/
def buildEffectiveSorted (sys : System) : Option (List (Outpoint × Coin)) :=
  let rows := selectCoins sys.db.coins
  let cap := rows.length + sys.ram.liveCount + 16
  match rows.foldlM (effTakeDurableRow sys.ram cap) [] with
  | none => none
  | some recs =>
    some ((recs ++ liveRecords sys.ram).mergeSort fun x y => commLe x.1 y.1)

/-- The stream that `coins_ram_commitment` hashes. -/
def coinsRamStream (sys : System) : Option (List UInt8) :=
  (buildEffectiveSorted sys).map fun recs => recs.flatMap utxoSha3SerializeRecord

-- Flush

/-- What the store and the allocator answer to a flush. -/
structure FlushEnv where
  stageBatchActive : Bool := false
  readsWatermark : Bool := true
  /-- Whether `utxo_apply_log` exists; `none` is a failed read. -/
  logTableExists : Option Bool := some false
  /-- Whether its row of a height has `ok = 1`. -/
  logOkAt : Int32 → Option Bool := fun _ => some false
  deltaTableExists : Option Bool := some false
  deltaExistsAt : Int32 → Option Bool := fun _ => some false
  allocAdds : Bool := true
  allocSpends : Bool := true
  begins : Bool := true
  addsRow : Nat → Bool := fun _ => true
  spendsRow : Nat → Bool := fun _ => true
  setsWatermark : Bool := true
  writesFrontier : Bool := true
  setsCursor : Bool := true
  commits : Bool := true

/-- The blob of a watermark. -/
def watermarkBlob (height : Int32) : List UInt8 := bytesLE 8 height.toUInt32.toNat

/-- `coins_ram_flush_read_wm`; `none` is a malformed blob. -/
def watermarkHeight (blob : Option (List UInt8)) : Option Int32 :=
  match blob with
  | none => some (-1)
  | some bytes =>
    if bytes.length = 8 then some (UInt32.ofNat (natLE bytes)).toInt32 else none

/-- `coins_kv_set_applied_height_in_tx`: the height as 64 bits. -/
def appliedHeightBlob (height : Int32) : List UInt8 :=
  bytesLE 8 height.toInt64.toUInt64.toNat

def coinsRamFlushIsStale (ram : RamStore) (flushedHeight durableHeight : Int32) : Bool :=
  flushedHeight ≤ durableHeight && !(0 < ram.sinceFlush && durableHeight < ram.lastApplied)

def coinsRamFlushEffectiveHeight (ram : RamStore) (flushedHeight : Int32) : Int32 :=
  if flushedHeight < ram.lastApplied then ram.lastApplied else flushedHeight

/-- A table that exists has to witness the height. -/
def witnessedBy (exists_ : Option Bool) (at_ : Int32 → Option Bool) (height : Int32) : Bool :=
  match exists_ with
  | none => false
  | some false => true
  | some true => at_ height == some true

def coinsRamFlushHasReducerWitness (env : FlushEnv) (height : Int32) : Bool :=
  height < 0 || (witnessedBy env.logTableExists env.logOkAt height
    && witnessedBy env.deltaTableExists env.deltaExistsAt height)

/-- The rows that a flush adds, in the order of the occupied list. -/
def flushAdds (ram : RamStore) : List (Outpoint × Coin) :=
  (listedEntries ram.slots ram.occupied).filterMap fun entry => entry.2.map (entry.1, ·)

def flushSpends (ram : RamStore) : List Outpoint :=
  (listedEntries ram.slots ram.occupied).filterMap fun entry =>
    if entry.2.isNone then some entry.1 else none

/-- `coins_ram_flush_alloc_rows`: an empty batch is not allocated. -/
def coinsRamFlushAllocRows (env : FlushEnv) (nadd nspend : Nat) : Bool :=
  (nadd == 0 || env.allocAdds) && (nspend == 0 || env.allocSpends)

/-- `coins_kv_add_many_sqlite` from row `i` on, up to the first row that fails. -/
def coinsKvAddManySqlite (succeeds : Nat → Bool)
    : Nat → CoinTable → List (Outpoint × Coin) → Bool × CoinTable
  | _, coins, [] => (true, coins)
  | i, coins, row :: rest =>
    if succeeds i then coinsKvAddManySqlite succeeds (i + 1) (coins.insert row.1 row.2) rest
    else (false, coins)

def coinsKvSpendManySqlite (succeeds : Nat → Bool)
    : Nat → CoinTable → List Outpoint → Bool × CoinTable
  | _, coins, [] => (true, coins)
  | i, coins, op :: rest =>
    if succeeds i then coinsKvSpendManySqlite succeeds (i + 1) (coins.erase op) rest
    else (false, coins)

/-- The writes inside the transaction, up to the first that fails. -/
def coinsRamFlushWrite (env : FlushEnv) (db : RamDb) (adds : List (Outpoint × Coin))
    (spends : List Outpoint) (height : Int32) : Bool × RamDb :=
  let added := coinsKvAddManySqlite env.addsRow 0 db.coins adds
  if added.1 = false then (false, { db with coins := added.2 })
  else
    let spent := coinsKvSpendManySqlite env.spendsRow 0 added.2 spends
    let db := { db with coins := spent.2 }
    if spent.1 = false then (false, db)
    else if env.setsWatermark = false then (false, db)
    else
      let db := { db with flushedHeight := some (watermarkBlob height) }
      if env.writesFrontier = false then (false, db)
      else
        let db := { db with appliedHeight := some (appliedHeightBlob (height + 1)) }
        if env.setsCursor = false then (false, db)
        else (true, { db with cursor := some (height + 1).toInt })

/-- One transaction: what it wrote stays only when every step and the COMMIT succeed. -/
def coinsRamFlushApplyTx (env : FlushEnv) (db : RamDb) (adds : List (Outpoint × Coin))
    (spends : List Outpoint) (height : Int32) : Bool × RamDb :=
  if env.begins = false then (false, db)
  else
    let written := coinsRamFlushWrite env db adds spends height
    if written.1 && env.commits then (true, written.2) else (false, db)

def coinsRamFlushClearOccupied (ram : RamStore) : RamStore :=
  { ram with
    slots := clear ram.slots ram.occupied
    occupied := []
    liveCount := 0
    used := 0
    sinceFlush := 0 }

def coinsRamFlush (env : FlushEnv) (sys : System) (flushedHeight : Int32) : Bool × System :=
  if env.stageBatchActive then (false, sys)
  else if env.readsWatermark = false then (false, sys)
  else
    match watermarkHeight sys.db.flushedHeight with
    | none => (false, sys)
    | some durableHeight =>
      if coinsRamFlushIsStale sys.ram flushedHeight durableHeight then (true, sys)
      else
        let height := coinsRamFlushEffectiveHeight sys.ram flushedHeight
        if coinsRamFlushHasReducerWitness env height = false then (false, sys)
        else if
            coinsRamFlushAllocRows env sys.ram.liveCount (flushSpends sys.ram).length = false
          then (false, sys)
        else
          -- the batch of adds has `live_count` rows
          let adds := (flushAdds sys.ram).take sys.ram.liveCount
          let tx := coinsRamFlushApplyTx env sys.db adds (flushSpends sys.ram) height
          if tx.1 then (true, { ram := coinsRamFlushClearOccupied sys.ram, db := tx.2 })
          else (false, sys)

def System.note (sys : System) (height : Int32) : System :=
  { sys with
    ram := { sys.ram with lastApplied := height, sinceFlush := sys.ram.sinceFlush + 1 } }

/-- The cadence or the high-water mark asks for a flush. -/
def RamStore.flushWanted (ram : RamStore) : Bool :=
  ram.flushEvery ≤ ram.sinceFlush || (ram.maxSlots != 0 && ram.maxSlots ≤ ram.liveCount)

/-- A height is noted; a full window or a full overlay is flushed outside a stage batch. -/
def coinsRamNoteApplied (env : FlushEnv) (sys : System) (height : Int32) : Bool × System :=
  if height ≤ sys.ram.lastApplied then (true, sys)
  else
    let noted := sys.note height
    if noted.ram.flushWanted && !env.stageBatchActive then coinsRamFlush env noted height
    else (true, noted)

end Z23.Storage.CoinsRam
