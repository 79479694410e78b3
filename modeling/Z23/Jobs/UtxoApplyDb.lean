import Z23.Jobs.UtxoApplyFold

/-!
The rows of the progress store that the utxo_apply stage owns: coins, per-block deltas, the apply
log, the shielded tables, the stage cursor and the applied frontier.
-/

namespace Z23.Jobs

open Z23.Lib.FiniteMap Z23.Storage

/-- One row of `utxo_apply_delta`. -/
structure DeltaRow where
  branchHash : List UInt8
  spentBlob : List UInt8
  addedBlob : List UInt8
deriving DecidableEq, Repr

/-- The refusals of the shielded gates. -/
inductive ShieldedStatus where
  | shieldedDoubleSpend
  | shieldedAnchorMissing
  | shieldedAnchorHistoryGap
  | saplingFrontierMismatch
  | turnstileSprout
  | turnstileSapling
deriving DecidableEq, Repr

/-- The status column: the evidence of an applied block, or the refusal. -/
inductive ApplyStatus where
  | verified
  | checkpointFold
  | refused (status : DeltaStatus)
  | shielded (status : ShieldedStatus)
deriving DecidableEq, Repr

/-- One row of `utxo_apply_log`. -/
structure ApplyLogRow where
  status : ApplyStatus
  ok : Bool
  spentCount : Nat
  addedCount : Nat
  totalValueDelta : Int64
  failureKind : Option FailureKind
  failureDetail : Option Outpoint
deriving DecidableEq, Repr

inductive ShieldedPool where
  | sprout
  | sapling
deriving DecidableEq, Repr

/-- One row of `nullifiers`. -/
structure NullifierRow where
  pool : ShieldedPool
  nf : Uint256
  height : Int
deriving DecidableEq, Repr

/-- One row of `sprout_anchors` or `sapling_anchors`. -/
structure AnchorRow where
  pool : ShieldedPool
  anchor : Uint256
  height : Int
  tree : List UInt8
deriving DecidableEq, Repr

/-- One row of `shielded_pool_totals`. -/
structure PoolTotals where
  sprout : Int64
  sapling : Int64
deriving DecidableEq, Repr

/--
The state that one utxo_apply transaction reads and writes. All of it is durable except the
overlay and the meter inside `store`.
-/
structure ApplyDb where
  store : CoinStore
  deltas : Table Int DeltaRow
  log : Table Int ApplyLogRow
  nullifiers : List NullifierRow
  anchors : List AnchorRow
  poolTotals : Table Int PoolTotals
  cursor : Nat
  coinsAppliedHeight : Option Int
deriving DecidableEq

/-- The heights `first, first + 1, …, last`. -/
def heightRange (first last : Int) : List Int :=
  (List.range (last + 1 - first).toNat).map (fun (offset : Nat) => first + offset)

theorem mem_heightRange {first last height : Int}
    : height ∈ heightRange first last ↔ first ≤ height ∧ height ≤ last := by
  rw [heightRange, List.mem_map]
  constructor
  · rintro ⟨offset, member, rfl⟩
    rw [List.mem_range] at member
    omega
  · rintro ⟨low, high⟩
    refine ⟨(height - first).toNat, List.mem_range.mpr ?_, ?_⟩ <;> omega

/--
Models `utxo_apply_delete_rows_above`: every row whose creation height is in the range goes, from
the log, the deltas, the nullifiers, both anchor tables and the pool totals.
-/
def utxoApplyDeleteRowsAbove (db : ApplyDb) (first last : Int) : ApplyDb :=
  { db with
    log := dropAll db.log (heightRange first last)
    deltas := dropAll db.deltas (heightRange first last)
    nullifiers := db.nullifiers.filter (fun row => !(first ≤ row.height && row.height ≤ last))
    anchors := db.anchors.filter (fun row => !(first ≤ row.height && row.height ≤ last))
    poolTotals := dropAll db.poolTotals (heightRange first last) }

/-- What the database file holds. -/
def ApplyDb.durable (db : ApplyDb) : ApplyDb :=
  { db with store := { db.store with overlay := none, meter := none } }

/-- The undo of an SQLite transaction on the coins: the table only, never the overlay. -/
def CoinStore.rollbackTo (now saved : CoinStore) : CoinStore :=
  { saved with overlay := now.overlay, meter := now.meter }

/-- The undo of an SQLite transaction: everything durable. -/
def ApplyDb.rollbackTo (now saved : ApplyDb) : ApplyDb :=
  { saved with store := CoinStore.rollbackTo now.store saved.store }

@[simp]
theorem ApplyDb.durable_rollbackTo (now saved : ApplyDb)
    : (now.rollbackTo saved).durable = saved.durable := rfl

@[simp]
theorem ApplyDb.rollbackTo_self (db : ApplyDb) : db.rollbackTo db = db := rfl

end Z23.Jobs
