import Z23.Lib.FiniteMap
import Z23.Primitives

/-!
The coin set: the `coins` table, the RAM overlay that shadows it during a bulk fold, and the
meter of physically changed rows.
-/

namespace Z23.Storage

open Z23.Lib.FiniteMap

/-- One row of the `coins` table without its key. -/
structure Coin where
  value : Int64
  height : Int32
  isCoinbase : Bool
  script : Script
deriving DecidableEq, Repr

abbrev CoinTable := Table Outpoint Coin

/-- The sum of the `value` column. -/
def totalValue (coins : CoinTable) : Int := total (fun _ coin => coin.value.toInt) coins

/-- The number of rows. -/
def rowCount (coins : CoinTable) : Int := total (fun _ _ => 1) coins

/-- Every coin of the set has an amount in the money range. -/
def MoneyTable (coins : CoinTable) : Prop :=
  ∀ op coin, coins.lookup op = some coin → moneyRange coin.value = true

/--
The coin store of the reducer thread. The overlay, when active, maps an outpoint to its LIVE
coin or to a TOMB (`none`); the meter, when active, is the net number of rows the table gained
since it was started.
-/
structure CoinStore where
  coins : CoinTable
  overlay : Option (Table Outpoint (Option Coin))
  meter : Option Int
deriving DecidableEq

/-- Models `coins_ram_add`, which truncates an oversized script. -/
def coinsRamAdd (overlay : Table Outpoint (Option Coin)) (op : Outpoint) (coin : Coin)
    : Table Outpoint (Option Coin) :=
  overlay.insert op (some { coin with script := coin.script.take maxScriptSize })

/--
Models `coins_ram_spend`: a LIVE slot becomes a TOMB, a TOMB stays, a miss lays a TOMB.
-/
def coinsRamSpend (overlay : Table Outpoint (Option Coin)) (op : Outpoint)
    : Table Outpoint (Option Coin) :=
  overlay.insert op none

/-- Models `coins_ram_get_prevout`: the overlay first, then the durable row. -/
def coinsRamGetPrevout (overlay : Table Outpoint (Option Coin)) (coins : CoinTable)
    (op : Outpoint) : Option Coin :=
  match overlay.lookup op with
  | some slot => slot
  | none => coins.lookup op

/-- INSERT OR IGNORE, then an update of the existing row on a collision. -/
def coinsKvAdd (store : CoinStore) (op : Outpoint) (coin : Coin) : CoinStore :=
  match store.overlay with
  | some overlay => { store with overlay := some (coinsRamAdd overlay op coin) }
  | none =>
    let inserted : Int := if op ∈ store.coins then 0 else 1
    { store with
      coins := store.coins.insert op coin
      meter := store.meter.map (· + inserted) }

/-- DELETE; an absent row is a no-op that the meter sees as zero changes. -/
def coinsKvSpend (store : CoinStore) (op : Outpoint) : CoinStore :=
  match store.overlay with
  | some overlay => { store with overlay := some (coinsRamSpend overlay op) }
  | none =>
    let changed : Int := if op ∈ store.coins then 1 else 0
    { store with
      coins := store.coins.erase op
      meter := store.meter.map (· - changed) }

def coinsKvAddMany (store : CoinStore) (rows : List (Outpoint × Coin)) : CoinStore :=
  rows.foldl (fun store row => coinsKvAdd store row.1 row.2) store

def coinsKvSpendMany (store : CoinStore) (rows : List Outpoint) : CoinStore :=
  rows.foldl coinsKvSpend store

/-- Models `coins_kv_get_prevout` on the fold thread: the coin set that lookups see. -/
def coinsKvGetPrevout (store : CoinStore) (op : Outpoint) : Option Coin :=
  match store.overlay with
  | some overlay => coinsRamGetPrevout overlay store.coins op
  | none => store.coins.lookup op

def coinsKvDeltaBegin (store : CoinStore) : CoinStore := { store with meter := some 0 }

def coinsKvDeltaCancel (store : CoinStore) : CoinStore := { store with meter := none }

-- Writes with the overlay off

theorem rowCount_insert (coins : CoinTable) (op : Outpoint) (coin : Coin)
    : rowCount (coins.insert op coin)
        = rowCount coins + (if op ∈ coins then 0 else 1) := by
  by_cases present : op ∈ coins
  · obtain ⟨old, found⟩ := Finmap.mem_iff.mp present
    have replaced : coins.insert op coin = (coins.erase op).insert op coin := by
      apply Finmap.ext_lookup
      intro other
      rw [lookup_insert_eq, lookup_insert_eq, lookup_erase_eq]
      by_cases same : other = op <;> simp [same]
    rw [rowCount, replaced, total_insert_of_notMem _ _ Finmap.notMem_erase_self, rowCount,
      total_erase _ found, if_pos present, add_zero]
  · rw [rowCount, total_insert_of_notMem _ _ present, if_neg present, add_comm, rowCount]

theorem rowCount_erase (coins : CoinTable) (op : Outpoint)
    : rowCount (coins.erase op) = rowCount coins - (if op ∈ coins then 1 else 0) := by
  by_cases present : op ∈ coins
  · obtain ⟨old, found⟩ := Finmap.mem_iff.mp present
    rw [if_pos present, rowCount, rowCount, total_erase _ found]
    omega
  · rw [if_neg present, rowCount, rowCount, total_erase_of_notMem _ present, sub_zero]

/--
The effect of any table write with the overlay off: the meter follows the row count.
-/
def CoinStore.write (store : CoinStore) (coins : CoinTable) : CoinStore :=
  { store with
    coins := coins
    meter := store.meter.map (· + (rowCount coins - rowCount store.coins)) }

@[simp]
theorem CoinStore.write_coins (store : CoinStore) (coins : CoinTable)
    : (store.write coins).coins = coins := rfl

@[simp]
theorem CoinStore.write_overlay (store : CoinStore) (coins : CoinTable)
    : (store.write coins).overlay = store.overlay := rfl

theorem CoinStore.write_self (store : CoinStore) : store.write store.coins = store := by
  obtain ⟨coins, overlay, meter⟩ := store
  simp [CoinStore.write]

theorem CoinStore.write_write (store : CoinStore) (first second : CoinTable)
    : (store.write first).write second = store.write second := by
  have compose : ∀ delta : Int,
      delta + (rowCount first - rowCount store.coins) + (rowCount second - rowCount first)
        = delta + (rowCount second - rowCount store.coins) := by
    intro delta
    omega
  simp [CoinStore.write, Function.comp_def, compose]

variable {store : CoinStore}

section

variable (off : store.overlay = none)
include off

theorem coinsKvAdd_off (op : Outpoint) (coin : Coin)
    : coinsKvAdd store op coin = store.write (store.coins.insert op coin) := by
  simp [coinsKvAdd, off, CoinStore.write, rowCount_insert]

theorem coinsKvSpend_off (op : Outpoint)
    : coinsKvSpend store op = store.write (store.coins.erase op) := by
  simp [coinsKvSpend, off, CoinStore.write, rowCount_erase, sub_eq_add_neg]

theorem coinsKvAddMany_off (rows : List (Outpoint × Coin))
    : coinsKvAddMany store rows = store.write (putAll store.coins rows) := by
  induction rows generalizing store with
  | nil => exact store.write_self.symm
  | cons row rest ih =>
    have step : coinsKvAddMany store (row :: rest)
        = coinsKvAddMany (coinsKvAdd store row.1 row.2) rest := rfl
    rw [step, coinsKvAdd_off off, ih (by simpa using off), CoinStore.write_write]
    rfl

theorem coinsKvSpendMany_off (rows : List Outpoint)
    : coinsKvSpendMany store rows = store.write (dropAll store.coins rows) := by
  induction rows generalizing store with
  | nil => exact store.write_self.symm
  | cons op rest ih =>
    have step : coinsKvSpendMany store (op :: rest)
        = coinsKvSpendMany (coinsKvSpend store op) rest := rfl
    rw [step, coinsKvSpend_off off, ih (by simpa using off), CoinStore.write_write]
    rfl

end

-- The coin set that a store presents

/-- The store refines a coin set: every lookup answers from it, whatever the overlay holds. -/
def CoinStore.Presents (store : CoinStore) (coins : CoinTable) : Prop :=
  ∀ op, coinsKvGetPrevout store op = coins.lookup op

theorem CoinStore.presents_of_off (off : store.overlay = none)
    : store.Presents store.coins := by
  intro op
  rw [coinsKvGetPrevout, off]

section

variable {coins : CoinTable} (presents : store.Presents coins)
include presents

theorem CoinStore.Presents.coins_eq (off : store.overlay = none) : store.coins = coins := by
  apply Finmap.ext_lookup
  intro op
  rw [← presents op, coinsKvGetPrevout, off]

theorem CoinStore.Presents.unique {other : CoinTable} (also : store.Presents other)
    : coins = other := by
  apply Finmap.ext_lookup
  intro op
  rw [← presents op, also op]

theorem CoinStore.Presents.add (op : Outpoint) {coin : Coin}
    (short : coin.script.length ≤ maxScriptSize)
    : (coinsKvAdd store op coin).Presents (coins.insert op coin) := by
  intro other
  have before := presents other
  rw [coinsKvGetPrevout] at before
  cases active : store.overlay with
  | none =>
    simp only [active] at before
    simp only [coinsKvAdd, coinsKvGetPrevout, active, lookup_insert_eq, before]
  | some overlay =>
    simp only [active, coinsRamGetPrevout] at before
    simp only [coinsKvAdd, coinsKvGetPrevout, active, coinsRamAdd, coinsRamGetPrevout,
      lookup_insert_eq, List.take_of_length_le short]
    by_cases same : other = op
    · simp [same]
    · simpa [same] using before

theorem CoinStore.Presents.spend (op : Outpoint)
    : (coinsKvSpend store op).Presents (coins.erase op) := by
  intro other
  have before := presents other
  rw [coinsKvGetPrevout] at before
  cases active : store.overlay with
  | none =>
    simp only [active] at before
    simp only [coinsKvSpend, coinsKvGetPrevout, active, lookup_erase_eq, before]
  | some overlay =>
    simp only [active, coinsRamGetPrevout] at before
    simp only [coinsKvSpend, coinsKvGetPrevout, active, coinsRamSpend, coinsRamGetPrevout,
      lookup_insert_eq, lookup_erase_eq]
    by_cases same : other = op
    · simp [same]
    · simpa [same] using before

theorem CoinStore.Presents.addMany {rows : List (Outpoint × Coin)}
    (short : ∀ row ∈ rows, row.2.script.length ≤ maxScriptSize)
    : (coinsKvAddMany store rows).Presents (putAll coins rows) := by
  induction rows generalizing store coins with
  | nil => exact presents
  | cons row rest ih =>
    exact ih (presents.add row.1 (short row List.mem_cons_self))
      (List.forall_mem_cons.mp short).2

theorem CoinStore.Presents.spendMany (ops : List Outpoint)
    : (coinsKvSpendMany store ops).Presents (dropAll coins ops) := by
  induction ops generalizing store coins with
  | nil => exact presents
  | cons op rest ih => exact ih (presents.spend op)

end

theorem CoinStore.exists_presents (store : CoinStore) : ∃ coins, store.Presents coins := by
  cases active : store.overlay with
  | none => exact ⟨store.coins, CoinStore.presents_of_off active⟩
  | some overlay =>
    have shadowed : ∃ coins : CoinTable,
        ∀ op, coinsRamGetPrevout overlay store.coins op = coins.lookup op := by
      clear active
      induction overlay using table_induction with
      | empty => exact ⟨store.coins, fun op => by simp [coinsRamGetPrevout]⟩
      | insert op slot rest _ ih =>
        obtain ⟨coins, shows⟩ := ih
        cases slot with
        | none =>
          refine ⟨coins.erase op, fun other => ?_⟩
          rw [coinsRamGetPrevout, lookup_insert_eq, lookup_erase_eq, ← shows other]
          by_cases same : other = op <;> simp [same, coinsRamGetPrevout]
        | some coin =>
          refine ⟨coins.insert op coin, fun other => ?_⟩
          rw [coinsRamGetPrevout, lookup_insert_eq, lookup_insert_eq, ← shows other]
          by_cases same : other = op <;> simp [same, coinsRamGetPrevout]
    obtain ⟨coins, shows⟩ := shadowed
    refine ⟨coins, fun op => ?_⟩
    rw [coinsKvGetPrevout, active]
    exact shows op

theorem coinsKvSpendMany_addMany_off (off : store.overlay = none) (rows : List (Outpoint × Coin))
    (ops : List Outpoint)
    : (coinsKvSpendMany (coinsKvAddMany store rows) ops).overlay = none := by
  rw [coinsKvAddMany_off off, coinsKvSpendMany_off (by simpa using off)]
  exact off

end Z23.Storage
