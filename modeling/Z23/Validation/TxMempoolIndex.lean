import Mathlib.Algebra.BigOperators.Ring.List
import Z23.Validation.TxMempool

/-!
The index of the memory pool: what relates its entries to the table of the outpoints they spend,
kept by every removal and by an add whose copy is the entry it was given.
-/

namespace Z23.Validation

open Z23.Lib
open Z23.Lib.OpenTable (Slots Contains)
open Z23.Lib.ProbeTable (Placed used)

-- The index

/-- An input of the entry at an index spends the outpoint. -/
def Spends (entries : List MempoolEntry) (op : Outpoint) (ip : Inpoint) : Prop :=
  ∃ entry input, entries[ip.txIndex]? = some entry ∧ entry.tx.vin[ip.n.toNat]? = some input
    ∧ input.prevout = op

/-- What every state of the pool keeps. -/
structure Indexed (pool : TxMempool) : Prop where
  txids : (pool.entries.map fun entry => entry.tx.hash).Nodup
  placed : Placed outpointHash pool.nextTx
  tracks : ∀ op ip, Contains pool.nextTx (op, ip) ↔ Spends pool.entries op ip
  slots : pool.nextTxUsed = used pool.nextTx
  load : pool.nextTxUsed * 10 ≤ pool.nextTx.length * 7
  inputs : pool.nextTxUsed = (pool.entries.map fun entry => entry.tx.vin.length).sum
  total : pool.totalTxSize.toNat = (pool.entries.map fun entry => entry.txSize.toNat).sum
  limit : pool.totalTxSize ≤ maxMempoolBytes
  few : ∀ entry ∈ pool.entries, entry.tx.vin.length ≤ maxTxInputs
  large : ∀ entry ∈ pool.entries, 41 * entry.tx.vin.length ≤ entry.txSize.toNat
  capacity : pool.nextTx.length < 2 ^ 32

theorem outpointHash_lt {cap : Nat} (some_cells : 0 < cap) (op : Outpoint)
    : outpointHash cap op < cap := by
  rw [outpointHash]
  rcases Nat.eq_zero_or_pos (cap % 2 ^ 32) with turn | short
  · rw [turn, Nat.mod_zero]
    have word := (UInt32.ofNat (Bytes.natLE (op.hash.data.take 4))
      ^^^ (op.n * 2654435761)).toNat_lt
    omega
  · exact Nat.lt_of_lt_of_le (Nat.mod_lt _ short) (Nat.mod_le cap _)

theorem Indexed.cells {pool : TxMempool} (indexed : Indexed pool) : 0 < pool.nextTx.length :=
  Nat.zero_lt_of_lt (indexed.placed.inside { hash := Uint256.fill 0, n := 0 })

theorem Indexed.roomy {pool : TxMempool} (indexed : Indexed pool)
    : used pool.nextTx < pool.nextTx.length := by
  have cells := indexed.cells
  have load := indexed.load
  rw [indexed.slots] at load
  omega

theorem indexed_init : Indexed txMempoolInit where
  txids := List.nodup_nil
  placed := Placed.empty (outpointHash_lt (by decide))
  tracks := by
    intro op ip
    simp [txMempoolInit, Contains, Spends]
  slots := (ProbeTable.used_replicate outpointMapCap).symm
  load := Nat.zero_le _
  inputs := rfl
  total := rfl
  limit := by decide
  few := by simp [txMempoolInit]
  large := by simp [txMempoolInit]
  capacity := by
    rw [txMempoolInit, List.length_replicate]
    decide

theorem Indexed.clear {pool : TxMempool} (indexed : Indexed pool)
    : Indexed (txMempoolClear pool) where
  txids := List.nodup_nil
  placed := Placed.empty (outpointHash_lt indexed.cells)
  tracks := by
    intro op ip
    simp [txMempoolClear, Contains, Spends]
  slots := (ProbeTable.used_replicate _).symm
  load := Nat.zero_le _
  inputs := rfl
  total := rfl
  limit := UInt64.le_of_lt (show (0 : UInt64) < maxMempoolBytes by decide)
  few := by simp [txMempoolClear]
  large := by simp [txMempoolClear]
  capacity := by
    rw [txMempoolClear, List.length_replicate]
    exact indexed.capacity

theorem Indexed.find_eq_some_iff {pool : TxMempool} (indexed : Indexed pool) {op : Outpoint}
    {ip : Inpoint}
    : outpointFind pool op = some ip ↔ Spends pool.entries op ip := by
  rw [outpointFind, indexed.placed.find_eq_some_iff, indexed.tracks]

theorem Indexed.spends_unique {pool : TxMempool} (indexed : Indexed pool) {op : Outpoint}
    {ip other : Inpoint} (here : Spends pool.entries op ip) (there : Spends pool.entries op other)
    : ip = other :=
  indexed.placed.value_unique ((indexed.tracks op ip).mpr here)
    ((indexed.tracks op other).mpr there)

theorem toNat_ofNat_input {entry : MempoolEntry} (few : entry.tx.vin.length ≤ maxTxInputs) {i : Nat}
    (inside : i < entry.tx.vin.length)
    : (UInt32.ofNat i).toNat = i := by
  have limit : maxTxInputs < 2 ^ 32 := by decide
  rw [UInt32.toNat_ofNat', Nat.mod_eq_of_lt (by omega)]

theorem mem_prevouts_iff {entries : List MempoolEntry} {idx : Nat} {entry : MempoolEntry}
    (found : entries[idx]? = some entry) (few : entry.tx.vin.length ≤ maxTxInputs) (op : Outpoint)
    : op ∈ entry.tx.vin.map TxIn.prevout ↔ ∃ n, Spends entries op { txIndex := idx, n } := by
  rw [List.mem_map]
  constructor
  · rintro ⟨input, member, rfl⟩
    obtain ⟨i, here⟩ := List.mem_iff_getElem?.mp member
    have inside := (List.getElem?_eq_some_iff.mp here).1
    refine ⟨UInt32.ofNat i, entry, input, found, ?_, rfl⟩
    rw [toNat_ofNat_input few inside]
    exact here
  · rintro ⟨n, other, input, there, here, rfl⟩
    rw [found] at there
    cases there
    exact ⟨input, List.mem_of_getElem? here, rfl⟩

theorem Indexed.nodup_prevouts {pool : TxMempool} (indexed : Indexed pool) {idx : Nat}
    {entry : MempoolEntry} (found : pool.entries[idx]? = some entry)
    : (entry.tx.vin.map TxIn.prevout).Nodup := by
  have few := indexed.few entry (List.mem_of_getElem? found)
  have spends : ∀ i input, entry.tx.vin[i]? = some input →
      Spends pool.entries input.prevout { txIndex := idx, n := UInt32.ofNat i } := by
    intro i input here
    have inside := (List.getElem?_eq_some_iff.mp here).1
    refine ⟨entry, input, found, ?_, rfl⟩
    rw [toNat_ofNat_input few inside]
    exact here
  rw [List.nodup_iff_pairwise_ne, List.pairwise_map, List.pairwise_iff_getElem]
  intro i j iInside jInside before same
  have first := spends i _ (List.getElem?_eq_getElem iInside)
  have second := spends j _ (List.getElem?_eq_getElem jInside)
  rw [same] at first
  have sameInput := congrArg (fun ip : Inpoint => ip.n.toNat) (indexed.spends_unique first second)
  dsimp only at sameInput
  rw [toNat_ofNat_input few iInside, toNat_ofNat_input few jInside] at sameInput
  omega

-- Removal of an entry

theorem foldl_untrackInput {pool : TxMempool} {ops : List Outpoint}
    (placed : Placed outpointHash pool.nextTx) (roomy : used pool.nextTx < pool.nextTx.length)
    (slots : pool.nextTxUsed = used pool.nextTx) (once : ops.Nodup)
    (present : ∀ op ∈ ops, ∃ ip, Contains pool.nextTx (op, ip))
    : ∃ nextTx,
        ops.foldl untrackInput pool
            = { pool with nextTx, nextTxUsed := pool.nextTxUsed - ops.length }
          ∧ Placed outpointHash nextTx ∧ nextTx.length = pool.nextTx.length
          ∧ used nextTx + ops.length = used pool.nextTx
          ∧ ∀ entry, Contains nextTx entry ↔ Contains pool.nextTx entry ∧ entry.1 ∉ ops := by
  induction ops generalizing pool with
  | nil => exact ⟨pool.nextTx, rfl, placed, rfl, rfl, by simp⟩
  | cons op rest ih =>
    rw [List.nodup_cons] at once
    have removed := placed.remove roomy op
    have told := removed.told.mpr (present op List.mem_cons_self)
    generalize outcome : ProbeTable.remove outpointHash pool.nextTx op = result at removed told
    obtain ⟨next, flag⟩ := result
    dsimp only at removed told
    subst told
    have count := removed.count
    have capacity := removed.capacity
    rw [Bool.toNat_true] at count
    have turn : untrackInput pool op
        = { pool with nextTx := next, nextTxUsed := pool.nextTxUsed - 1 } := by
      rw [untrackInput, outcome]
      dsimp only
      rw [if_pos (by simp only [Bool.true_and, decide_eq_true_eq]; omega)]
    have presentRest : ∀ other ∈ rest, ∃ ip, Contains next (other, ip) := by
      intro other member
      obtain ⟨ip, held⟩ := present other (List.mem_cons_of_mem _ member)
      refine ⟨ip, (removed.contains _).mpr ⟨held, ?_⟩⟩
      rintro rfl
      exact once.1 member
    obtain ⟨nextTx, ran, nextPlaced, nextCapacity, nextCount, contains⟩ :=
      @ih { pool with nextTx := next, nextTxUsed := pool.nextTxUsed - 1 } removed.placed
        (by dsimp only; omega) (by dsimp only; omega) once.2 presentRest
    refine ⟨nextTx, ?_, nextPlaced, nextCapacity.trans capacity, ?_, fun entry => ?_⟩
    · rw [List.foldl_cons, turn, ran, List.length_cons]
      dsimp only
      rw [Nat.sub_sub, Nat.add_comm 1]
    · rw [List.length_cons]
      dsimp only at nextCount
      omega
    · rw [contains, removed.contains, List.mem_cons, not_or, and_assoc]

theorem foldl_redirectInput {slots : Slots Outpoint Inpoint} (placed : Placed outpointHash slots)
    (idx : Nat) (ops : List Outpoint)
    : Placed outpointHash (ops.foldl (redirectInput idx) slots)
        ∧ (ops.foldl (redirectInput idx) slots).length = slots.length
        ∧ used (ops.foldl (redirectInput idx) slots) = used slots
        ∧ ∀ op ip, Contains (ops.foldl (redirectInput idx) slots) (op, ip)
            ↔ (op ∉ ops ∧ Contains slots (op, ip))
              ∨ (op ∈ ops ∧ ∃ old, Contains slots (op, old) ∧ ip = { old with txIndex := idx }) := by
  induction ops generalizing slots with
  | nil => exact ⟨placed, rfl, rfl, by simp⟩
  | cons first rest ih =>
    obtain ⟨firstPlaced, firstLength, firstCount, firstContains⟩ :=
      placed.modify first fun value => { value with txIndex := idx }
    obtain ⟨restPlaced, restLength, restCount, restContains⟩ := ih firstPlaced
    refine ⟨restPlaced, restLength.trans firstLength, restCount.trans firstCount, ?_⟩
    intro op ip
    rw [List.foldl_cons]
    refine (restContains op ip).trans ?_
    simp only [firstContains, List.mem_cons, Prod.mk.injEq]
    by_cases same : op = first
    · subst same
      by_cases again : op ∈ rest
      · simp [again]
      · simp [again]
    · simp [same]

theorem sum_swapRemove {α : Type} {items : List α} {idx : Nat} {item : α}
    (found : items[idx]? = some item) (size : α → Nat)
    : (items.map size).sum = size item + ((swapRemove items idx).map size).sum := by
  rw [← ((swapRemove_perm found).map size).sum_eq, List.map_cons, List.sum_cons]

section Removal

variable {pool : TxMempool} {idx : Nat} {entry : MempoolEntry} {untracked : Slots Outpoint Inpoint}
  (indexed : Indexed pool) (found : pool.entries[idx]? = some entry)
include indexed found

theorem Indexed.untracked_iff
    (contains : ∀ item, Contains untracked item
      ↔ Contains pool.nextTx item ∧ item.1 ∉ entry.tx.vin.map TxIn.prevout)
    (op : Outpoint) (ip : Inpoint)
    : Contains untracked (op, ip) ↔ Spends pool.entries op ip ∧ ip.txIndex ≠ idx := by
  have few := indexed.few entry (List.mem_of_getElem? found)
  rw [contains, indexed.tracks, mem_prevouts_iff found few]
  refine and_congr_right fun spends => ?_
  constructor
  · intro apart same
    exact apart ⟨ip.n, same ▸ spends⟩
  · rintro apart ⟨n, there⟩
    exact apart (congrArg Inpoint.txIndex (indexed.spends_unique spends there))

omit indexed in
theorem spends_last (last : (swapRemove pool.entries idx)[idx]? = none) (op : Outpoint)
    (ip : Inpoint)
    : Spends (swapRemove pool.entries idx) op ip
        ↔ Spends pool.entries op ip ∧ ip.txIndex ≠ idx := by
  have inside := (List.getElem?_eq_some_iff.mp found).1
  have atEnd : idx + 1 = pool.entries.length := by
    rw [List.getElem?_eq_none_iff, length_swapRemove] at last
    omega
  have kept : ∀ item, (swapRemove pool.entries idx)[ip.txIndex]? = some item
      ↔ pool.entries[ip.txIndex]? = some item ∧ ip.txIndex ≠ idx := by
    intro item
    rw [getElem?_swapRemove]
    constructor
    · intro here
      split at here
      · rw [if_neg (by omega)] at here
        exact ⟨here, by omega⟩
      · cases here
    · rintro ⟨here, away⟩
      have below := (List.getElem?_eq_some_iff.mp here).1
      rw [if_pos (by omega), if_neg away]
      exact here
  simp only [Spends, kept]
  constructor
  · rintro ⟨item, input, ⟨here, away⟩, rest⟩
    exact ⟨⟨item, input, here, rest⟩, away⟩
  · rintro ⟨⟨item, input, here, rest⟩, away⟩
    exact ⟨item, input, ⟨here, away⟩, rest⟩

omit found in
theorem Indexed.spends_moved {moved : MempoolEntry}
    (takes : (swapRemove pool.entries idx)[idx]? = some moved) (op : Outpoint) (ip : Inpoint)
    : Spends (swapRemove pool.entries idx) op ip
        ↔ (op ∉ moved.tx.vin.map TxIn.prevout
              ∧ Spends pool.entries op ip ∧ ip.txIndex ≠ idx)
          ∨ (op ∈ moved.tx.vin.map TxIn.prevout
              ∧ ∃ old, (Spends pool.entries op old ∧ old.txIndex ≠ idx)
                ∧ ip = { old with txIndex := idx }) := by
  obtain ⟨beforeEnd, movedAt⟩ : idx + 1 < pool.entries.length
      ∧ pool.entries[pool.entries.length - 1]? = some moved := by
    rw [getElem?_swapRemove] at takes
    split at takes
    · rename_i beforeEnd
      rw [if_pos rfl] at takes
      exact ⟨beforeEnd, takes⟩
    · cases takes
  have few := indexed.few moved (List.mem_of_getElem? movedAt)
  rw [mem_prevouts_iff movedAt few]
  constructor
  · rintro ⟨item, input, here, rest⟩
    rw [getElem?_swapRemove] at here
    split at here
    · rename_i below
      by_cases same : ip.txIndex = idx
      · rw [if_pos same, movedAt, Option.some.injEq] at here
        subst here
        have spends : Spends pool.entries op { txIndex := pool.entries.length - 1, n := ip.n } :=
          ⟨moved, input, movedAt, rest⟩
        refine .inr ⟨⟨ip.n, spends⟩, _, ⟨spends, ?_⟩, ?_⟩
        · dsimp only
          omega
        · rw [← same]
      · rw [if_neg same] at here
        have spends : Spends pool.entries op ip := ⟨item, input, here, rest⟩
        refine .inl ⟨?_, spends, same⟩
        rintro ⟨n, there⟩
        have sameIndex := congrArg Inpoint.txIndex (indexed.spends_unique spends there)
        dsimp only at sameIndex
        omega
    · cases here
  · rintro (⟨apart, ⟨item, input, here, rest⟩, away⟩ | ⟨⟨n, there⟩, old, ⟨spends, _⟩, rfl⟩)
    · have notLast : ip.txIndex ≠ pool.entries.length - 1 := by
        intro same
        exact apart ⟨ip.n, item, input, same ▸ here, rest⟩
      have inside := (List.getElem?_eq_some_iff.mp here).1
      refine ⟨item, input, ?_, rest⟩
      rw [getElem?_swapRemove, if_pos (by omega), if_neg away]
      exact here
    · obtain rfl := indexed.spends_unique there spends
      obtain ⟨item, input, here, rest⟩ := there
      dsimp only at here rest
      rw [movedAt, Option.some.injEq] at here
      subst here
      exact ⟨moved, input, takes, rest⟩

theorem Indexed.tracks_removed (placed : Placed outpointHash untracked)
    (tracked : ∀ op ip, Contains untracked (op, ip)
      ↔ Spends pool.entries op ip ∧ ip.txIndex ≠ idx)
    {corrected : Slots Outpoint Inpoint}
    (run : redirectMoved (swapRemove pool.entries idx) idx untracked = corrected)
    : Placed outpointHash corrected ∧ corrected.length = untracked.length
        ∧ used corrected = used untracked
        ∧ ∀ op ip, Contains corrected (op, ip)
            ↔ Spends (swapRemove pool.entries idx) op ip := by
  subst run
  rw [redirectMoved]
  cases takes : (swapRemove pool.entries idx)[idx]? with
  | none =>
    refine ⟨placed, rfl, rfl, fun op ip => ?_⟩
    rw [spends_last found takes]
    exact tracked op ip
  | some moved =>
    obtain ⟨movedPlaced, length, count, contains⟩ :=
      foldl_redirectInput placed idx (moved.tx.vin.map TxIn.prevout)
    refine ⟨movedPlaced, length, count, fun op ip => ?_⟩
    rw [indexed.spends_moved takes]
    simp only [← tracked]
    exact contains op ip

theorem Indexed.removeEntryAt : Indexed (removeEntryAt pool idx) := by
  have few := indexed.few entry (List.mem_of_getElem? found)
  have perm := swapRemove_perm found
  have present : ∀ op ∈ entry.tx.vin.map TxIn.prevout, ∃ ip, Contains pool.nextTx (op, ip) := by
    intro op member
    obtain ⟨n, spends⟩ := (mem_prevouts_iff found few op).mp member
    exact ⟨_, (indexed.tracks op _).mpr spends⟩
  obtain ⟨nextTx, ran, placed, capacity, count, contains⟩ := foldl_untrackInput indexed.placed
    indexed.roomy indexed.slots (indexed.nodup_prevouts found) present
  obtain ⟨finalPlaced, finalLength, finalCount, tracks⟩ :=
    indexed.tracks_removed found placed (indexed.untracked_iff found contains) rfl
  rw [List.length_map] at ran count
  have slots := indexed.slots
  have inputs := indexed.inputs
  have total := indexed.total
  rw [sum_swapRemove found] at inputs total
  have fits : entry.txSize ≤ pool.totalTxSize := by
    rw [UInt64.le_iff_toNat_le, total]
    exact Nat.le_add_right _ _
  rw [Validation.removeEntryAt, found]
  dsimp only
  rw [ran]
  exact
    { txids := ((perm.map _).nodup_iff.mpr indexed.txids).of_cons
      placed := finalPlaced
      tracks := tracks
      slots := by
        dsimp only
        omega
      load := by
        have load := indexed.load
        dsimp only
        omega
      inputs := by
        dsimp only
        omega
      total := by
        dsimp only
        rw [UInt64.toNat_sub_of_le _ _ fits]
        omega
      limit := by
        have limit := indexed.limit
        rw [UInt64.le_iff_toNat_le] at limit ⊢
        rw [UInt64.toNat_sub_of_le _ _ fits]
        omega
      few := fun other member => indexed.few other (perm.subset (List.mem_cons_of_mem _ member))
      large := fun other member =>
        indexed.large other (perm.subset (List.mem_cons_of_mem _ member))
      capacity := by
        have bound := indexed.capacity
        dsimp only
        omega }

end Removal

-- Addition of an entry

theorem foldl_trackInput {pool : TxMempool} {keys : List (Outpoint × Inpoint)}
    (placed : Placed outpointHash pool.nextTx)
    (roomy : used pool.nextTx + keys.length ≤ pool.nextTx.length) (once : (keys.map Prod.fst).Nodup)
    (absent : ∀ key ∈ keys, ∀ ip, ¬ Contains pool.nextTx (key.1, ip))
    : ∃ nextTx,
        keys.foldl trackInput pool
            = { pool with nextTx, nextTxUsed := pool.nextTxUsed + keys.length }
          ∧ ProbeTable.Filled outpointHash pool.nextTx nextTx keys := by
  induction keys generalizing pool with
  | nil => exact ⟨pool.nextTx, rfl, ProbeTable.Filled.nil placed⟩
  | cons key rest ih =>
    obtain ⟨op, ip⟩ := key
    rw [List.length_cons] at roomy
    rw [List.map_cons, List.nodup_cons] at once
    obtain ⟨next, ran, inserted⟩ := placed.insert_new (by omega)
      (absent (op, ip) List.mem_cons_self) ip
    have turn : trackInput pool (op, ip)
        = { pool with nextTx := next, nextTxUsed := pool.nextTxUsed + 1 } := by
      rw [trackInput, ran]
      rfl
    have capacity := inserted.capacity
    have count := inserted.count
    obtain ⟨nextTx, filled, result⟩ :=
      @ih { pool with nextTx := next, nextTxUsed := pool.nextTxUsed + 1 } inserted.placed
        (by dsimp only; omega) once.2
        (inserted.absent once.1 (List.forall_mem_cons.mp absent).2)
    refine ⟨nextTx, ?_, inserted.filled result⟩
    rw [List.foldl_cons, turn, filled, List.length_cons]
    dsimp only
    rw [Nat.add_assoc, Nat.add_comm 1]

theorem mem_inputKeys_iff {entry : MempoolEntry} (few : entry.tx.vin.length ≤ maxTxInputs)
    (idx : Nat) (op : Outpoint) (ip : Inpoint)
    : (op, ip) ∈ entry.tx.vin.zipIdx.map (inputKey idx)
        ↔ ip.txIndex = idx
          ∧ ∃ input, entry.tx.vin[ip.n.toNat]? = some input ∧ input.prevout = op := by
  rw [List.mem_map]
  constructor
  · rintro ⟨⟨input, i⟩, member, same⟩
    rw [List.mem_zipIdx_iff_getElem?] at member
    have inside := (List.getElem?_eq_some_iff.mp member).1
    simp only [inputKey, Prod.mk.injEq] at same
    obtain ⟨rfl, rfl⟩ := same
    refine ⟨rfl, input, ?_, rfl⟩
    rw [toNat_ofNat_input few inside]
    exact member
  · rintro ⟨rfl, input, here, rfl⟩
    refine ⟨(input, ip.n.toNat), List.mem_zipIdx_iff_getElem?.mpr here, ?_⟩
    simp [inputKey]

theorem spends_append (entries : List MempoolEntry) (entry : MempoolEntry) (op : Outpoint)
    (ip : Inpoint)
    : Spends (entries ++ [entry]) op ip
        ↔ (ip.txIndex = entries.length
              ∧ ∃ input, entry.tx.vin[ip.n.toNat]? = some input ∧ input.prevout = op)
          ∨ Spends entries op ip := by
  constructor
  · rintro ⟨item, input, here, rest⟩
    rw [List.getElem?_append] at here
    split at here
    · exact .inr ⟨item, input, here, rest⟩
    · rename_i outside
      have inside := (List.getElem?_eq_some_iff.mp here).1
      rw [List.length_singleton] at inside
      have atEnd : ip.txIndex = entries.length := by omega
      rw [atEnd, Nat.sub_self, List.getElem?_cons_zero, Option.some.injEq] at here
      subst here
      exact .inl ⟨atEnd, input, rest⟩
  · rintro (⟨atEnd, input, rest⟩ | ⟨item, input, here, rest⟩)
    · refine ⟨entry, input, ?_, rest⟩
      rw [atEnd, List.getElem?_concat_length]
    · refine ⟨item, input, ?_, rest⟩
      rw [List.getElem?_append_left (List.getElem?_eq_some_iff.mp here).1]
      exact here

/-- What an entry must be for a pool to take it. -/
structure Acceptable (pool : TxMempool) (entry : MempoolEntry) : Prop where
  fresh : ∀ other ∈ pool.entries, other.tx.hash ≠ entry.tx.hash
  distinct : (entry.tx.vin.map TxIn.prevout).Nodup
  unspent : ∀ input ∈ entry.tx.vin, ∀ ip, ¬ Spends pool.entries input.prevout ip
  few : entry.tx.vin.length ≤ maxTxInputs
  large : 41 * entry.tx.vin.length ≤ entry.txSize.toNat
  limit : pool.totalTxSize.toNat + entry.txSize.toNat ≤ maxMempoolBytes.toNat
  room : (pool.nextTxUsed + entry.tx.vin.length) * 10 ≤ pool.nextTx.length * 7

section

variable {pool : TxMempool} (indexed : Indexed pool)
include indexed

theorem Indexed.appendEntry {entry : MempoolEntry} (acceptable : Acceptable pool entry)
    {allocs : InitAllocs} (exact_ : mempoolEntryInit allocs entry.tx entry.branchId = entry)
    : Indexed (appendEntry pool entry allocs) := by
  have keys : (entry.tx.vin.zipIdx.map (inputKey pool.entries.length)).map Prod.fst
      = entry.tx.vin.map TxIn.prevout := by
    rw [List.map_map]
    have first : Prod.fst ∘ inputKey pool.entries.length = TxIn.prevout ∘ Prod.fst := rfl
    rw [first, ← List.map_map, List.zipIdx_map_fst]
  have count : (entry.tx.vin.zipIdx.map (inputKey pool.entries.length)).length
      = entry.tx.vin.length := by
    rw [List.length_map, List.length_zipIdx]
  have absent : ∀ key ∈ entry.tx.vin.zipIdx.map (inputKey pool.entries.length), ∀ ip,
      ¬ Contains pool.nextTx (key.1, ip) := by
    intro key member ip
    have there : key.1 ∈ entry.tx.vin.map TxIn.prevout := keys ▸ List.mem_map_of_mem member
    obtain ⟨input, inside, same⟩ := List.mem_map.mp there
    rw [indexed.tracks, ← same]
    exact acceptable.unspent input inside ip
  have slots := indexed.slots
  have room := acceptable.room
  have limit := acceptable.limit
  have bytes : maxMempoolBytes.toNat < 2 ^ 64 := maxMempoolBytes.toNat_lt
  have sum : (pool.totalTxSize + entry.txSize).toNat
      = pool.totalTxSize.toNat + entry.txSize.toNat := by
    rw [UInt64.toNat_add, Nat.mod_eq_of_lt (by omega)]
  have started : used pool.nextTx + (entry.tx.vin.zipIdx.map
      (inputKey pool.entries.length)).length ≤ pool.nextTx.length := by
    rw [count]
    omega
  obtain ⟨nextTx, ran, filled⟩ := @foldl_trackInput
    { pool with entries := pool.entries ++ [entry], addedTotal := pool.addedTotal + 1 } _
    indexed.placed started (keys ▸ acceptable.distinct) absent
  have filledCount := filled.count
  have filledLength := filled.capacity
  rw [count] at ran filledCount
  rw [Validation.appendEntry, exact_, ran]
  dsimp only at filledCount filledLength ⊢
  have members : ∀ other ∈ pool.entries ++ [entry], other ∈ pool.entries ∨ other = entry := by
    intro other member
    rwa [List.mem_append, List.mem_singleton] at member
  exact
    { txids := by
        rw [List.map_append, List.map_singleton, ← List.concat_eq_append, List.nodup_concat]
        refine ⟨?_, indexed.txids⟩
        rintro member
        obtain ⟨other, inside, same⟩ := List.mem_map.mp member
        exact acceptable.fresh other inside same
      placed := filled.placed
      tracks := fun op ip => by
        rw [filled.contains, mem_inputKeys_iff acceptable.few, spends_append, indexed.tracks]
      slots := by
        dsimp only
        omega
      load := by
        dsimp only
        omega
      inputs := by
        have inputs := indexed.inputs
        rw [List.map_append, List.sum_append, List.map_singleton, List.sum_singleton]
        dsimp only
        omega
      total := by
        have total := indexed.total
        rw [List.map_append, List.sum_append, List.map_singleton, List.sum_singleton]
        dsimp only
        omega
      limit := by
        rw [UInt64.le_iff_toNat_le]
        dsimp only
        omega
      few := fun other member => by
        rcases members other member with before | rfl
        · exact indexed.few other before
        · exact acceptable.few
      large := fun other member => by
        rcases members other member with before | rfl
        · exact indexed.large other before
        · exact acceptable.large
      capacity := by
        have capacity := indexed.capacity
        dsimp only
        omega }

theorem Indexed.inputs_le : 41 * pool.nextTxUsed ≤ maxMempoolBytes.toNat := by
  have limit := UInt64.le_iff_toNat_le.mp indexed.limit
  rw [indexed.total] at limit
  rw [indexed.inputs, ← List.sum_map_mul_left]
  exact Nat.le_trans (List.sum_le_sum indexed.large) limit

theorem Indexed.reserve {after : TxMempool} {more : Nat} (few : more ≤ maxTxInputs)
    {allocated : Bool}
    (ran : mempoolReserveOutpointMap pool (pool.nextTxUsed + more) allocated = some after)
    : Indexed after ∧ (∃ nextTx, after = { pool with nextTx })
        ∧ (pool.nextTxUsed + more) * 10 ≤ after.nextTx.length * 7 := by
  have inputs := indexed.inputs_le
  have limit : maxMempoolBytes.toNat = 314572800 := by decide
  have fewer : maxTxInputs = 65536 := rfl
  have cells := indexed.cells
  rw [mempoolReserveOutpointMap] at ran
  split at ran
  · rename_i crowded
    generalize room : (if (pool.nextTxUsed + more) * 4 < outpointMapCap then outpointMapCap
      else (pool.nextTxUsed + more) * 4) = target at ran
    have targetLow : (pool.nextTxUsed + more) * 4 ≤ target := by
      split at room <;> omega
    have targetHigh : target < 2 ^ 31 := by
      have initial : outpointMapCap = 4096 := rfl
      split at room <;> omega
    dsimp only at ran
    rw [if_neg (by omega), outpointMapGrow] at ran
    split at ran
    · obtain ⟨newmap, grown, placed, length, count, contains⟩ :=
        indexed.placed.grow (outpointHash_lt (show 0 < target by omega))
          (show used pool.nextTx ≤ target by rw [← indexed.slots]; omega)
      rw [grown, Option.some.injEq] at ran
      subst ran
      refine ⟨?_, ⟨newmap, rfl⟩, ?_⟩
      · exact
          { indexed with
            placed := placed
            tracks := fun op ip => (contains (op, ip)).trans (indexed.tracks op ip)
            slots := indexed.slots.trans count.symm
            load := by
              dsimp only
              omega
            capacity := by
              dsimp only
              omega }
      · dsimp only
        omega
    · cases ran
  · rename_i spacious
    cases ran
    exact ⟨indexed, ⟨pool.nextTx, rfl⟩, Nat.le_of_not_lt spacious⟩

theorem Indexed.growEntries {after : TxMempool} {allocated : Bool}
    (ran : mempoolGrowEntriesIfFull pool allocated = some after)
    : Indexed after ∧ after.entries = pool.entries ∧ after.totalTxSize = pool.totalTxSize
        ∧ after.nextTxUsed = pool.nextTxUsed ∧ after.nextTx = pool.nextTx := by
  rw [mempoolGrowEntriesIfFull] at ran
  split at ran
  · cases ran
    exact ⟨indexed, rfl, rfl, rfl, rfl⟩
  · split at ran
    · cases ran
      exact ⟨{ indexed with }, rfl, rfl, rfl, rfl⟩
    · cases ran

end

theorem findEntryByHash_eq_none {pool : TxMempool} {hash : Uint256}
    (absent : findEntryByHash pool hash = none)
    : ∀ entry ∈ pool.entries, entry.tx.hash ≠ hash := by
  rw [findEntryByHash, List.findIdx?_eq_none_iff] at absent
  intro entry member same
  have differs := absent entry member
  simp [same] at differs

/-- An add that is refused gives the pool back, at most with a larger table. -/
structure Refused (pool after : TxMempool) : Prop where
  entries : after.entries = pool.entries
  finds : ∀ op, outpointFind after op = outpointFind pool op
  indexed : Indexed after

theorem Indexed.refused {pool after : TxMempool} (indexed : Indexed pool)
    (afterIndexed : Indexed after) (entries : after.entries = pool.entries)
    : Refused pool after where
  entries := entries
  indexed := afterIndexed
  finds := fun op => Option.ext fun ip => by
    rw [afterIndexed.find_eq_some_iff, indexed.find_eq_some_iff, entries]

section Addition

variable {pool after : TxMempool} (indexed : Indexed pool) {hash : Uint256} {entry : MempoolEntry}
  {allocs : AddAllocs} {added : Bool} (few : entry.tx.vin.length ≤ maxTxInputs)
  (ran : txMempoolAddUnchecked pool hash entry allocs = (added, after))
include indexed few ran

theorem Indexed.addUnchecked_refused (refused : added = false) : Refused pool after := by
  subst refused
  have unchanged : Refused pool pool := indexed.refused indexed rfl
  rw [txMempoolAddUnchecked] at ran
  split at ran
  · cases ran
    exact unchanged
  split at ran
  · cases ran
    exact unchanged
  split at ran
  · cases ran
    exact unchanged
  split at ran
  · cases ran
    exact unchanged
  · rename_i grown reserved
    obtain ⟨grownIndexed, ⟨nextTx, same⟩, _⟩ := indexed.reserve few reserved
    split at ran
    · cases ran
      exact indexed.refused grownIndexed (by rw [same])
    · cases ran

theorem Indexed.addUnchecked_added (accepted : added = true) (own : hash = entry.tx.hash)
    (distinct : (entry.tx.vin.map TxIn.prevout).Nodup)
    (large : 41 * entry.tx.vin.length ≤ entry.txSize.toNat) (short : entry.txSize.toNat < 2 ^ 63)
    (exact_ : mempoolEntryInit allocs.init entry.tx entry.branchId = entry)
    : Indexed after := by
  subst accepted own
  rw [txMempoolAddUnchecked] at ran
  split at ran
  · cases ran
  rename_i fresh
  split at ran
  · cases ran
  rename_i limited
  split at ran
  · cases ran
  rename_i unspent
  split at ran
  · cases ran
  rename_i grown reserved
  obtain ⟨grownIndexed, ⟨nextTx, same⟩, room⟩ := indexed.reserve few reserved
  split at ran
  · cases ran
  rename_i roomy enlarged
  obtain ⟨roomyIndexed, entries, total, used, table⟩ := grownIndexed.growEntries enlarged
  cases ran
  refine roomyIndexed.appendEntry ?_ exact_
  rw [same] at entries total used
  dsimp only at entries total used
  refine { fresh := ?_, distinct, unspent := ?_, few, large, limit := ?_, room := ?_ }
  · rw [entries]
    exact findEntryByHash_eq_none (by simpa using fresh)
  · intro input member ip spends
    rw [entries, ← indexed.find_eq_some_iff] at spends
    simp only [List.any_eq_true, not_exists, not_and] at unspent
    exact unspent input member (by rw [spends, Option.isSome_some])
  · have limit := UInt64.le_iff_toNat_le.mp indexed.limit
    have sum := UInt64.le_iff_toNat_le.mp (UInt64.not_lt.mp limited)
    have bytes : maxMempoolBytes.toNat < 2 ^ 63 := by decide
    rw [UInt64.toNat_add, Nat.mod_eq_of_lt (by omega)] at sum
    rw [total]
    exact sum
  · rw [used, table]
    exact room

end Addition

end Z23.Validation
