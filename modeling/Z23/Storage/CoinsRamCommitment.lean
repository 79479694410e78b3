import Z23.Storage.CoinsRamRefines

/-!
The commitment of the overlay: the scan of the table without the shadowed rows, joined with the
LIVE slots and sorted, is the sorted scan of the effective set.
-/

namespace Z23.Storage.CoinsRam

open Z23.Lib.BitGroups
open Z23.Lib.FiniteMap
open Z23.Lib.LinearProbing
open Z23.Lib.OpenTable

-- Order

/-- An output number that the column of the table holds as it is. -/
def Outpoint.Indexable (op : Outpoint) : Prop := op.n.toNat < 2 ^ 31

/-- Every outpoint of the set is indexable. -/
def AllIndexable (coins : CoinTable) : Prop := ∀ op ∈ coins, Outpoint.Indexable op

theorem toInt32_toInt {n : UInt32} (small : n.toNat < 2 ^ 31) : n.toInt32.toInt = n.toNat := by
  have bits : n.toInt32.toInt = n.toBitVec.toInt := rfl
  rw [bits, BitVec.toInt_eq_toNat_of_lt]
  · rfl
  · have same : n.toBitVec.toNat = n.toNat := rfl
    omega

theorem sqlLe_of_commLe {x y : Outpoint} (xSmall : Outpoint.Indexable x)
    (ySmall : Outpoint.Indexable y) (le : commLe x y = true)
    : sqlLe x y := by
  rw [commLe, outpointLe_iff] at le
  rw [sqlLe, outpointLe_iff, toInt32_toInt xSmall, toInt32_toInt ySmall]
  exact le

-- The ordered scan

theorem selectCoins_keys (coins : CoinTable)
    : (selectCoins coins).map Prod.fst = coins.keys.sort sqlLe := by
  have all : ∀ ops : List Outpoint, (∀ op ∈ ops, op ∈ coins) →
      (ops.filterMap fun op => (coins.lookup op).map (op, ·)).map Prod.fst = ops := by
    intro ops present
    induction ops with
    | nil => rfl
    | cons op rest ih =>
      obtain ⟨coin, found⟩ := Finmap.mem_iff.mp (present op List.mem_cons_self)
      rw [List.filterMap_cons_some (b := (op, coin)) (by rw [found, Option.map_some]),
        List.map_cons, ih (List.forall_mem_cons.mp present).2]
  refine all _ fun op member => ?_
  rwa [Finset.mem_sort, Finmap.mem_keys] at member

theorem mem_selectCoins {coins : CoinTable} {row : Outpoint × Coin}
    : row ∈ selectCoins coins ↔ coins.lookup row.1 = some row.2 := by
  obtain ⟨op, coin⟩ := row
  simp only [selectCoins, List.mem_filterMap, Finset.mem_sort, Finmap.mem_keys,
    Option.map_eq_some_iff, Prod.mk.injEq]
  constructor
  · rintro ⟨other, _, value, found, rfl, rfl⟩
    exact found
  · intro found
    exact ⟨op, Finmap.mem_iff.mpr ⟨coin, found⟩, coin, found, rfl, rfl⟩

theorem selectCoins_pairwise (coins : CoinTable)
    : (selectCoins coins).Pairwise fun x y => sqlLe x.1 y.1 := by
  have sorted := Finset.pairwise_sort coins.keys sqlLe
  rwa [← selectCoins_keys, List.pairwise_map] at sorted

theorem selectCoins_nodup (coins : CoinTable) : ((selectCoins coins).map Prod.fst).Nodup := by
  rw [selectCoins_keys]
  exact Finset.sort_nodup _ _

theorem eq_selectCoins {coins : CoinTable} {rows : List (Outpoint × Coin)}
    (distinct : (rows.map Prod.fst).Nodup)
    (same : ∀ row, row ∈ rows ↔ coins.lookup row.1 = some row.2)
    (sorted : rows.Pairwise fun x y => sqlLe x.1 y.1)
    : rows = selectCoins coins := by
  have perm : rows.Perm (selectCoins coins) := by
    refine (List.perm_ext_iff_of_nodup distinct.of_map (selectCoins_nodup coins).of_map).mpr ?_
    intro row
    rw [same, mem_selectCoins]
  refine perm.eq_of_pairwise ?_ sorted (selectCoins_pairwise coins)
  intro x y xMember yMember first second
  have keys : x.1 = y.1 := antisymm_of sqlLe first second
  rw [same] at xMember
  rw [mem_selectCoins, ← keys, xMember] at yMember
  exact Prod.ext keys (Option.some.inj yMember)

-- The scan of the overlay

variable {sys : System} {overlay : Table Outpoint (Option Coin)} {effective : CoinTable}

/-- The rows that no slot shadows. -/
def unshadowed (overlay : Table Outpoint (Option Coin)) (rows : List (Outpoint × Coin))
    : List (Outpoint × Coin) :=
  rows.filter fun row => (overlay.lookup row.1).isNone

theorem foldlM_effTakeDurableRow (holds : sys.ram.Holds overlay) {cap : Nat}
    (rows recs : List (Outpoint × Coin)) (room : recs.length + rows.length ≤ cap)
    : rows.foldlM (effTakeDurableRow sys.ram cap) recs
        = some (recs ++ unshadowed overlay rows) := by
  induction rows generalizing recs with
  | nil =>
    rw [unshadowed, List.filter_nil, List.append_nil]
    rfl
  | cons row rest ih =>
    rw [List.length_cons] at room
    rw [List.foldlM_cons, effTakeDurableRow]
    cases outcome : sys.ram.probe row.1 with
    | exhausted => exact absurd outcome (holds.probe_ne_exhausted row.1)
    | free pos =>
      have missed := holds.lookup_of_free outcome
      dsimp only
      rw [if_neg (by omega), Option.bind_eq_bind, Option.bind_some, ih _ (by simp; omega)]
      simp [unshadowed, missed]
    | found pos =>
      obtain ⟨slot, cell⟩ := probe_found outcome
      have found := (holds.shows row.1 slot).mpr ⟨pos, cell⟩
      dsimp only
      rw [Option.bind_eq_bind, Option.bind_some, ih _ (by omega)]
      simp [unshadowed, found]

theorem mem_liveRecords (holds : sys.ram.Holds overlay) {row : Outpoint × Coin}
    : row ∈ liveRecords sys.ram ↔ overlay.lookup row.1 = some (some row.2) := by
  obtain ⟨op, coin⟩ := row
  rw [holds.shows, ← mem_entries, liveRecords, List.mem_filterMap]
  constructor
  · rintro ⟨⟨key, slot⟩, member, mapped⟩
    obtain ⟨value, rfl, same⟩ := Option.map_eq_some_iff.mp mapped
    cases same
    exact member
  · intro member
    exact ⟨(op, some coin), member, rfl⟩

theorem liveRecords_nodup (holds : sys.ram.Holds overlay)
    : ((liveRecords sys.ram).map Prod.fst).Nodup := by
  have keys : (liveRecords sys.ram).map Prod.fst
      = ((entries sys.ram.slots).filter fun entry => entry.2.isSome).map Prod.fst := by
    rw [liveRecords]
    induction entries sys.ram.slots with
    | nil => rfl
    | cons entry rest ih =>
      obtain ⟨key, slot⟩ := entry
      cases slot <;> simp [ih]
  rw [keys]
  exact holds.indexed.nodup_entries.sublist (List.filter_sublist.map _)

section

variable (refines : sys.Refines overlay effective)
include refines

theorem System.Refines.mem_records (row : Outpoint × Coin)
    : row ∈ unshadowed overlay (selectCoins sys.db.coins) ++ liveRecords sys.ram
        ↔ effective.lookup row.1 = some row.2 := by
  rw [List.mem_append, mem_liveRecords refines.holds, unshadowed, List.mem_filter,
    mem_selectCoins, refines.lookup]
  cases overlay.lookup row.1 <;> simp

theorem System.Refines.records_nodup
    : ((unshadowed overlay (selectCoins sys.db.coins) ++ liveRecords sys.ram).map
        Prod.fst).Nodup := by
  rw [List.map_append, List.nodup_append]
  refine ⟨(selectCoins_nodup _).sublist (List.filter_sublist.map _),
    liveRecords_nodup refines.holds, ?_⟩
  intro op durable other live same
  obtain ⟨row, rowMember, rfl⟩ := List.mem_map.mp durable
  obtain ⟨record, recordMember, rfl⟩ := List.mem_map.mp live
  have missed := (List.mem_filter.mp rowMember).2
  rw [same, (mem_liveRecords refines.holds).mp recordMember] at missed
  cases missed

theorem System.Refines.buildEffectiveSorted (indexable : AllIndexable effective)
    : buildEffectiveSorted sys = some (selectCoins effective) := by
  rw [CoinsRam.buildEffectiveSorted]
  rw [foldlM_effTakeDurableRow refines.holds _ _ (by simp; omega), List.nil_append]
  dsimp only
  congr 1
  have perm := List.mergeSort_perm
    (unshadowed overlay (selectCoins sys.db.coins) ++ liveRecords sys.ram)
    fun x y => commLe x.1 y.1
  have sorted : ((unshadowed overlay (selectCoins sys.db.coins) ++ liveRecords sys.ram).mergeSort
      fun x y => commLe x.1 y.1).Pairwise fun x y => commLe x.1 y.1 := by
    apply List.pairwise_mergeSort
    · intro x y z first second
      exact outpointLe_trans _ first second
    · intro x y
      rw [Bool.or_eq_true]
      exact outpointLe_total _ x.1 y.1
  apply eq_selectCoins
  · exact (perm.map Prod.fst).nodup_iff.mpr refines.records_nodup
  · intro row
    rw [perm.mem_iff]
    exact refines.mem_records row
  · refine sorted.imp_of_mem fun {x y} xMember yMember le => ?_
    have small : ∀ row ∈ (unshadowed overlay (selectCoins sys.db.coins)
        ++ liveRecords sys.ram).mergeSort (fun x y => commLe x.1 y.1),
        Outpoint.Indexable row.1 := by
      intro row member
      rw [perm.mem_iff, refines.mem_records] at member
      exact indexable row.1 (Finmap.mem_iff.mpr ⟨row.2, member⟩)
    exact sqlLe_of_commLe (small x xMember) (small y yMember) le

theorem System.Refines.stream (indexable : AllIndexable effective)
    : coinsRamStream sys = some (coinsKvStream effective) := by
  rw [coinsRamStream, refines.buildEffectiveSorted indexable]
  rfl

end

end Z23.Storage.CoinsRam
