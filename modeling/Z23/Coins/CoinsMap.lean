import Z23.Lib.Bytes
import Z23.Lib.ProbeTable
import Z23.Validation.UpdateCoins

/-!
The hash map of the coins caches: entries by transaction id in open addressing with linear
probing, growth at three quarters and removal that writes the following run of cells again.

Allocations succeed. An entry is handed out by its slot, and its caller may write to it there.
-/

namespace Z23.Coins

open Z23.Lib
open Z23.Lib.Bytes (natLE)
open Z23.Lib.FiniteMap (Table)
open Z23.Lib.LinearProbing
open Z23.Lib.OpenTable (Slots cellAt Contains entries)
open Z23.Lib.ProbeTable (Placed used step vacancy)
open Z23.Validation (Coins coinsInit)

-- The map

structure CoinsCacheEntry where
  coins : Coins
  dirty : Bool
  fresh : Bool
deriving DecidableEq, Repr

structure CoinsMap where
  buckets : Slots Uint256 CoinsCacheEntry
  size : Nat
  degradedHash : Bool
deriving DecidableEq, Repr

def coinsMapInitialBuckets : Nat := 4096

def coinsMapLoadFactorNum : Nat := 3

def coinsMapLoadFactorDen : Nat := 4

def coinsMapInit : CoinsMap := ⟨[], 0, false⟩

def coinsMapHash (txid : Uint256) : Nat := natLE (txid.data.take 8)

def coinsMapBucketOf (degradedHash : Bool) (txid : Uint256) : Nat :=
  if degradedHash then 0 else coinsMapHash txid

/-- Where the search for a txid begins. -/
def coinsMapHome (degradedHash : Bool) (numBuckets : Nat) (txid : Uint256) : Nat :=
  coinsMapBucketOf degradedHash txid % numBuckets

/-- Models `coins_map_find`: the slot of the entry. -/
def coinsMapFind (m : CoinsMap) (txid : Uint256) : Option Nat :=
  if m.buckets.length = 0 then none
  else
    match ProbeTable.probe (coinsMapHome m.degradedHash) m.buckets txid with
    | .found slot => some slot
    | _ => none

/-- The first free slot for a txid. -/
def CoinsMap.freeSlot (m : CoinsMap) (txid : Uint256) : Option Nat :=
  vacancy m.buckets m.buckets.length (coinsMapHome m.degradedHash m.buckets.length txid)

/-- Writes an entry into the first free slot for it. -/
def CoinsMap.place (m : CoinsMap) (entry : Uint256 × CoinsCacheEntry) : CoinsMap :=
  match m.freeSlot entry.1 with
  | some slot => { m with buckets := m.buckets.set slot (some entry), size := m.size + 1 }
  | none => m

/-- Models `coins_map_rehash`. -/
def coinsMapRehash (m : CoinsMap) (newNumBuckets : Nat) : CoinsMap :=
  (entries m.buckets).foldl CoinsMap.place
    { m with buckets := List.replicate newNumBuckets none, size := 0 }

/-- The map with room for one more entry. -/
def CoinsMap.reserve (m : CoinsMap) : CoinsMap :=
  if m.buckets.length = 0
      || m.size * coinsMapLoadFactorDen ≥ m.buckets.length * coinsMapLoadFactorNum then
    coinsMapRehash m
      (if m.buckets.length = 0 then coinsMapInitialBuckets else m.buckets.length * 2)
  else m

/-- Models `coins_map_insert`: the slot of the entry, new or not; `none` where the map is full. -/
def coinsMapInsert (m : CoinsMap) (txid : Uint256) : CoinsMap × Option Nat :=
  match coinsMapFind m txid with
  | some slot => (m, some slot)
  | none =>
    let m := m.reserve
    match m.freeSlot txid with
    | some slot =>
      ({ m with
          buckets := m.buckets.set slot (some (txid, ⟨coinsInit, false, false⟩))
          size := m.size + 1 },
        some slot)
    | none => (m, none)

/-- The loop of `coins_map_erase` over the run of cells behind the erased one; `none` where it has
not ended after `fuel` cells. -/
def coinsMapFillGap : Nat → CoinsMap → Nat → Option CoinsMap
  | 0, _, _ => none
  | fuel + 1, m, next =>
    match cellAt m.buckets next with
    | none => some m
    | some tmp =>
      let m := { m with buckets := m.buckets.set next none, size := m.size - 1 }
      coinsMapFillGap fuel (m.place tmp) (step m.buckets.length next)

/-- Models `coins_map_erase`; `none` where its loop takes more turns than there are buckets. -/
def coinsMapErase (m : CoinsMap) (txid : Uint256) : Option (CoinsMap × Bool) :=
  match coinsMapFind m txid with
  | some slot =>
    let m := { m with buckets := m.buckets.set slot none, size := m.size - 1 }
    (coinsMapFillGap m.buckets.length m (step m.buckets.length slot)).map fun m => (m, true)
  | none => some (m, false)

/-- Models `coins_map_count`. -/
def coinsMapCount (m : CoinsMap) : Nat := m.size

/-- What a caller reads at a slot. -/
def CoinsMap.entryAt (m : CoinsMap) (slot : Nat) : Option CoinsCacheEntry :=
  (cellAt m.buckets slot).map Prod.snd

/-- What a caller writes at a slot. -/
def CoinsMap.writeAt (m : CoinsMap) (slot : Nat) (write : CoinsCacheEntry → CoinsCacheEntry)
    : CoinsMap :=
  { m with
    buckets :=
      m.buckets.set slot ((cellAt m.buckets slot).map fun entry => (entry.1, write entry.2)) }

-- What a map holds

/-- A map with buckets: searches reach their keys and an empty bucket ends them. -/
structure CoinsMap.Allocated (m : CoinsMap) : Prop where
  large : coinsMapInitialBuckets ≤ m.buckets.length
  roomy : used m.buckets < m.buckets.length
  placed : Placed (coinsMapHome m.degradedHash) m.buckets

/-- The map holds the entries of a table. -/
structure CoinsMap.Holds (m : CoinsMap) (table : Table Uint256 CoinsCacheEntry) : Prop where
  allocated : m.buckets = [] ∨ m.Allocated
  size : m.size = used m.buckets
  contains : ∀ txid entry, Contains m.buckets (txid, entry) ↔ table.lookup txid = some entry
  count : used m.buckets = table.keys.card

/-- The map holds the entries of a table, and may have no empty bucket. -/
structure CoinsMap.Keeps (m : CoinsMap) (table : Table Uint256 CoinsCacheEntry) : Prop where
  placed
    : m.buckets = []
      ∨ coinsMapInitialBuckets ≤ m.buckets.length
        ∧ Placed (coinsMapHome m.degradedHash) m.buckets
  size : m.size = used m.buckets
  contains : ∀ txid entry, Contains m.buckets (txid, entry) ↔ table.lookup txid = some entry
  count : used m.buckets = table.keys.card

/-- A map with buckets has an empty one. -/
def CoinsMap.Roomy (m : CoinsMap) : Prop := m.buckets ≠ [] → used m.buckets < m.buckets.length

theorem CoinsMap.Holds.keeps {m : CoinsMap} {table : Table Uint256 CoinsCacheEntry}
    (holds : m.Holds table) : m.Keeps table where
  placed := holds.allocated.imp_right fun allocated => ⟨allocated.large, allocated.placed⟩
  size := holds.size
  contains := holds.contains
  count := holds.count

theorem CoinsMap.Keeps.holds {m : CoinsMap} {table : Table Uint256 CoinsCacheEntry}
    (keeps : m.Keeps table) (roomy : m.Roomy) : m.Holds table where
  allocated := by
    by_cases empty : m.buckets = []
    · exact Or.inl empty
    · obtain ⟨large, placed⟩ := keeps.placed.resolve_left empty
      exact Or.inr { large := large, roomy := roomy empty, placed := placed }
  size := keeps.size
  contains := keeps.contains
  count := keeps.count

theorem CoinsMap.Holds.roomy {m : CoinsMap} {table : Table Uint256 CoinsCacheEntry}
    (holds : m.Holds table) : m.Roomy :=
  fun some_buckets => (holds.allocated.resolve_left some_buckets).roomy

theorem coinsMapHome_lt {numBuckets : Nat} (some_buckets : 0 < numBuckets) (degradedHash : Bool)
    (txid : Uint256) : coinsMapHome degradedHash numBuckets txid < numBuckets :=
  Nat.mod_lt _ some_buckets

theorem keys_card_insert {table : Table Uint256 CoinsCacheEntry} {txid : Uint256}
    (absent : table.lookup txid = none) (entry : CoinsCacheEntry)
    : (table.insert txid entry).keys.card = table.keys.card + 1 := by
  have keys : (table.insert txid entry).keys = Insert.insert txid table.keys := by
    ext other
    rw [Finmap.mem_keys, Finmap.mem_insert, Finset.mem_insert, Finmap.mem_keys]
  have new : txid ∉ table.keys := by
    rw [Finmap.mem_keys]
    exact Finmap.lookup_eq_none.mp absent
  rw [keys, Finset.card_insert_of_notMem new]

theorem keys_card_replace {table : Table Uint256 CoinsCacheEntry} {txid : Uint256}
    {old : CoinsCacheEntry} (present : table.lookup txid = some old) (entry : CoinsCacheEntry)
    : (table.insert txid entry).keys.card = table.keys.card := by
  have keys : (table.insert txid entry).keys = Insert.insert txid table.keys := by
    ext other
    rw [Finmap.mem_keys, Finmap.mem_insert, Finset.mem_insert, Finmap.mem_keys]
  have held : txid ∈ table.keys := by
    rw [Finmap.mem_keys]
    exact Finmap.mem_of_lookup_eq_some present
  rw [keys, Finset.insert_eq_of_mem held]

theorem holds_empty (degradedHash : Bool) : CoinsMap.Holds ⟨[], 0, degradedHash⟩ ∅ where
  allocated := Or.inl rfl
  size := rfl
  contains := by simp [Contains, cellAt]
  count := rfl

section Holding

variable {m : CoinsMap} {table : Table Uint256 CoinsCacheEntry} {txid : Uint256}

theorem find_none (keeps : m.Keeps table) (missed : coinsMapFind m txid = none)
    : table.lookup txid = none := by
  cases found : table.lookup txid with
  | none => rfl
  | some entry =>
    exfalso
    have held := (keeps.contains txid entry).mpr found
    rcases keeps.placed with empty | ⟨large, placed⟩
    · obtain ⟨pos, cell⟩ := held
      rw [empty] at cell
      simp [cellAt] at cell
    · have some_buckets : m.buckets.length ≠ 0 :=
        Nat.ne_of_gt (Nat.lt_of_lt_of_le (by decide) large)
      rw [coinsMapFind, if_neg some_buckets] at missed
      apply placed.absent_of_missed ?_ entry held
      intro pos found
      rw [found] at missed
      cases missed

theorem find_some {slot : Nat} (keeps : m.Keeps table) (found : coinsMapFind m txid = some slot)
    : (coinsMapInitialBuckets ≤ m.buckets.length
        ∧ Placed (coinsMapHome m.degradedHash) m.buckets)
      ∧ ProbeTable.probe (coinsMapHome m.degradedHash) m.buckets txid = .found slot
      ∧ ∃ entry, cellAt m.buckets slot = some (txid, entry) ∧ table.lookup txid = some entry := by
  rw [coinsMapFind] at found
  split at found
  · cases found
  · rename_i some_buckets
    have allocated := keeps.placed.resolve_left (mt List.length_eq_zero_iff.mpr some_buckets)
    cases probed : ProbeTable.probe (coinsMapHome m.degradedHash) m.buckets txid with
    | free pos =>
      rw [probed] at found
      cases found
    | exhausted =>
      rw [probed] at found
      cases found
    | found pos =>
      rw [probed] at found
      cases found
      obtain ⟨entry, cell⟩ := ProbeTable.probe_found probed
      exact ⟨allocated, rfl, entry, cell, (keeps.contains txid entry).mp ⟨slot, cell⟩⟩

end Holding

-- Insertion and growth

section Insertion

variable {m : CoinsMap} {table : Table Uint256 CoinsCacheEntry} {txid : Uint256}

theorem probe_eq_freeSlot (absent : ∀ entry, ¬ Contains m.buckets (txid, entry))
    : ProbeTable.probe (coinsMapHome m.degradedHash) m.buckets txid
      = (m.freeSlot txid).elim .exhausted .free := by
  have away : ∀ pos, OpenTable.keyAt m.buckets pos ≠ some txid := by
    intro pos held
    obtain ⟨other, cell⟩ := OpenTable.keyAt_eq_some.mp held
    exact absent other ⟨pos, cell⟩
  rw [ProbeTable.probe, ProbeTable.seek_eq_vacancy away, CoinsMap.freeSlot]

theorem freeSlot_inserted (placed : Placed (coinsMapHome m.degradedHash) m.buckets)
    (absent : ∀ entry, ¬ Contains m.buckets (txid, entry)) {slot : Nat}
    (free : m.freeSlot txid = some slot) (entry : CoinsCacheEntry)
    : slot < m.buckets.length
      ∧ ProbeTable.Inserted (coinsMapHome m.degradedHash) m.buckets
          (m.buckets.set slot (some (txid, entry))) txid entry := by
  have probed := probe_eq_freeSlot absent
  rw [free] at probed
  exact ⟨(placed.free_lt probed).1, placed.inserted probed entry⟩

theorem freeSlot_spec (placed : Placed (coinsMapHome m.degradedHash) m.buckets)
    (roomy : used m.buckets < m.buckets.length)
    (absent : ∀ entry, ¬ Contains m.buckets (txid, entry)) (entry : CoinsCacheEntry)
    : ∃ slot, m.freeSlot txid = some slot
        ∧ slot < m.buckets.length
        ∧ ProbeTable.Inserted (coinsMapHome m.degradedHash) m.buckets
            (m.buckets.set slot (some (txid, entry))) txid entry := by
  cases free : m.freeSlot txid with
  | none =>
    have probed := probe_eq_freeSlot absent
    rw [free] at probed
    exact absurd probed (placed.probe_ne_exhausted roomy txid)
  | some slot => exact ⟨slot, rfl, freeSlot_inserted placed absent free entry⟩

theorem placeAll_filled {added : List (Uint256 × CoinsCacheEntry)}
    (placed : Placed (coinsMapHome m.degradedHash) m.buckets)
    (roomy : used m.buckets + added.length ≤ m.buckets.length) (once : (added.map Prod.fst).Nodup)
    (absent : ∀ entry ∈ added, ∀ value, ¬ Contains m.buckets (entry.1, value))
    : ∃ after, added.foldl CoinsMap.place m
          = { m with buckets := after, size := m.size + added.length }
        ∧ ProbeTable.Filled (coinsMapHome m.degradedHash) m.buckets after added := by
  induction added generalizing m with
  | nil => exact ⟨m.buckets, rfl, ProbeTable.Filled.nil placed⟩
  | cons entry rest ih =>
    obtain ⟨key, value⟩ := entry
    rw [List.length_cons] at roomy
    rw [List.map_cons, List.nodup_cons] at once
    have absentHere : ∀ other, ¬ Contains m.buckets (key, other) :=
      absent (key, value) List.mem_cons_self
    obtain ⟨slot, free, _, inserted⟩ := freeSlot_spec placed (by omega) absentHere value
    have here : m.place (key, value)
        = { m with buckets := m.buckets.set slot (some (key, value)), size := m.size + 1 } := by
      rw [CoinsMap.place, free]
    have capacity := inserted.capacity
    have count := inserted.count
    obtain ⟨after, filled, result⟩ :=
      @ih { m with buckets := m.buckets.set slot (some (key, value)), size := m.size + 1 }
        inserted.placed (by dsimp only; omega) once.2
        (inserted.absent once.1 (List.forall_mem_cons.mp absent).2)
    refine ⟨after, ?_, inserted.filled result⟩
    rw [List.foldl_cons, here, filled, List.length_cons, Nat.add_comm rest.length 1,
      ← Nat.add_assoc]

theorem rehash_holds (keeps : m.Keeps table) {newNumBuckets : Nat}
    (large : coinsMapInitialBuckets ≤ newNumBuckets) (roomy : used m.buckets < newNumBuckets)
    : (coinsMapRehash m newNumBuckets).Holds table
      ∧ (coinsMapRehash m newNumBuckets).buckets.length = newNumBuckets
      ∧ (coinsMapRehash m newNumBuckets).Allocated := by
  have some_buckets : 0 < newNumBuckets := by omega
  have fresh : Placed (coinsMapHome m.degradedHash)
      (List.replicate newNumBuckets (none : Option (Uint256 × CoinsCacheEntry))) :=
    Placed.empty (coinsMapHome_lt some_buckets m.degradedHash)
  have once : ((entries m.buckets).map Prod.fst).Nodup := by
    rcases keeps.placed with empty | ⟨_, placed⟩
    · rw [empty]
      exact List.nodup_nil
    · exact placed.nodup_keys
  obtain ⟨after, ran, filled⟩ :=
    @placeAll_filled { m with buckets := List.replicate newNumBuckets none, size := 0 }
      (entries m.buckets) fresh
      (by
        rw [ProbeTable.used_replicate, List.length_replicate, Nat.zero_add]
        exact Nat.le_of_lt roomy)
      once (fun entry _ value => by simp [Contains, OpenTable.cellAt_replicate])
  have capacity : after.length = newNumBuckets := by
    rw [filled.capacity, List.length_replicate]
  have sameUsed : used after = used m.buckets := by
    rw [filled.count, ProbeTable.used_replicate, Nat.zero_add, used]
  have result : coinsMapRehash m newNumBuckets
      = { m with buckets := after, size := 0 + (entries m.buckets).length } := ran
  have allocated : (coinsMapRehash m newNumBuckets).Allocated := by
    rw [result]
    exact
      { large := by rwa [capacity]
        roomy := by rwa [capacity, sameUsed]
        placed := filled.placed }
  refine ⟨?_, by rw [result]; exact capacity, allocated⟩
  refine { allocated := Or.inr allocated, size := ?_, contains := ?_, count := ?_ }
  · rw [result]
    change 0 + (entries m.buckets).length = used after
    rw [sameUsed, Nat.zero_add, used]
  · intro txid entry
    rw [← keeps.contains, result, filled.contains, OpenTable.mem_entries]
    simp [Contains, OpenTable.cellAt_replicate]
  · rw [result, sameUsed, keeps.count]

theorem rehash_grown (keeps : m.Keeps table)
    : (coinsMapRehash m
        (if m.buckets.length = 0 then coinsMapInitialBuckets else m.buckets.length * 2)).Holds table
      ∧ (coinsMapRehash m
          (if m.buckets.length = 0 then coinsMapInitialBuckets
            else m.buckets.length * 2)).Allocated
      ∧ used (coinsMapRehash m
            (if m.buckets.length = 0 then coinsMapInitialBuckets
              else m.buckets.length * 2)).buckets + 1
          < (coinsMapRehash m
            (if m.buckets.length = 0 then coinsMapInitialBuckets
              else m.buckets.length * 2)).buckets.length := by
  have initial : coinsMapInitialBuckets = 4096 := rfl
  have bounded := ProbeTable.used_le_length m.buckets
  generalize grown : (if m.buckets.length = 0 then coinsMapInitialBuckets
    else m.buckets.length * 2) = newNumBuckets
  have large : coinsMapInitialBuckets ≤ newNumBuckets ∧ used m.buckets + 1 < newNumBuckets := by
    rw [← grown]
    split
    · omega
    · rename_i some_buckets
      have large := (keeps.placed.resolve_left (mt List.length_eq_zero_iff.mpr some_buckets)).1
      omega
  have result := rehash_holds keeps large.1 (Nat.lt_of_succ_lt large.2)
  refine ⟨result.1, result.2.2, ?_⟩
  rw [result.1.count.trans keeps.count.symm, result.2.1]
  exact large.2

theorem reserve_holds (keeps : m.Keeps table)
    : m.reserve.Holds table ∧ m.reserve.Allocated
      ∧ used m.reserve.buckets + 1 < m.reserve.buckets.length := by
  rw [CoinsMap.reserve]
  split
  · exact rehash_grown keeps
  · rename_i light
    simp only [coinsMapLoadFactorNum, coinsMapLoadFactorDen, Bool.or_eq_true, decide_eq_true_eq,
      not_or, not_le, ge_iff_le] at light
    obtain ⟨some_buckets, light⟩ := light
    obtain ⟨large, placed⟩ :=
      keeps.placed.resolve_left (mt List.length_eq_zero_iff.mpr some_buckets)
    have initial : coinsMapInitialBuckets = 4096 := rfl
    have size := keeps.size
    have room : used m.buckets + 1 < m.buckets.length := by omega
    refine ⟨keeps.holds fun _ => Nat.lt_of_succ_lt room, ?_, room⟩
    exact { large := large, roomy := Nat.lt_of_succ_lt room, placed := placed }

/-- The entry of a new txid. -/
def CoinsCacheEntry.init : CoinsCacheEntry := ⟨coinsInit, false, false⟩

theorem keeps_present (keeps : m.Keeps table) {entry : CoinsCacheEntry}
    (present : table.lookup txid = some entry) : m.Keeps (table.insert txid entry) := by
  refine { keeps with contains := ?_, count := ?_ }
  · intro other held
    rw [keeps.contains, FiniteMap.lookup_insert_eq]
    split
    · rename_i same
      rw [same, present]
    · rfl
  · rw [keys_card_replace present, keeps.count]

theorem writeFresh_keeps (keeps : m.Keeps table) (some_buckets : m.buckets ≠ [])
    (absent : table.lookup txid = none) {slot : Nat} (free : m.freeSlot txid = some slot)
    : CoinsMap.Keeps
          { m with
            buckets := m.buckets.set slot (some (txid, .init))
            size := m.size + 1 }
          (table.insert txid .init)
        ∧ cellAt (m.buckets.set slot (some (txid, .init))) slot = some (txid, .init)
        ∧ used (m.buckets.set slot (some (txid, .init))) = used m.buckets + 1 := by
  obtain ⟨large, placed⟩ := keeps.placed.resolve_left some_buckets
  have missing : ∀ entry, ¬ Contains m.buckets (txid, entry) := by
    intro entry held
    rw [keeps.contains, absent] at held
    cases held
  obtain ⟨inside, inserted⟩ := freeSlot_inserted placed missing free .init
  have count := inserted.count
  refine ⟨?_, by rw [OpenTable.cellAt_set inside, if_pos rfl], count⟩
  refine { placed := Or.inr ?_, size := ?_, contains := ?_, count := ?_ }
  · exact ⟨large.trans_eq inserted.capacity.symm, inserted.placed⟩
  · change m.size + 1 = used (m.buckets.set slot (some (txid, .init)))
    rw [count, keeps.size]
  · intro other held
    change Contains (m.buckets.set slot (some (txid, .init))) (other, held) ↔ _
    rw [inserted.contains, keeps.contains, FiniteMap.lookup_insert_eq]
    split
    · rename_i same
      subst same
      rw [absent]
      simp [eq_comm]
    · rename_i differs
      simp [differs]
  · change used (m.buckets.set slot (some (txid, .init))) = _
    rw [count, keeps.count, keys_card_insert absent]

theorem insert_keeps (keeps : m.Keeps table) (txid : Uint256)
    : ∃ slot m', coinsMapInsert m txid = (m', some slot)
        ∧ m'.Keeps (table.insert txid ((table.lookup txid).getD .init))
        ∧ cellAt m'.buckets slot = some (txid, (table.lookup txid).getD .init)
        ∧ (m.Roomy → m'.Roomy) := by
  rw [coinsMapInsert]
  cases found : coinsMapFind m txid with
  | some slot =>
    obtain ⟨_, _, entry, cell, present⟩ := find_some keeps found
    rw [present, Option.getD_some]
    exact ⟨slot, m, rfl, keeps_present keeps present, cell, fun roomy => roomy⟩
  | none =>
    have absent := find_none keeps found
    obtain ⟨reserved, allocated, room⟩ := reserve_holds keeps
    have some_buckets : m.reserve.buckets ≠ [] := by
      intro empty
      rw [empty] at room
      exact Nat.not_lt_zero _ room
    have missing : ∀ entry, ¬ Contains m.reserve.buckets (txid, entry) := by
      intro entry held
      rw [reserved.contains, absent] at held
      cases held
    obtain ⟨slot, free, _⟩ := freeSlot_spec allocated.placed allocated.roomy missing .init
    obtain ⟨written, cell, count⟩ := writeFresh_keeps reserved.keeps some_buckets absent free
    rw [absent, Option.getD_none]
    dsimp only
    rw [free]
    refine ⟨slot, _, rfl, written, cell, fun _ _ => ?_⟩
    change used (m.reserve.buckets.set slot (some (txid, .init)))
      < (m.reserve.buckets.set slot (some (txid, .init))).length
    rw [count, List.length_set]
    exact room

theorem insert_holds (holds : m.Holds table) (txid : Uint256)
    : ∃ slot m', coinsMapInsert m txid = (m', some slot)
        ∧ m'.Holds (table.insert txid ((table.lookup txid).getD .init))
        ∧ cellAt m'.buckets slot = some (txid, (table.lookup txid).getD .init) := by
  obtain ⟨slot, m', ran, keeps, cell, roomy⟩ := insert_keeps holds.keeps txid
  exact ⟨slot, m', ran, keeps.holds (roomy holds.roomy), cell⟩

theorem writeAt_keeps (keeps : m.Keeps table) {slot : Nat} {entry : CoinsCacheEntry}
    (cell : cellAt m.buckets slot = some (txid, entry)) (write : CoinsCacheEntry → CoinsCacheEntry)
    : (m.writeAt slot write).Keeps (table.insert txid (write entry))
      ∧ (m.Roomy → (m.writeAt slot write).Roomy) := by
  have present := (keeps.contains txid entry).mp ⟨slot, cell⟩
  have some_buckets : m.buckets ≠ [] := by
    intro empty
    rw [empty] at cell
    cases cell
  obtain ⟨large, searched⟩ := keeps.placed.resolve_left some_buckets
  have probed : ProbeTable.probe (coinsMapHome m.degradedHash) m.buckets txid = .found slot := by
    cases found : coinsMapFind m txid with
    | none =>
      rw [find_none keeps found] at present
      cases present
    | some pos =>
      obtain ⟨_, probed, other, here, _⟩ := find_some keeps found
      rw [probed, searched.cellAt_unique here cell]
  have written : m.writeAt slot write
      = { m with
          buckets := ProbeTable.modify (coinsMapHome m.degradedHash) m.buckets txid write } := by
    rw [CoinsMap.writeAt, ProbeTable.modify, probed]
  obtain ⟨placed, capacity, sameUsed, contains⟩ := searched.modify txid write
  rw [written]
  refine ⟨{ placed := Or.inr ⟨large.trans_eq capacity.symm, placed⟩, size := ?_, contains := ?_,
            count := ?_ }, ?_⟩
  · rw [sameUsed]
    exact keeps.size
  · intro other held
    rw [contains, FiniteMap.lookup_insert_eq]
    split
    · rename_i same
      subst same
      constructor
      · rintro (⟨differs, _⟩ | ⟨value, old, new⟩)
        · exact absurd rfl differs
        · have sameValue := searched.value_unique old ⟨slot, cell⟩
          rw [(Prod.mk.inj new).2, sameValue]
      · intro new
        exact Or.inr ⟨entry, ⟨slot, cell⟩, by rw [← Option.some.inj new]⟩
    · rename_i differs
      rw [← keeps.contains]
      constructor
      · rintro (⟨_, kept⟩ | ⟨value, old, new⟩)
        · exact kept
        · exact absurd (Prod.mk.inj new).1 differs
      · intro kept
        exact Or.inl ⟨differs, kept⟩
  · rw [sameUsed, keeps.count, keys_card_replace present]
  · intro roomy _
    rw [capacity, sameUsed]
    exact roomy some_buckets

theorem writeAt_holds (holds : m.Holds table) {slot : Nat} {entry : CoinsCacheEntry}
    (cell : cellAt m.buckets slot = some (txid, entry)) (write : CoinsCacheEntry → CoinsCacheEntry)
    : (m.writeAt slot write).Holds (table.insert txid (write entry)) := by
  obtain ⟨keeps, roomy⟩ := writeAt_keeps holds.keeps cell write
  exact keeps.holds (roomy holds.roomy)

end Insertion

-- Removal

section Removal

variable {m : CoinsMap} {table : Table Uint256 CoinsCacheEntry}

theorem fillGap_turn {fuel next slot : Nat} {entry : Uint256 × CoinsCacheEntry}
    (size : m.size = used m.buckets) (held : cellAt m.buckets next = some entry)
    (free : vacancy (m.buckets.set next none) m.buckets.length
        (coinsMapHome m.degradedHash m.buckets.length entry.1) = some slot)
    : coinsMapFillGap (fuel + 1) m next
      = coinsMapFillGap fuel
          { m with buckets := (m.buckets.set next none).set slot (some entry) }
          (step m.buckets.length next) := by
  have inside : next < m.buckets.length :=
    OpenTable.lt_of_cellAt (by rw [held]; exact Option.some_ne_none entry)
  have shrunk : used (m.buckets.set next none) + 1 = used m.buckets := by
    simpa [held] using ProbeTable.used_set inside none
  have back : m.size - 1 + 1 = m.size := by omega
  have found
      : CoinsMap.freeSlot { m with buckets := m.buckets.set next none, size := m.size - 1 } entry.1
        = some slot := by
    rw [CoinsMap.freeSlot, List.length_set]
    exact free
  rw [coinsMapFillGap, held]
  dsimp only
  rw [CoinsMap.place, found]
  dsimp only
  rw [back, List.length_set]

theorem fillGap_run {cap start len i fuel : Nat} (capacity : m.buckets.length = cap)
    (some_buckets : 0 < cap) (startInside : start < cap) (size : m.size = used m.buckets)
    (repairing
      : Repairing (step cap) (coinsMapHome m.degradedHash cap) cap start len i
          (OpenTable.keyAt m.buckets))
    (within : i ≤ len) (enough : len < fuel + i)
    : ∃ after, coinsMapFillGap fuel m ((step cap)^[i] start) = some { m with buckets := after }
        ∧ Placed (coinsMapHome m.degradedHash) after
        ∧ ProbeTable.SameEntries m.buckets after := by
  induction fuel generalizing m i with
  | zero => omega
  | succ fuel ih =>
    subst capacity
    have homeInside := coinsMapHome_lt some_buckets m.degradedHash
    rcases Nat.eq_or_lt_of_le within with rfl | before
    · rw [coinsMapFillGap, OpenTable.keyAt_eq_none.mp repairing.ends]
      exact ⟨m.buckets, rfl, ⟨homeInside, repairing.probed⟩, ProbeTable.SameEntries.refl m.buckets⟩
    · have occupied := repairing.run i (Nat.le_refl i) before
      obtain ⟨⟨key, value⟩, held⟩ :=
        Option.ne_none_iff_exists'.mp (OpenTable.keyAt_eq_none.not.mp occupied)
      obtain ⟨after, ran, next, same⟩ :=
        ProbeTable.repair_turn homeInside startInside repairing before held
      have turned := Function.iterate_succ_apply' (step m.buckets.length) i start
      generalize place : (step m.buckets.length)^[i] start = at_ at *
      have inside : at_ < m.buckets.length := by
        rw [← place]
        exact ProbeTable.iterate_step_lt startInside i
      have absent : ∀ pos, OpenTable.keyAt (m.buckets.set at_ none) pos ≠ some key := by
        intro pos found
        rw [ProbeTable.keyAt_set_none inside] at found
        by_cases here : pos = at_
        · rw [here, Function.update_self] at found
          cases found
        · rw [Function.update_of_ne here] at found
          exact here (repairing.unique pos at_ key found (OpenTable.keyAt_of_cellAt held))
      rw [ProbeTable.insert_eq_vacancy absent, List.length_set] at ran
      obtain ⟨slot, found, written⟩ := Option.map_eq_some_iff.mp ran
      obtain rfl := (Prod.mk.inj written).1
      rw [fillGap_turn size held found, ← turned]
      obtain ⟨after, filled, placed, result⟩ :=
        @ih { m with buckets := (m.buckets.set at_ none).set slot (some (key, value)) }
          (i + 1) same.capacity (size.trans same.count.symm) next before (by omega)
      exact ⟨after, filled, placed, same.trans result⟩

theorem erased_keeps (keeps : m.Keeps table) {txid : Uint256} {slot : Nat}
    (found : coinsMapFind m txid = some slot) {after : Slots Uint256 CoinsCacheEntry}
    (placed : Placed (coinsMapHome m.degradedHash) after)
    (same : ProbeTable.SameEntries (m.buckets.set slot none) after)
    : CoinsMap.Keeps { m with buckets := after, size := m.size - 1 } (table.erase txid)
      ∧ used after + 1 = used m.buckets ∧ after.length = m.buckets.length := by
  obtain ⟨⟨large, searched⟩, _, entry, cell, present⟩ := find_some keeps found
  have inside : slot < m.buckets.length :=
    OpenTable.lt_of_cellAt (by rw [cell]; exact Option.some_ne_none _)
  have capacity : after.length = m.buckets.length := same.capacity.trans List.length_set
  have emptied : used (m.buckets.set slot none) + 1 = used m.buckets := by
    simpa [cell] using ProbeTable.used_set inside none
  have shrunk : used after + 1 = used m.buckets := by
    rw [same.count]
    exact emptied
  refine ⟨?_, shrunk, capacity⟩
  refine { placed := Or.inr ⟨large.trans_eq capacity.symm, placed⟩, size := ?_, contains := ?_,
           count := ?_ }
  · have size := keeps.size
    dsimp only
    omega
  · intro other held
    rw [same.contains, ProbeTable.contains_set_none searched.probed.unique cell,
      keeps.contains, FiniteMap.lookup_erase_eq]
    split
    · rename_i same
      simp [same]
    · rename_i differs
      simp [differs]
  · have held : txid ∈ table.keys := by
      rw [Finmap.mem_keys]
      exact Finmap.mem_of_lookup_eq_some present
    have count := keeps.count
    rw [Finmap.keys_erase, Finset.card_erase_of_mem held]
    dsimp only
    omega

theorem keeps_absent (keeps : m.Keeps table) {txid : Uint256} (absent : table.lookup txid = none)
    : m.Keeps (table.erase txid) := by
  refine { keeps with contains := ?_, count := ?_ }
  · intro other held
    rw [keeps.contains, FiniteMap.lookup_erase_eq]
    split
    · rename_i same
      rw [same, absent]
    · rfl
  · rw [keeps.count, Finmap.keys_erase, Finset.erase_eq_of_notMem]
    rw [Finmap.mem_keys]
    exact Finmap.lookup_eq_none.mp absent

theorem erase_holds (holds : m.Holds table) (txid : Uint256)
    : ∃ m', coinsMapErase m txid = some (m', (table.lookup txid).isSome)
        ∧ m'.Holds (table.erase txid) := by
  rw [coinsMapErase]
  cases found : coinsMapFind m txid with
  | none =>
    have absent := find_none holds.keeps found
    exact ⟨m, by rw [absent]; rfl, (keeps_absent holds.keeps absent).holds holds.roomy⟩
  | some slot =>
    obtain ⟨⟨_, searched⟩, _, entry, cell, present⟩ := find_some holds.keeps found
    have inside : slot < m.buckets.length :=
      OpenTable.lt_of_cellAt (by rw [cell]; exact Option.some_ne_none _)
    have roomy := holds.roomy (List.ne_nil_of_length_pos (Nat.zero_lt_of_lt inside))
    obtain ⟨len, lenBound, ends, run⟩ := ProbeTable.exists_run inside roomy
    have some_run : 0 < len := by
      rcases Nat.eq_zero_or_pos len with rfl | positive
      · rw [Function.iterate_zero_apply, cell] at ends
        cases ends
      · exact positive
    have repairing := searched.probed.repairing some_run
      (OpenTable.keyAt_eq_none.mpr ends)
      (fun j before => OpenTable.keyAt_eq_none.not.mpr (run j before))
    rw [← ProbeTable.keyAt_set_none inside] at repairing
    have sameLength : (m.buckets.set slot none).length = m.buckets.length := List.length_set
    have emptied : used (m.buckets.set slot none) + 1 = used m.buckets := by
      simpa [cell] using ProbeTable.used_set inside none
    have size := holds.size
    obtain ⟨after, ran, placed, same⟩ :=
      @fillGap_run { m with buckets := m.buckets.set slot none, size := m.size - 1 }
        m.buckets.length slot len 1 m.buckets.length sameLength (Nat.zero_lt_of_lt inside)
        inside (by dsimp only; omega) repairing some_run (by omega)
    obtain ⟨keeps, shrunk, capacity⟩ := erased_keeps holds.keeps found placed same
    rw [Function.iterate_one] at ran
    refine ⟨{ m with buckets := after, size := m.size - 1 }, ?_, keeps.holds fun _ => ?_⟩
    · dsimp only
      rw [sameLength, ran, present]
      rfl
    · dsimp only
      omega

end Removal

-- Runs

/-- A call on the map, with what its caller writes to the entry it is handed. -/
inductive MapCall where
  | find (txid : Uint256)
  | insert (txid : Uint256) (write : CoinsCacheEntry → CoinsCacheEntry)
  | update (txid : Uint256) (write : CoinsCacheEntry → CoinsCacheEntry)
  | erase (txid : Uint256)
  | count

/-- What a call tells. -/
inductive MapAnswer where
  | entry (entry : Option CoinsCacheEntry)
  | erased (present : Bool)
  | count (number : Nat)
deriving DecidableEq, Repr

/-- One call; `none` where a loop does not end. -/
def CoinsMap.call (m : CoinsMap) : MapCall → Option (CoinsMap × MapAnswer)
  | .find txid => some (m, .entry ((coinsMapFind m txid).bind m.entryAt))
  | .insert txid write =>
    match coinsMapInsert m txid with
    | (m, some slot) => some (m.writeAt slot write, .entry (m.entryAt slot))
    | (m, none) => some (m, .entry none)
  | .update txid write =>
    match coinsMapFind m txid with
    | some slot => some (m.writeAt slot write, .entry (m.entryAt slot))
    | none => some (m, .entry none)
  | .erase txid => (coinsMapErase m txid).map fun (m, present) => (m, .erased present)
  | .count => some (m, .count (coinsMapCount m))

def CoinsMap.run (m : CoinsMap) : List MapCall → Option (CoinsMap × List MapAnswer)
  | [] => some (m, [])
  | call :: calls => do
    let (m, answer) ← m.call call
    let (m, answers) ← m.run calls
    some (m, answer :: answers)

/-- The same call on a finite map. -/
def tableCall (table : Table Uint256 CoinsCacheEntry)
    : MapCall → Table Uint256 CoinsCacheEntry × MapAnswer
  | .find txid => (table, .entry (table.lookup txid))
  | .insert txid write =>
    let entry := (table.lookup txid).getD .init
    (table.insert txid (write entry), .entry (some entry))
  | .update txid write =>
    match table.lookup txid with
    | some entry => (table.insert txid (write entry), .entry (some entry))
    | none => (table, .entry none)
  | .erase txid => (table.erase txid, .erased (table.lookup txid).isSome)
  | .count => (table, .count table.keys.card)

def tableRun (table : Table Uint256 CoinsCacheEntry)
    : List MapCall → Table Uint256 CoinsCacheEntry × List MapAnswer
  | [] => (table, [])
  | call :: calls =>
    let (table, answer) := tableCall table call
    let (table, answers) := tableRun table calls
    (table, answer :: answers)

section Runs

variable {m : CoinsMap} {table : Table Uint256 CoinsCacheEntry}

theorem entryAt_of_cell {slot : Nat} {txid : Uint256} {entry : CoinsCacheEntry}
    (cell : cellAt m.buckets slot = some (txid, entry)) : m.entryAt slot = some entry := by
  rw [CoinsMap.entryAt, cell]
  rfl

theorem find_entry (keeps : m.Keeps table) (txid : Uint256)
    : (coinsMapFind m txid).bind m.entryAt = table.lookup txid := by
  cases found : coinsMapFind m txid with
  | none => exact (find_none keeps found).symm
  | some slot =>
    obtain ⟨_, _, entry, cell, present⟩ := find_some keeps found
    rw [Option.bind_some, entryAt_of_cell cell, present]

theorem call_holds (holds : m.Holds table) (call : MapCall)
    : ∃ m', m.call call = some (m', (tableCall table call).2)
        ∧ m'.Holds (tableCall table call).1 := by
  cases call with
  | find txid => exact ⟨m, by rw [CoinsMap.call, find_entry holds.keeps]; rfl, holds⟩
  | insert txid write =>
    obtain ⟨slot, m', ran, holds', cell⟩ := insert_holds holds txid
    refine ⟨m'.writeAt slot write, ?_, ?_⟩
    · rw [CoinsMap.call, ran]
      dsimp only
      rw [entryAt_of_cell cell]
      rfl
    · have written := writeAt_holds holds' cell write
      rwa [Finmap.insert_insert] at written
  | update txid write =>
    rw [CoinsMap.call, tableCall]
    cases found : coinsMapFind m txid with
    | none =>
      rw [find_none holds.keeps found]
      exact ⟨m, rfl, holds⟩
    | some slot =>
      obtain ⟨_, _, entry, cell, present⟩ := find_some holds.keeps found
      rw [present]
      refine ⟨m.writeAt slot write, ?_, writeAt_holds holds cell write⟩
      dsimp only
      rw [entryAt_of_cell cell]
  | erase txid =>
    obtain ⟨m', ran, holds'⟩ := erase_holds holds txid
    exact ⟨m', by rw [CoinsMap.call, ran]; rfl, holds'⟩
  | count =>
    refine ⟨m, ?_, holds⟩
    rw [CoinsMap.call, coinsMapCount, holds.size, holds.count]
    rfl

theorem run_holds (holds : m.Holds table) (calls : List MapCall)
    : ∃ m', m.run calls = some (m', (tableRun table calls).2)
        ∧ m'.Holds (tableRun table calls).1 := by
  induction calls generalizing m table with
  | nil => exact ⟨m, rfl, holds⟩
  | cons call calls ih =>
    obtain ⟨next, called, holds'⟩ := call_holds holds call
    obtain ⟨last, ran, result⟩ := ih holds'
    refine ⟨last, ?_, result⟩
    rw [CoinsMap.run, called, Option.bind_eq_bind, Option.bind_some]
    dsimp only
    rw [ran]
    rfl

end Runs

/-- The map is a finite map: from empty, every sequence of calls ends and answers as a finite map
does, and the searches and the count agree with it at the end. -/
theorem coinsMap_refines (degradedHash : Bool) (calls : List MapCall)
    : ∃ m, CoinsMap.run ⟨[], 0, degradedHash⟩ calls = some (m, (tableRun ∅ calls).2)
        ∧ (∀ txid,
            (coinsMapFind m txid).bind m.entryAt = (tableRun ∅ calls).1.lookup txid)
        ∧ coinsMapCount m = (tableRun ∅ calls).1.keys.card := by
  obtain ⟨m, ran, holds⟩ := run_holds (holds_empty degradedHash) calls
  refine ⟨m, ran, find_entry holds.keeps, ?_⟩
  rw [coinsMapCount, holds.size, holds.count]

end Z23.Coins
