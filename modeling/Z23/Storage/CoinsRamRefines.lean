import Z23.Storage.CoinsRam

/-!
The slots of the RAM overlay are a finite map of LIVE coins and TOMBs, and the store answers from
one effective coin set: the table with that map laid over it.
-/

namespace Z23.Storage.CoinsRam

open Z23.Lib.FiniteMap
open Z23.Lib.LinearProbing
open Z23.Lib.OpenTable

-- The slots hold a map

/-- The slots, the occupied list and the counters agree on one map. -/
structure RamStore.Holds (ram : RamStore) (overlay : Table Outpoint (Option Coin)) : Prop where
  indexed : Indexed keyHash ram.slots ram.occupied
  used : ram.used = ram.occupied.length
  live : ram.liveCount = (entries ram.slots).countP (·.2.isSome)
  roomy : ram.used < ram.slots.length
  shows : ∀ op slot, overlay.lookup op = some slot ↔ Contains ram.slots (op, slot)

theorem coinsRamInit_holds (flushEvery : UInt32) (maxSlots : Nat)
    : (coinsRamInit flushEvery maxSlots).Holds ∅ where
  indexed := Indexed.empty keyHash 23
  used := rfl
  live := by
    have none_ : entries (coinsRamInit flushEvery maxSlots).slots = [] := by
      refine List.eq_nil_iff_forall_not_mem.mpr fun entry member => ?_
      obtain ⟨pos, found⟩ := mem_entries.mp member
      rw [coinsRamInit, cellAt_replicate] at found
      cases found
    rw [none_]
    rfl
  roomy := by
    have positive : 0 < coinsRamDefaultSlots := by decide
    rw [coinsRamInit, List.length_replicate]
    exact positive
  shows := by
    intro op slot
    constructor
    · intro found
      simp at found
    · rintro ⟨pos, found⟩
      rw [coinsRamInit, cellAt_replicate] at found
      cases found

section Holds

variable {ram : RamStore} {overlay : Table Outpoint (Option Coin)}

theorem RamStore.Holds.probe_ne_exhausted (holds : ram.Holds overlay) (op : Outpoint)
    : ram.probe op ≠ .exhausted :=
  holds.indexed.probe_ne_exhausted (holds.used ▸ holds.roomy) op

variable {op : Outpoint} {pos : Nat}

theorem RamStore.Holds.lookup_of_free (holds : ram.Holds overlay) (free : ram.probe op = .free pos)
    : overlay.lookup op = none := by
  cases found : overlay.lookup op with
  | none => rfl
  | some slot =>
    exact absurd ((holds.shows op slot).mp found) (holds.indexed.absent_of_free free slot)

theorem RamStore.Holds.slotOf (holds : ram.Holds overlay) (op : Outpoint)
    : ram.slotOf op = some (overlay.lookup op) := by
  rw [RamStore.slotOf]
  cases outcome : ram.probe op with
  | exhausted => exact absurd outcome (holds.probe_ne_exhausted op)
  | free pos => rw [holds.lookup_of_free outcome]
  | found pos =>
    obtain ⟨slot, cell⟩ := probe_found outcome
    rw [(holds.shows op slot).mpr ⟨pos, cell⟩]
    dsimp only
    rw [cell, Option.map_some]

theorem RamStore.Holds.grow (holds : ram.Holds overlay)
    : ram.grow.Holds overlay ∧ ram.grow.used + 1 < ram.grow.slots.length := by
  have roomy : ram.occupied.length < ram.slots.length := holds.used ▸ holds.roomy
  obtain ⟨indexed, capacity, count, contains⟩ := holds.indexed.grow roomy
  have grownLength : ram.grow.slots.length = ram.slots.length * 2 := capacity
  have used := holds.used
  have grownUsed : ram.grow.used = ram.used := rfl
  refine ⟨⟨indexed, holds.used.trans count.symm, ?_, by omega, ?_⟩, by omega⟩
  · have sameEntries : (entries ram.grow.slots).Perm (entries ram.slots) := by
      refine (List.perm_ext_iff_of_nodup indexed.nodup_entries.of_map
        holds.indexed.nodup_entries.of_map).mpr fun entry => ?_
      rw [mem_entries, mem_entries]
      exact contains entry
    rw [sameEntries.countP_eq]
    exact holds.live
  · intro op slot
    rw [holds.shows]
    exact (contains (op, slot)).symm

theorem growWhenLoaded_holds {alloc : Alloc} {grown : RamStore} (holds : ram.Holds overlay)
    (run : growWhenLoaded alloc ram = some grown)
    : grown.Holds overlay ∧ grown.used + 1 < grown.slots.length := by
  rw [growWhenLoaded] at run
  split at run
  · split at run
    · cases run
      exact holds.grow
    · cases run
  · rename_i light
    cases run
    refine ⟨holds, ?_⟩
    have roomy := holds.roomy
    simp only [RamStore.overLoad, gt_iff_lt, decide_eq_true_eq] at light
    omega

theorem growWhenLoaded_isSome {alloc : Alloc} (memory : alloc.grow = true) (ram : RamStore)
    : ∃ grown, growWhenLoaded alloc ram = some grown := by
  rw [growWhenLoaded, memory]
  split
  · exact ⟨ram.grow, rfl⟩
  · exact ⟨ram, rfl⟩

-- One slot written

theorem RamStore.Holds.fill (holds : ram.Holds overlay) (free : ram.probe op = .free pos)
    (slot : Option Coin) (roomy : ram.used + 1 < ram.slots.length)
    : (ram.fill pos op slot).Holds (overlay.insert op slot) where
  indexed := holds.indexed.insert free slot
  used := by
    rw [RamStore.fill, List.length_append, holds.used]
    rfl
  live := by
    have inside := probe_free_lt holds.indexed free
    have vacant := keyAt_eq_none.mp (seek_free free).1
    have counts := countP_entries_set (fun entry => entry.2.isSome) inside (some (op, slot))
    have live := holds.live
    rw [vacant] at counts
    cases slot with
    | none => simpa [RamStore.fill, live] using counts.symm
    | some coin => simpa [RamStore.fill, live] using counts.symm
  roomy := by
    simpa [RamStore.fill] using roomy
  shows := by
    intro other value
    rw [RamStore.fill, contains_insert holds.indexed free, lookup_insert_eq]
    by_cases same : other = op
    · subst same
      have absent := holds.indexed.absent_of_free free value
      simp [absent, eq_comm]
    · simp [same, holds.shows]

theorem RamStore.Holds.rewrite (holds : ram.Holds overlay) (found : ram.probe op = .found pos)
    (slot : Option Coin) {liveCount : Nat}
    (counted : liveCount + (if ram.isLive pos then 1 else 0) =
      ram.liveCount + (if slot.isSome then 1 else 0))
    : ({ ram with slots := ram.slots.set pos (some (op, slot)), liveCount } : RamStore).Holds
        (overlay.insert op slot) := by
  obtain ⟨old, cell⟩ := probe_found found
  have inside : pos < ram.slots.length := lt_of_cellAt (by simp [cell])
  refine ⟨holds.indexed.replace cell slot, holds.used, ?_, ?_, ?_⟩
  · have counts := countP_entries_set (fun entry => entry.2.isSome) inside (some (op, slot))
    have live := holds.live
    have isLive : ram.isLive pos = old.isSome := by
      rw [RamStore.isLive, cell]
      cases old <;> rfl
    rw [isLive] at counted
    simp only [cell, Option.toList_some, List.countP_singleton] at counts
    dsimp only
    omega
  · simpa using holds.roomy
  · intro other value
    rw [contains_replace holds.indexed cell, lookup_insert_eq]
    by_cases same : other = op
    · subst same
      simp [eq_comm]
    · simp [same, holds.shows]

-- Mutations

theorem coinsRamAdd_holds (holds : ram.Holds overlay) {alloc : Alloc} {coin : Coin}
    {returned : Bool} {after : RamStore} (run : coinsRamAdd alloc ram op coin = (returned, after))
    : after.Holds (if returned then Storage.coinsRamAdd overlay op coin else overlay) := by
  unfold coinsRamAdd at run
  cases loaded : growWhenLoaded alloc ram with
  | none =>
    rw [loaded] at run
    cases run
    exact holds
  | some grown =>
    obtain ⟨grownHolds, roomy⟩ := growWhenLoaded_holds holds loaded
    rw [loaded] at run
    dsimp only at run
    cases outcome : grown.probe op with
    | exhausted =>
      rw [outcome] at run
      cases run
      exact grownHolds
    | free pos =>
      rw [outcome] at run
      dsimp only at run
      split at run
      · cases run
        exact grownHolds
      · split at run
        · cases run
          exact grownHolds.fill outcome _ roomy
        · cases run
          exact grownHolds
    | found pos =>
      rw [outcome] at run
      dsimp only at run
      split at run
      · cases run
        exact grownHolds
      · cases run
        refine grownHolds.rewrite outcome _ ?_
        cases grown.isLive pos <;> rfl

theorem coinsRamAdd_succeeds (holds : ram.Holds overlay) (op : Outpoint) (coin : Coin)
    : (coinsRamAdd {} ram op coin).1 = true := by
  obtain ⟨grown, run⟩ : ∃ grown, growWhenLoaded {} ram = some grown := growWhenLoaded_isSome rfl ram
  obtain ⟨grownHolds, roomy⟩ := growWhenLoaded_holds holds run
  unfold coinsRamAdd
  rw [run]
  dsimp only
  cases outcome : grown.probe op with
  | exhausted => exact absurd outcome (grownHolds.probe_ne_exhausted op)
  | free pos => simp
  | found pos => simp

theorem RamStore.isLive_of_found (found : ram.probe op = .found pos)
    : ∃ slot : Option Coin, cellAt ram.slots pos = some (op, slot)
        ∧ ram.isLive pos = slot.isSome := by
  obtain ⟨slot, cell⟩ := probe_found found
  refine ⟨slot, cell, ?_⟩
  rw [RamStore.isLive, cell]
  cases slot <;> rfl

theorem RamStore.Holds.liveCount_pos (holds : ram.Holds overlay) {coin : Coin}
    (cell : cellAt ram.slots pos = some (op, some coin))
    : 0 < ram.liveCount := by
  rw [holds.live, List.countP_pos_iff]
  exact ⟨(op, some coin), mem_entries.mpr ⟨pos, cell⟩, rfl⟩

theorem coinsRamSpend_holds (holds : ram.Holds overlay) {alloc : Alloc} {returned : Bool}
    {after : RamStore} (run : coinsRamSpend alloc ram op = (returned, after))
    : after.Holds (if returned then Storage.coinsRamSpend overlay op else overlay) := by
  unfold coinsRamSpend at run
  cases outcome : ram.probe op with
  | exhausted =>
    rw [outcome] at run
    cases run
    exact holds
  | found pos =>
    obtain ⟨slot, cell, isLive⟩ := RamStore.isLive_of_found outcome
    rw [outcome] at run
    dsimp only at run
    cases slot with
    | some coin =>
      rw [isLive] at run
      cases run
      have counted := holds.liveCount_pos cell
      refine holds.rewrite outcome none ?_
      have alive : ram.isLive pos = true := isLive
      rw [if_pos alive]
      simp only [Option.isSome_none, Bool.false_eq_true, if_false]
      omega
    | none =>
      rw [isLive] at run
      cases run
      have already := (holds.shows op none).mpr ⟨pos, cell⟩
      have same : Storage.coinsRamSpend overlay op = overlay := by
        apply Finmap.ext_lookup
        intro other
        rw [Storage.coinsRamSpend, lookup_insert_eq]
        split
        · rename_i here
          rw [here, already]
        · rfl
      rw [if_pos rfl, same]
      exact holds
  | free pos =>
    rw [outcome] at run
    dsimp only at run
    cases loaded : growWhenLoaded alloc ram with
    | none =>
      rw [loaded] at run
      cases run
      exact holds
    | some grown =>
      obtain ⟨grownHolds, roomy⟩ := growWhenLoaded_holds holds loaded
      rw [loaded] at run
      dsimp only at run
      cases again : grown.probe op with
      | exhausted =>
        rw [again] at run
        cases run
        exact grownHolds
      | found pos =>
        rw [again] at run
        cases run
        exact grownHolds
      | free pos =>
        rw [again] at run
        dsimp only at run
        split at run
        · cases run
          exact grownHolds.fill again _ roomy
        · cases run
          exact grownHolds

theorem coinsRamSpend_succeeds (holds : ram.Holds overlay) (op : Outpoint)
    : (coinsRamSpend {} ram op).1 = true := by
  unfold coinsRamSpend
  cases outcome : ram.probe op with
  | exhausted => exact absurd outcome (holds.probe_ne_exhausted op)
  | found pos =>
    dsimp only
    split <;> rfl
  | free pos =>
    obtain ⟨grown, run⟩ : ∃ grown, growWhenLoaded {} ram = some grown :=
      growWhenLoaded_isSome rfl ram
    obtain ⟨grownHolds, roomy⟩ := growWhenLoaded_holds holds run
    dsimp only
    rw [run]
    dsimp only
    cases again : grown.probe op with
    | exhausted => exact absurd again (grownHolds.probe_ne_exhausted op)
    | free pos => rfl
    | found pos =>
      obtain ⟨slot, cell⟩ := probe_found again
      have present := (grownHolds.shows op slot).mpr ⟨pos, cell⟩
      rw [holds.lookup_of_free outcome] at present
      cases present

end Holds

-- The effective set

/-- The store answers from one coin set: its table under the map its slots hold. -/
structure System.Refines (sys : System) (overlay : Table Outpoint (Option Coin))
    (effective : CoinTable)
    : Prop where
  holds : sys.ram.Holds overlay
  presents
    : CoinStore.Presents { coins := sys.db.coins, overlay := some overlay, meter := none }
        effective

section Reads

variable {sys : System} {overlay : Table Outpoint (Option Coin)} {effective : CoinTable}

theorem System.Refines.lookup (refines : sys.Refines overlay effective) (op : Outpoint)
    : effective.lookup op
        = match overlay.lookup op with
          | some slot => slot
          | none => sys.db.coins.lookup op :=
  (refines.presents op).symm

variable {op : Outpoint}

section

variable (refines : sys.Refines overlay effective)
include refines

theorem System.Refines.lookup_of_slot {slot : Option Coin} (found : overlay.lookup op = some slot)
    : effective.lookup op = slot := by
  rw [refines.lookup, found]

theorem System.Refines.lookup_of_miss (missed : overlay.lookup op = none)
    : effective.lookup op = sys.db.coins.lookup op := by
  rw [refines.lookup, missed]

theorem System.Refines.get (op : Outpoint) (scriptCap : Nat)
    : coinsRamGet sys op scriptCap = coinsKvGetSqlite effective op scriptCap := by
  rw [coinsRamGet, refines.holds.slotOf op]
  cases found : overlay.lookup op with
  | none => simp only [coinsKvGetSqlite, refines.lookup_of_miss found]
  | some slot => simp only [coinsKvGetSqlite, refines.lookup_of_slot found]

theorem System.Refines.getPrevout (op : Outpoint) (scriptCap : Nat)
    : coinsRamGetPrevout sys op scriptCap = coinsKvGetPrevoutSqlite effective op scriptCap := by
  rw [coinsRamGetPrevout, refines.holds.slotOf op]
  cases found : overlay.lookup op with
  | none => simp only [coinsKvGetPrevoutSqlite, refines.lookup_of_miss found]
  | some slot => simp only [coinsKvGetPrevoutSqlite, refines.lookup_of_slot found]

theorem System.Refines.exists_ (op : Outpoint)
    : coinsRamExists sys op = coinsKvExistsSqlite effective op := by
  rw [coinsRamExists, refines.holds.slotOf op]
  cases found : overlay.lookup op with
  | none => simp only [coinsKvExistsSqlite, refines.lookup_of_miss found]
  | some slot => simp only [coinsKvExistsSqlite, refines.lookup_of_slot found]

end

-- Count

/-- A table with one slot laid over it. -/
def shadowOne (coins : CoinTable) (entry : Outpoint × Option Coin) : CoinTable :=
  match entry.2 with
  | some coin => coins.insert entry.1 coin
  | none => coins.erase entry.1

def shadow (coins : CoinTable) (overlaid : List (Outpoint × Option Coin)) : CoinTable :=
  overlaid.foldl shadowOne coins

theorem lookup_shadowOne (coins : CoinTable) (entry : Outpoint × Option Coin) (op : Outpoint)
    : (shadowOne coins entry).lookup op = if op = entry.1 then entry.2 else coins.lookup op := by
  obtain ⟨key, slot⟩ := entry
  cases slot with
  | some coin => exact lookup_insert_eq coins key op coin
  | none => exact lookup_erase_eq coins key op

variable {overlaid : List (Outpoint × Option Coin)}

theorem lookup_shadow_of_notMem (absent : op ∉ overlaid.map Prod.fst) (coins : CoinTable)
    : (shadow coins overlaid).lookup op = coins.lookup op := by
  induction overlaid generalizing coins with
  | nil => rfl
  | cons entry rest ih =>
    rw [List.map_cons, List.mem_cons, not_or] at absent
    have step : shadow coins (entry :: rest) = shadow (shadowOne coins entry) rest := rfl
    rw [step, ih absent.2, lookup_shadowOne, if_neg absent.1]

theorem lookup_shadow_of_mem (distinct : (overlaid.map Prod.fst).Nodup)
    {entry : Outpoint × Option Coin} (member : entry ∈ overlaid) (coins : CoinTable)
    : (shadow coins overlaid).lookup entry.1 = entry.2 := by
  induction overlaid generalizing coins with
  | nil => cases member
  | cons first rest ih =>
    rw [List.map_cons, List.nodup_cons] at distinct
    have step : shadow coins (first :: rest) = shadow (shadowOne coins first) rest := rfl
    rw [step]
    rcases List.mem_cons.mp member with rfl | later
    · rw [lookup_shadow_of_notMem distinct.1, lookup_shadowOne, if_pos rfl]
    · exact ih distinct.2 later _

theorem countAdjust_eq_rowCount {base coins : CoinTable} {entry : Outpoint × Option Coin}
    (agrees : base.lookup entry.1 = coins.lookup entry.1)
    : countAdjust base (rowCount coins) entry = rowCount (shadowOne coins entry) := by
  obtain ⟨key, slot⟩ := entry
  have same : coinsKvExistsSqlite base key = decide (key ∈ coins) := by
    rw [coinsKvExistsSqlite, agrees, Bool.eq_iff_iff, Finmap.lookup_isSome, decide_eq_true_eq]
  cases slot with
  | some coin =>
    simp only [countAdjust, shadowOne, same, rowCount_insert, decide_eq_true_eq]
    split <;> omega
  | none =>
    simp only [countAdjust, shadowOne, same, rowCount_erase, decide_eq_true_eq]
    split <;> omega

theorem foldl_countAdjust {base coins : CoinTable} (distinct : (overlaid.map Prod.fst).Nodup)
    (agrees : ∀ entry ∈ overlaid, base.lookup entry.1 = coins.lookup entry.1)
    : overlaid.foldl (countAdjust base) (rowCount coins) = rowCount (shadow coins overlaid) := by
  induction overlaid generalizing coins with
  | nil => rfl
  | cons entry rest ih =>
    rw [List.map_cons, List.nodup_cons] at distinct
    rw [List.foldl_cons, countAdjust_eq_rowCount (agrees entry List.mem_cons_self)]
    refine ih distinct.2 fun other member => ?_
    have differs : other.1 ≠ entry.1 := fun same =>
      distinct.1 (same ▸ List.mem_map_of_mem member)
    rw [lookup_shadowOne, if_neg differs]
    exact agrees other (List.mem_cons_of_mem _ member)

theorem System.Refines.shadow_eq (refines : sys.Refines overlay effective)
    : shadow sys.db.coins (entries sys.ram.slots) = effective := by
  have distinct := refines.holds.indexed.nodup_entries
  apply Finmap.ext_lookup
  intro op
  cases found : overlay.lookup op with
  | none =>
    rw [refines.lookup_of_miss found]
    refine lookup_shadow_of_notMem ?_ _
    intro member
    obtain ⟨entry, present, rfl⟩ := List.mem_map.mp member
    have slot := (refines.holds.shows entry.1 entry.2).mpr (mem_entries.mp present)
    rw [found] at slot
    cases slot
  | some slot =>
    rw [refines.lookup_of_slot found]
    have present := mem_entries.mpr ((refines.holds.shows op slot).mp found)
    exact lookup_shadow_of_mem distinct present _

theorem System.Refines.count (refines : sys.Refines overlay effective)
    : coinsRamCount sys = coinsKvCountSqlite effective := by
  have overEntries : coinsRamCount sys
      = (entries sys.ram.slots).foldl (countAdjust sys.db.coins) (rowCount sys.db.coins) := by
    rw [coinsRamCount, entries, List.foldl_filterMap, coinsKvCountSqlite]
    congr 1
    funext eff cell
    cases cell <;> rfl
  rw [overEntries, foldl_countAdjust refines.holds.indexed.nodup_entries fun _ _ => rfl,
    refines.shadow_eq, coinsKvCountSqlite]

end Reads

end Z23.Storage.CoinsRam
