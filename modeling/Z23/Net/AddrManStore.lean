import Z23.Net.AddrManTables

/-!
The entries of the address manager against its random order and its index: each entry in use
stands once in the order, at the position it records, and once in the index.
-/

namespace Z23.Net

open Z23.Lib.Tombstones
open Z23.Lib.TombTable

namespace AddrMan

variable {am am' : AddrMan} {id : Nat}

-- Entries in use

theorem nodup_usedIds (am : AddrMan) : am.usedIds.Nodup :=
  List.nodup_range.filter _

theorem usedIds_congr (idCount : am'.idCount = am.idCount)
    (used : ∀ id, (am'.entry id).used = (am.entry id).used)
    : am'.usedIds = am.usedIds := by
  simp only [usedIds, idCount, used]

theorem indexRows_congr (idCount : am'.idCount = am.idCount)
    (used : ∀ id, (am'.entry id).used = (am.entry id).used)
    (svc : ∀ id, (am'.entry id).addr.svc = (am.entry id).addr.svc)
    : am'.indexRows = am.indexRows := by
  simp only [indexRows, usedIds_congr idCount used, svc]

theorem mem_indexRows {addr : NetAddr}
    : (addr, id) ∈ am.indexRows ↔ am.Live id ∧ (am.entry id).addr.svc.addr = addr := by
  rw [indexRows, List.mem_map]
  constructor
  · rintro ⟨other, member, same⟩
    cases same
    exact ⟨mem_usedIds.mp member, rfl⟩
  · rintro ⟨live, same⟩
    exact ⟨id, mem_usedIds.mpr live, by rw [same]⟩

/-- The random order is a permutation of the entries in use and the index holds their addresses. -/
structure Stored (am : AddrMan) : Prop where
  positive : 0 < am.entries.length
  bounded : am.entries.length ≤ addrmanMaxEntries
  counted : am.idCount ≤ am.entries.length
  unused : ∀ id, am.idCount ≤ id → (am.entry id).used = false
  order : am.randomOrder.Perm am.usedIds
  positions : ∀ (i id : Nat), am.randomOrder[i]? = some id → (am.entry id).randomPos = i
  index : am.idx.Holds addrIndexHash am.indexRows
  roomy : am.idx.Roomy 0

/-- What the order and the index read of an entry. -/
structure SamePlace (info info' : AddrInfo) : Prop where
  used : info'.used = info.used
  svc : info'.addr.svc = info.addr.svc
  randomPos : info'.randomPos = info.randomPos

theorem SamePlace.refl (info : AddrInfo) : SamePlace info info := ⟨rfl, rfl, rfl⟩

section

variable (stored : am.Stored)
include stored

theorem Stored.congr (entries : ∀ id, SamePlace (am.entry id) (am'.entry id))
    (idCount : am'.idCount = am.idCount) (capacity : am'.entries.length = am.entries.length)
    (idx : am'.idx = am.idx) (randomOrder : am'.randomOrder = am.randomOrder)
    : am'.Stored where
  positive := capacity ▸ stored.positive
  bounded := capacity ▸ stored.bounded
  counted := by
    rw [idCount, capacity]
    exact stored.counted
  unused := by
    intro id above
    rw [(entries id).used]
    exact stored.unused id (idCount ▸ above)
  order := by
    rw [randomOrder, usedIds_congr idCount fun id => (entries id).used]
    exact stored.order
  positions := by
    intro i id read
    rw [(entries id).randomPos]
    exact stored.positions i id (randomOrder ▸ read)
  index := by
    rw [idx, indexRows_congr idCount (fun id => (entries id).used) fun id => (entries id).svc]
    exact stored.index
  roomy := idx ▸ stored.roomy

theorem Stored.live_lt (live : am.Live id) : id < am.entries.length :=
  Nat.lt_of_lt_of_le live.1 stored.counted

theorem Stored.mem_randomOrder : id ∈ am.randomOrder ↔ am.Live id :=
  stored.order.mem_iff.trans mem_usedIds

theorem Stored.nodup : am.randomOrder.Nodup :=
  stored.order.nodup_iff.mpr am.nodup_usedIds

theorem Stored.slots_ne_zero : am.idx.slots.length ≠ 0 :=
  Nat.ne_of_gt (Nat.lt_of_le_of_lt (Nat.zero_le _) stored.roomy.live_lt)

theorem Stored.findAddr_eq_some {addr : NetAddr}
    : am.findAddr addr = some id ↔ am.Live id ∧ (am.entry id).addr.svc.addr = addr := by
  rw [findAddr, if_neg stored.slots_ne_zero, Option.filter_eq_some_iff, indexLookup,
    stored.index.lookup_eq_some_iff, mem_indexRows]
  refine ⟨fun found => found.1, fun found => ⟨found, ?_⟩⟩
  simp [stored.live_lt found.1, found.1.2, found.2]

theorem Stored.findAddr_eq_none {addr : NetAddr}
    : am.findAddr addr = none ↔ ∀ id, am.Live id → (am.entry id).addr.svc.addr ≠ addr := by
  rw [Option.eq_none_iff_forall_ne_some]
  refine forall_congr' fun id => ?_
  rw [ne_eq, stored.findAddr_eq_some, not_and]

end

-- Swapping in the random order

theorem swap_perm {l : List Nat} {p1 p2 id1 id2 : Nat} (differs : p1 ≠ p2)
    (first : l[p1]? = some id1) (second : l[p2]? = some id2)
    : ((l.set p1 id2).set p2 id1).Perm l := by
  have between : (l.set p1 id2)[p2]? = some id2 := by
    rw [List.getElem?_set, if_neg differs, second]
  have inner := set_swap_perm first id2
  have outer := set_swap_perm between id1
  exact (outer.trans inner).cons_inv

/-- A swap moves positions of the order only. -/
structure Swapped (am am' : AddrMan) : Prop where
  nKey : am'.nKey = am.nKey
  idCount : am'.idCount = am.idCount
  capacity : am'.entries.length = am.entries.length
  entries : ∀ id, SameInfo (am.entry id) (am'.entry id)
  idx : am'.idx = am.idx
  size : am'.randomOrder.length = am.randomOrder.length
  vvNew : am'.vvNew = am.vvNew
  vvTried : am'.vvTried = am.vvTried
  newCount : am'.newCount = am.newCount
  triedCount : am'.triedCount = am.triedCount

theorem Swapped.refl (am : AddrMan) : Swapped am am :=
  ⟨rfl, rfl, rfl, fun _ => SameInfo.refl _, rfl, rfl, rfl, rfl, rfl, rfl⟩

theorem entry_swap {id1 id2 p1 p2 : Nat} (inside1 : id1 < am.entries.length)
    (inside2 : id2 < am.entries.length) (other : Nat)
    : ((am.modifyEntry id1 fun info => { info with randomPos := p2 }).modifyEntry id2
          fun info => { info with randomPos := p1 }).entry other
        = { am.entry other with
            randomPos := if other = id2 then p1 else if other = id1 then p2
              else (am.entry other).randomPos } := by
  rw [entry_modifyEntry (by rwa [modifyEntry_length]), entry_modifyEntry inside1,
    entry_modifyEntry inside1]
  by_cases second : other = id2
  · subst second
    rw [if_pos rfl, if_pos rfl]
    split
    · rename_i same
      rw [same]
    · rfl
  · rw [if_neg second, if_neg second]
    by_cases first : other = id1
    · rw [if_pos first, if_pos first, first]
    · rw [if_neg first, if_neg first]

theorem swapRandom_swapped (am : AddrMan) (p1 p2 : Nat) : Swapped am (am.swapRandom p1 p2) := by
  rw [swapRandom]
  split
  · exact Swapped.refl am
  · split
    · split
      · exact Swapped.refl am
      · rename_i id1 id2 _ _ inside
        rw [not_or, ge_iff_le, ge_iff_le, Nat.not_le, Nat.not_le] at inside
        refine ⟨rfl, rfl, by simp, ?_, rfl, by simp, rfl, rfl, rfl, rfl⟩
        intro id
        have moved := @entry_swap am id1 id2 p1 p2 inside.1 inside.2 id
        change SameInfo _ (((am.modifyEntry id1 _).modifyEntry id2 _).entry id)
        rw [moved]
        exact ⟨rfl, rfl, rfl, rfl⟩
    · exact Swapped.refl am

theorem Stored.swapRandom_order (stored : am.Stored) {p1 p2 id1 id2 : Nat} (differs : p1 ≠ p2)
    (first : am.randomOrder[p1]? = some id1) (second : am.randomOrder[p2]? = some id2)
    : (am.swapRandom p1 p2).randomOrder = (am.randomOrder.set p1 id2).set p2 id1
        ∧ ∀ other, ((am.swapRandom p1 p2).entry other).randomPos
            = if other = id2 then p1 else if other = id1 then p2
              else (am.entry other).randomPos := by
  have inside1 := stored.live_lt (stored.mem_randomOrder.mp (List.mem_of_getElem? first))
  have inside2 := stored.live_lt (stored.mem_randomOrder.mp (List.mem_of_getElem? second))
  have within : ¬ (id1 ≥ am.entries.length ∨ id2 ≥ am.entries.length) := by omega
  have outcome : am.swapRandom p1 p2
      = { (am.modifyEntry id1 fun info => { info with randomPos := p2 }).modifyEntry id2
            fun info => { info with randomPos := p1 } with
          randomOrder := (am.randomOrder.set p1 id2).set p2 id1 } := by
    rw [swapRandom, if_neg differs, first, second]
    dsimp only
    rw [if_neg within]
  rw [outcome]
  refine ⟨rfl, fun other => ?_⟩
  exact congrArg AddrInfo.randomPos (entry_swap inside1 inside2 other)

theorem Stored.swapRandom (stored : am.Stored) (p1 p2 : Nat) : (am.swapRandom p1 p2).Stored := by
  have swapped := swapRandom_swapped am p1 p2
  by_cases moves : p1 ≠ p2 ∧ p1 < am.randomOrder.length ∧ p2 < am.randomOrder.length
  · obtain ⟨differs, inside1, inside2⟩ := moves
    have first := List.getElem?_eq_getElem inside1
    have second := List.getElem?_eq_getElem inside2
    generalize am.randomOrder[p1] = id1 at first
    generalize am.randomOrder[p2] = id2 at second
    obtain ⟨order, positions⟩ := stored.swapRandom_order differs first second
    have unequal : id1 ≠ id2 := by
      intro same
      subst same
      exact differs ((List.getElem?_inj inside1 stored.nodup).mp (first.trans second.symm))
    constructor
    · exact swapped.capacity ▸ stored.positive
    · exact swapped.capacity ▸ stored.bounded
    · rw [swapped.idCount, swapped.capacity]
      exact stored.counted
    · intro id above
      rw [(swapped.entries id).used]
      exact stored.unused id (swapped.idCount ▸ above)
    · rw [order, usedIds_congr swapped.idCount fun id => (swapped.entries id).used]
      exact (swap_perm differs first second).trans stored.order
    · intro i id read
      rw [positions]
      rw [order, List.getElem?_set, List.getElem?_set, List.length_set] at read
      split at read
      · rename_i atSecond
        cases read
        rw [if_neg unequal, if_pos rfl, atSecond]
      · rename_i notSecond
        split at read
        · rename_i atFirst
          cases read
          rw [if_pos rfl, atFirst]
        · rename_i notFirst
          obtain ⟨inside, -⟩ := List.getElem?_eq_some_iff.mp read
          have notSame2 : id ≠ id2 := by
            intro same
            subst same
            exact notSecond ((List.getElem?_inj inside stored.nodup).mp (read.trans second.symm)).symm
          have notSame1 : id ≠ id1 := by
            intro same
            subst same
            exact notFirst ((List.getElem?_inj inside stored.nodup).mp (read.trans first.symm)).symm
          rw [if_neg notSame2, if_neg notSame1]
          exact stored.positions i id read
    · rw [swapped.idx, indexRows_congr swapped.idCount (fun id => (swapped.entries id).used)
        fun id => (swapped.entries id).svc]
      exact stored.index
    · exact swapped.idx ▸ stored.roomy
  · have same : am.swapRandom p1 p2 = am := by
      rw [AddrMan.swapRandom]
      by_cases equal : p1 = p2
      · rw [if_pos equal]
      · rw [if_neg equal]
        by_cases inside1 : p1 < am.randomOrder.length
        · have outside2 : am.randomOrder.length ≤ p2 := by
            by_contra inside2
            exact moves ⟨equal, inside1, Nat.not_le.mp inside2⟩
          rw [List.getElem?_eq_none outside2]
          cases am.randomOrder[p1]? <;> rfl
        · rw [List.getElem?_eq_none (Nat.not_lt.mp inside1)]
    rw [same]
    exact stored

-- Deleting

/-- The last step of a deletion: the entry stands at the end of the order. -/
def dropLastEntry (am : AddrMan) (id : Nat) : AddrMan :=
  ({ am with
      idx := am.idx.remove addrIndexHash (am.entry id).addr.svc.addr
      randomOrder := am.randomOrder.dropLast } : AddrMan).retire id

theorem indexRemove_swapRandom (am : AddrMan) (addr : NetAddr) (p1 p2 : Nat)
    : (am.indexRemove addr).swapRandom p1 p2
        = { am.swapRandom p1 p2 with idx := am.idx.remove addrIndexHash addr } := by
  simp only [swapRandom, indexRemove, modifyEntry]
  by_cases same : p1 = p2
  · simp only [if_pos same]
  · simp only [if_neg same]
    cases am.randomOrder[p1]? with
    | none => rfl
    | some id1 =>
      cases am.randomOrder[p2]? with
      | none => rfl
      | some id2 =>
        by_cases outside : id1 ≥ am.entries.length ∨ id2 ≥ am.entries.length
        · simp only [if_pos outside]
          exact if_pos outside
        · simp only [if_neg outside]
          exact if_neg outside

theorem deleteEntry_eq (am : AddrMan) (id : Nat)
    : am.deleteEntry id
        = (am.swapRandom (am.entry id).randomPos (am.randomOrder.length - 1)).dropLastEntry id := by
  have kept := swapRandom_swapped am (am.entry id).randomPos (am.randomOrder.length - 1)
  have moved := indexRemove_swapRandom am (am.entry id).addr.svc.addr (am.entry id).randomPos
    (am.randomOrder.length - 1)
  have unfolded : am.deleteEntry id
      = ({ (am.indexRemove (am.entry id).addr.svc.addr).swapRandom (am.entry id).randomPos
              (am.randomOrder.length - 1) with
            randomOrder := ((am.indexRemove (am.entry id).addr.svc.addr).swapRandom
              (am.entry id).randomPos (am.randomOrder.length - 1)).randomOrder.dropLast }
          : AddrMan).retire id := rfl
  rw [unfolded, moved, dropLastEntry, (kept.entries id).svc, kept.idx]

theorem usedIds_perm_of_retired (live : am.Live id) (idCount : am'.idCount = am.idCount)
    (others : ∀ other, other ≠ id → (am'.entry other).used = (am.entry other).used)
    (idle : (am'.entry id).used = false)
    : am.usedIds.Perm (id :: am'.usedIds) := by
  refine (List.perm_cons_erase (mem_usedIds.mpr live)).trans (List.Perm.of_eq ?_)
  rw [am.nodup_usedIds.erase_eq_filter, usedIds, usedIds, List.filter_filter, idCount]
  refine congrArg (id :: ·) (List.filter_congr fun other _ => ?_)
  by_cases same : other = id
  · simp [same, idle]
  · simp [same, others other same]

theorem Stored.dropLastEntry (stored : am.Stored) {front : List Nat}
    (last : am.randomOrder = front ++ [id])
    : (am.dropLastEntry id).Stored := by
  have live : am.Live id :=
    stored.mem_randomOrder.mp (last ▸ List.mem_append_right _ List.mem_cons_self)
  have inside := stored.live_lt live
  have entries : ∀ other, (am.dropLastEntry id).entry other
      = if other = id then { am.entry id with used := false } else am.entry other :=
    fun other => entry_modifyEntry (by exact inside) _ other
  have svc : ∀ other, ((am.dropLastEntry id).entry other).addr.svc = (am.entry other).addr.svc := by
    intro other
    rw [entries]
    split
    · rename_i same
      rw [same]
    · rfl
  have shorter : (am.dropLastEntry id).randomOrder = front := by
    change am.randomOrder.dropLast = front
    rw [last, List.dropLast_concat]
  have parts : am.usedIds.Perm (id :: (am.dropLastEntry id).usedIds) := by
    refine usedIds_perm_of_retired live rfl ?_ ?_
    · intro other differs
      rw [entries, if_neg differs]
    · rw [entries, if_pos rfl]
  have rows : am.indexRows.Perm
      (((am.entry id).addr.svc.addr, id) :: (am.dropLastEntry id).indexRows) := by
    have mapped := parts.map fun other => ((am.entry other).addr.svc.addr, other)
    rw [List.map_cons] at mapped
    simpa only [indexRows, svc] using mapped
  obtain ⟨index, capacity, load⟩ := stored.index.remove rows
  constructor
  · exact (modifyEntry_length _ _ _).symm ▸ stored.positive
  · exact (modifyEntry_length _ _ _).symm ▸ stored.bounded
  · exact (modifyEntry_length _ _ _).symm ▸ stored.counted
  · intro other above
    rw [entries]
    split
    · rfl
    · exact stored.unused other above
  · rw [shorter]
    have whole := last ▸ stored.order
    exact ((List.perm_append_singleton id front).symm.trans (whole.trans parts)).cons_inv
  · intro i other read
    rw [shorter] at read
    obtain ⟨before, -⟩ := List.getElem?_eq_some_iff.mp read
    have position := stored.positions i other (by rw [last, List.getElem?_append_left before, read])
    rw [entries]
    split
    · rename_i same
      rw [← position, same]
    · exact position
  · exact index
  · have roomy := stored.roomy
    rw [Table.Roomy] at roomy ⊢
    change ((am.idx.remove addrIndexHash (am.entry id).addr.svc.addr).load + 0) * 2
      < (am.idx.remove addrIndexHash (am.entry id).addr.svc.addr).slots.length
    rwa [load, capacity]

theorem Stored.swapRandom_last (stored : am.Stored) (live : am.Live id)
    : ∃ front, (am.swapRandom (am.entry id).randomPos (am.randomOrder.length - 1)).randomOrder
        = front ++ [id] := by
  obtain ⟨i, inside, here⟩ := List.getElem_of_mem (stored.mem_randomOrder.mpr live)
  have read : am.randomOrder[i]? = some id := by rw [List.getElem?_eq_getElem inside, here]
  have position := stored.positions i id read
  have nonempty : am.randomOrder ≠ [] := List.ne_nil_of_mem (stored.mem_randomOrder.mpr live)
  have lastInside : am.randomOrder.length - 1 < am.randomOrder.length := by omega
  rw [position]
  by_cases atEnd : i = am.randomOrder.length - 1
  · rw [AddrMan.swapRandom, if_pos atEnd]
    refine ⟨am.randomOrder.dropLast, ?_⟩
    have lastIs : am.randomOrder.getLast nonempty = id := by
      rw [List.getLast_eq_getElem, ← here]
      congr 1
      exact atEnd.symm
    rw [← lastIs, List.dropLast_concat_getLast]
  · have lastRead := List.getElem?_eq_getElem lastInside
    obtain ⟨order, -⟩ := stored.swapRandom_order atEnd read lastRead
    rw [order]
    refine ⟨(am.randomOrder.set i (am.randomOrder[am.randomOrder.length - 1])).dropLast, ?_⟩
    apply List.ext_getElem?
    intro place
    rw [List.getElem?_set, List.length_set]
    by_cases same : am.randomOrder.length - 1 = place
    · rw [if_pos same, if_pos lastInside, List.getElem?_append_right (by simp; omega)]
      simp [same]
    · rw [if_neg same]
      by_cases below : place < am.randomOrder.length - 1
      · rw [List.getElem?_append_left (by simpa using below), List.getElem?_dropLast,
          List.length_set, if_pos below]
      · rw [List.getElem?_eq_none (by rw [List.length_set]; omega),
          List.getElem?_eq_none (by simp; omega)]

theorem Stored.deleteEntry (stored : am.Stored) (live : am.Live id)
    : (am.deleteEntry id).Stored := by
  rw [deleteEntry_eq]
  obtain ⟨front, last⟩ := stored.swapRandom_last live
  exact (stored.swapRandom _ _).dropLastEntry last

-- Creating

theorem entry_append_zero (am : AddrMan) (count id : Nat)
    : ({ am with entries := am.entries ++ List.replicate count .zero } : AddrMan).entry id
        = am.entry id := by
  simp only [entry, List.getD_eq_getElem?_getD]
  by_cases inside : id < am.entries.length
  · rw [List.getElem?_append_left inside]
  · rw [List.getElem?_append_right (Nat.not_lt.mp inside), List.getElem?_eq_none (Nat.not_lt.mp inside),
      List.getElem?_replicate]
    split <;> rfl

theorem Stored.growEntries (stored : am.Stored) (room : am.idCount < addrmanMaxEntries)
    : ∃ count, am.growEntries am.idCount
          = some { am with entries := am.entries ++ List.replicate count .zero }
        ∧ am.idCount < am.entries.length + count
        ∧ am.entries.length + count ≤ addrmanMaxEntries := by
  have positive := stored.positive
  have bounded := stored.bounded
  have counted := stored.counted
  rw [AddrMan.growEntries]
  split
  · have fits : ¬ am.idCount ≥ min (am.entries.length * 2) addrmanMaxEntries := by omega
    refine ⟨min (am.entries.length * 2) addrmanMaxEntries - am.entries.length, ?_, ?_, ?_⟩
    · dsimp only
      rw [if_neg fits]
    · omega
    · omega
  · exact ⟨0, by simp, by omega, by omega⟩

theorem createEntry_eq_none (stored : am.Stored) (full : addrmanMaxEntries ≤ am.idCount)
    (addr : NetAddress) (source : NetAddr)
    : am.createEntry addr source = none := by
  have bounded := stored.bounded
  have counted := stored.counted
  have refused : am.growEntries am.idCount = none := by
    rw [AddrMan.growEntries, if_pos (by omega)]
    dsimp only
    rw [if_pos (by omega)]
  rw [createEntry]
  dsimp only
  rw [refused]
  rfl

/-- What a new entry changes. -/
structure Created (am am' : AddrMan) (addr : NetAddress) (source : NetAddr) : Prop where
  nKey : am'.nKey = am.nKey
  idCount : am'.idCount = am.idCount + 1
  capacity : am'.idCount ≤ am'.entries.length
  entries
    : ∀ id, am'.entry id
        = if id = am.idCount then freshEntry addr source am.randomOrder.length else am.entry id
  vvNew : am'.vvNew = am.vvNew
  vvTried : am'.vvTried = am.vvTried
  newCount : am'.newCount = am.newCount
  triedCount : am'.triedCount = am.triedCount

variable {addr : NetAddress} {source : NetAddr}

section

variable (created : Created am am' addr source)
include created

theorem Created.live_self : am'.Live am.idCount := by
  rw [Live, created.idCount, created.entries, if_pos rfl]
  exact ⟨Nat.lt_succ_self _, rfl⟩

theorem Created.live_iff {id : Nat} (differs : id ≠ am.idCount) : am'.Live id ↔ am.Live id := by
  rw [Live, Live, created.idCount, created.entries, if_neg differs]
  have step : id < am.idCount + 1 ↔ id < am.idCount := by omega
  rw [step]

theorem Created.usedIds : am'.usedIds = am.usedIds ++ [am.idCount] := by
  have last : (am'.entry am.idCount).used = true := created.live_self.2
  rw [AddrMan.usedIds, AddrMan.usedIds, created.idCount, List.range_succ, List.filter_append,
    @List.filter_cons_of_pos _ (fun id => (am'.entry id).used) _ _ last, List.filter_nil]
  refine congrArg (· ++ [am.idCount]) (List.filter_congr fun id member => ?_)
  rw [created.entries, if_neg (Nat.ne_of_lt (List.mem_range.mp member))]

theorem Created.indexRows : am'.indexRows.Perm ((addr.svc.addr, am.idCount) :: am.indexRows) := by
  rw [AddrMan.indexRows, created.usedIds, List.map_append, List.map_singleton, created.entries,
    if_pos rfl]
  refine (List.perm_append_singleton _ _).trans (List.Perm.of_eq (congrArg _ ?_))
  refine List.map_congr_left fun id member => ?_
  rw [created.entries, if_neg (Nat.ne_of_lt (mem_usedIds.mp member).1)]

end

theorem Stored.createEntry (stored : am.Stored) (source : NetAddr)
    (unknown : am.findAddr addr.svc.addr = none) (room : am.idCount < addrmanMaxEntries)
    : ∃ am', am.createEntry addr source = some (am', am.idCount)
        ∧ Created am am' addr source ∧ am'.Stored := by
  obtain ⟨count, grown, inside, bounded⟩ := stored.growEntries room
  obtain ⟨reserved, roomy⟩ := stored.index.reserveOne stored.roomy
  have rows : ({ am with entries := am.entries ++ List.replicate count .zero } : AddrMan).indexRows
      = am.indexRows := by
    simp only [AddrMan.indexRows, AddrMan.usedIds, entry_append_zero]
  obtain ⟨am', made⟩ : ∃ am' : AddrMan, am' = { am with
      idCount := am.idCount + 1
      entries := (am.entries ++ List.replicate count AddrInfo.zero).set am.idCount
        (freshEntry addr source am.randomOrder.length)
      idx := (am.idx.reserveOne addrIndexHash am.indexRows).insertRaw addrIndexHash addr.svc.addr
        am.idCount
      randomOrder := am.randomOrder ++ [am.idCount] } := ⟨_, rfl⟩
  have growth : am.createEntry addr source = some (am', am.idCount) := by
    rw [AddrMan.createEntry, made, ← rows]
    dsimp only
    rw [grown]
    rfl
  have absent : ∀ id, (addr.svc.addr, id) ∉ am.indexRows := by
    intro id member
    obtain ⟨live, same⟩ := mem_indexRows.mp member
    exact stored.findAddr_eq_none.mp unknown id live same
  have within : am.idCount < (am.entries ++ List.replicate count AddrInfo.zero).length := by
    rwa [List.length_append, List.length_replicate]
  have order : am'.randomOrder = am.randomOrder ++ [am.idCount] := by rw [made]
  have idx : am'.idx = (am.idx.reserveOne addrIndexHash am.indexRows).insertRaw addrIndexHash
      addr.svc.addr am.idCount := by rw [made]
  have capacity : am'.entries.length = am.entries.length + count := by
    rw [made, List.length_set, List.length_append, List.length_replicate]
  have created : Created am am' addr source := by
    constructor
    · rw [made]
    · rw [made]
    · rw [capacity, made]
      exact inside
    · intro id
      rw [made, entry, List.getD_eq_getElem?_getD, List.getElem?_set]
      by_cases same : id = am.idCount
      · rw [if_pos same.symm, if_pos same, if_pos within]
        rfl
      · rw [if_neg (Ne.symm same), if_neg same, ← List.getD_eq_getElem?_getD]
        exact entry_append_zero am count id
    all_goals rw [made]
  refine ⟨am', growth, created, ?_⟩
  constructor
  · rw [capacity]
    have positive := stored.positive
    omega
  · rw [capacity]
    exact bounded
  · exact created.capacity
  · intro id above
    rw [created.idCount] at above
    rw [created.entries, if_neg (by omega)]
    exact stored.unused id (by omega)
  · rw [order, created.usedIds]
    exact stored.order.append_right _
  · intro i id read
    rw [order] at read
    rw [created.entries]
    by_cases inOld : i < am.randomOrder.length
    · rw [List.getElem?_append_left inOld] at read
      have live := stored.mem_randomOrder.mp (List.mem_of_getElem? read)
      rw [if_neg (Nat.ne_of_lt live.1)]
      exact stored.positions i id read
    · rw [List.getElem?_append_right (Nat.not_lt.mp inOld)] at read
      obtain ⟨last, same⟩ := List.getElem?_eq_some_iff.mp read
      rw [List.length_singleton] at last
      rw [List.getElem_singleton] at same
      rw [if_pos same.symm]
      change am.randomOrder.length = i
      omega
  · rw [idx]
    exact (reserved.insertRaw absent roomy.live_lt am.idCount).perm created.indexRows.symm
  · rw [idx]
    exact roomy.insertRaw _ _

section Tabled

variable {hash256 : List UInt8 → Uint256} {held : List Nat} {shift : Int}

theorem Tabled.created (tabled : am.Tabled hash256 held shift) {addr : NetAddress}
    {source : NetAddr} (created : Created am am' addr source)
    : am'.Tabled hash256 (am.idCount :: held) (shift - 1) := by
  have self : am'.entry am.idCount = freshEntry addr source am.randomOrder.length := by
    rw [created.entries, if_pos rfl]
  have unlisted : ¬ am.Live am.idCount := fun live => Nat.lt_irrefl _ live.1
  have notNew : some am.idCount ∉ am.vvNew := by
    intro member
    obtain ⟨slot, inside, here⟩ := List.getElem_of_mem member
    exact unlisted ((tabled.linked _).newSlots slot (by rw [List.getElem?_eq_getElem inside, here])).1
  have notTried : some am.idCount ∉ am.vvTried := fun member =>
    unlisted ((tabled.linked _).triedSlots member)
  have numbers : ∀ p : AddrInfo → Bool, am'.numberOf p
      = am.numberOf p + (p (freshEntry addr source am.randomOrder.length)).toNat := by
    intro p
    rw [numberOf, numberOf, created.usedIds, List.countP_append, List.countP_singleton, self]
    congr 1
    · refine List.countP_congr fun id member => ?_
      rw [created.entries, if_neg (Nat.ne_of_lt (mem_usedIds.mp member).1)]
    · cases p (freshEntry addr source am.randomOrder.length) <;> rfl
  constructor
  · exact created.capacity
  · rw [created.vvNew]
    exact tabled.newSize
  · rw [created.vvTried]
    exact tabled.triedSize
  · intro id
    by_cases same : id = am.idCount
    · subst same
      constructor
      · intro slot read
        rw [created.vvNew] at read
        exact absurd (List.mem_of_getElem? read) notNew
      · intro member
        rw [created.vvTried] at member
        exact absurd member notTried
      · intro _
        rw [self, created.vvNew, List.count_eq_zero_of_not_mem notNew]
        rfl
      · intro _
        rw [self, created.vvTried, List.count_eq_zero_of_not_mem notTried]
        rfl
      · intro _
        rw [self]
        exact Int.natCast_nonneg newBucketsPerAddress
      · intro _ _
        rw [self]
        rfl
      · intro _ _ free
        exact absurd List.mem_cons_self free
    · have linked := tabled.linked id
      have sameEntry : am'.entry id = am.entry id := by rw [created.entries, if_neg same]
      have live := created.live_iff same
      constructor
      · intro slot read
        rw [created.vvNew] at read
        rw [live, newPos, sameEntry, created.nKey]
        exact linked.newSlots slot read
      · intro member
        rw [created.vvTried] at member
        exact live.mpr (linked.triedSlots member)
      · rw [live, sameEntry, created.vvNew]
        exact linked.newRefs
      · rw [live, sameEntry, created.vvTried]
        exact linked.triedRefs
      · rw [live, sameEntry]
        exact linked.few
      · rw [live, sameEntry]
        exact linked.apart
      · rw [live, sameEntry]
        intro alive new free
        exact linked.placed alive new fun member => free (List.mem_cons_of_mem _ member)
  · rw [created.triedCount, created.vvTried]
    exact tabled.triedTotal
  · rw [created.triedCount, numbers]
    exact tabled.triedNumber
  · rw [created.newCount, numbers]
    have before := tabled.newNumber
    change am.newCount = ((am.numberOf _ + 1 : Nat) : Int) + (shift - 1)
    omega

end Tabled

end AddrMan

end Z23.Net
