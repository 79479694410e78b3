import Z23.Coins.CoinsMap

/-!
Coins view caches stacked on one another: lookups that fetch from the view below, entries handed
out for writing, and the transfer of the dirty entries of a child cache to its parent.

Allocations succeed. A view is its state with `get_coins`; the best block, the memory accounting and
the running commitment of a cache are left out, as no lookup reads them.
-/

namespace Z23.Coins

open Z23.Lib
open Z23.Lib.FiniteMap (Table)
open Z23.Lib.OpenTable (cellAt Contains entries)
open Z23.Validation (Coins coinsInit coinsMathIsPruned)

-- Views and caches

/-- The `get_coins` of a view, over its state. -/
structure View (σ : Type) where
  getCoins : σ → Uint256 → σ × Option Coins

/-- A cache over a view: its map and the state of the view below. -/
abbrev Cache (σ : Type) := CoinsMap × σ

def setCoins (coins : Coins) (entry : CoinsCacheEntry) : CoinsCacheEntry := { entry with coins }

def markDirty (entry : CoinsCacheEntry) : CoinsCacheEntry := { entry with dirty := true }

section Operations

variable {σ : Type} (base : View σ)

/-- Models `coins_view_cache_get_coins`. -/
def coinsViewCacheGetCoins (c : Cache σ) (txid : Uint256) : Cache σ × Option Coins :=
  match coinsMapFind c.1 txid with
  | some slot =>
    (c, (c.1.entryAt slot).bind fun entry =>
      if coinsMathIsPruned entry.coins then none else some entry.coins)
  | none =>
    match base.getCoins c.2 txid with
    | (s, none) => ((c.1, s), none)
    | (s, some fetched) =>
      match coinsMapInsert c.1 txid with
      | (m, none) => ((m, s), none)
      | (m, some slot) =>
        ((m.writeAt slot (setCoins fetched), s),
          if coinsMathIsPruned fetched then none else some fetched)

/-- Models `coins_view_cache_have_coins`. -/
def coinsViewCacheHaveCoins (c : Cache σ) (txid : Uint256) : Cache σ × Bool :=
  match coinsMapFind c.1 txid with
  | some slot => (c, (c.1.entryAt slot).any fun entry => !coinsMathIsPruned entry.coins)
  | none =>
    let (s, fetched) := base.getCoins c.2 txid
    ((c.1, s), fetched.isSome)

/-- Models `coins_view_cache_modify`: the slot of the entry it hands out. -/
def coinsViewCacheModify (c : Cache σ) (txid : Uint256) : Cache σ × Option Nat :=
  match coinsMapFind c.1 txid with
  | some slot => ((c.1.writeAt slot markDirty, c.2), some slot)
  | none =>
    match coinsMapInsert c.1 txid with
    | (m, none) => ((m, c.2), none)
    | (m, some slot) =>
      let (s, fetched) := base.getCoins c.2 txid
      ((m.writeAt slot fun entry =>
          markDirty (setCoins (fetched.getD entry.coins) entry), s), some slot)

/-- Models `coins_view_cache_modify_new`. -/
def coinsViewCacheModifyNew (c : Cache σ) (txid : Uint256) : Cache σ × Option Nat :=
  match coinsMapInsert c.1 txid with
  | (m, none) => ((m, c.2), none)
  | (m, some slot) =>
    ((m.writeAt slot fun entry => { entry with dirty := true, fresh := true }, c.2), some slot)

/-- Models `coins_view_cache_get_output_for`. -/
def coinsViewCacheGetOutputFor (c : Cache σ) (prevout : Outpoint) : Cache σ × Option TxOut :=
  match coinsMapFind c.1 prevout.hash with
  | some slot =>
    (c, (c.1.entryAt slot).bind fun entry => entry.coins.available prevout.n.toNat)
  | none =>
    match base.getCoins c.2 prevout.hash with
    | (s, none) => ((c.1, s), none)
    | (s, some coins) =>
      match coinsMapInsert c.1 prevout.hash with
      | (m, none) => ((m, s), none)
      | (m, some slot) =>
        ((m.writeAt slot fun _ => ⟨coins, false, false⟩, s),
          coins.available prevout.n.toNat)

/-- A cache as a view, for another cache to stand on. -/
def coinsViewCacheAsView : View (Cache σ) := ⟨coinsViewCacheGetCoins base⟩

end Operations

/-- The loop of `cvc_batch_write` over the entries of the child, with the map of the parent. -/
def cvcBatchWriteEntries (parent : CoinsMap) : List (Uint256 × CoinsCacheEntry) → CoinsMap × Bool
  | [] => (parent, true)
  | (txid, entry) :: rest =>
    if entry.dirty then
      match coinsMapInsert parent txid with
      | (parent, none) => (parent, false)
      | (parent, some dest) =>
        cvcBatchWriteEntries
          (parent.writeAt dest fun old => markDirty (setCoins entry.coins old)) rest
    else cvcBatchWriteEntries parent rest

/-- Models `cvc_batch_write`. -/
def cvcBatchWrite (parent mapCoins : CoinsMap) : CoinsMap × Bool :=
  cvcBatchWriteEntries parent (entries mapCoins.buckets)

/-- Writes the child to its parent, and empties it unless that fails. -/
def flushChild {σ : Type} (c : Cache (Cache σ)) : Cache (Cache σ) × Bool :=
  match cvcBatchWrite c.2.1 c.1 with
  | (parent, true) => ((coinsMapInit, (parent, c.2.2)), true)
  | (parent, false) => ((c.1, (parent, c.2.2)), false)

-- What a view answers

/-- A record as a lookup gives it. -/
def live (coins : Coins) : Option Coins := if coinsMathIsPruned coins then none else some coins

/-- The entries of a cache over what the view below answers. -/
def overlay (table : Table Uint256 CoinsCacheEntry) (under : Uint256 → Option Coins)
    (txid : Uint256) : Option Coins :=
  match table.lookup txid with
  | some entry => live entry.coins
  | none => under txid

/-- The entries that are not dirty are those of the view below. -/
def Clean (table : Table Uint256 CoinsCacheEntry) (under : Uint256 → Option Coins) : Prop :=
  ∀ txid entry, table.lookup txid = some entry → entry.dirty = false →
    under txid = some entry.coins

/-- In the states that `reads` relates to answers, a view gives these answers, now and after
every lookup, and none of them is pruned. -/
structure View.Answers {σ : Type} (view : View σ) (reads : σ → (Uint256 → Option Coins) → Prop)
    : Prop where
  get : ∀ {s answer} txid, reads s answer → (view.getCoins s txid).2 = answer txid
  kept : ∀ {s answer} txid, reads s answer → reads (view.getCoins s txid).1 answer
  live : ∀ {s answer txid coins}, reads s answer → answer txid = some coins →
    coinsMathIsPruned coins = false

/-- The states of a cache by what they answer. -/
def CacheReads {σ : Type} (reads : σ → (Uint256 → Option Coins) → Prop) (c : Cache σ)
    (answer : Uint256 → Option Coins) : Prop :=
  ∃ table under, c.1.Holds table ∧ reads c.2 under ∧ answer = overlay table under

theorem live_of_notPruned {coins : Coins} (notPruned : coinsMathIsPruned coins = false)
    : live coins = some coins := by
  rw [live, notPruned]
  rfl

theorem live_available (coins : Coins) (n : Nat)
    : coins.available n = (live coins).bind fun coins => coins.available n := by
  cases pruned : coinsMathIsPruned coins with
  | false => rw [live_of_notPruned pruned, Option.bind_some]
  | true =>
    rw [live, if_pos pruned, Option.bind_none, Coins.available]
    cases read : coins.vout[n]? with
    | none => rfl
    | some out =>
      have null : out.isNull = true := List.all_eq_true.mp pruned out (List.mem_of_getElem? read)
      rw [Option.filter_some, null]
      rfl

/-- What the lookups of a cache may do to its entries. -/
structure Kept (under : Uint256 → Option Coins) (table table' : Table Uint256 CoinsCacheEntry)
    : Prop where
  same : overlay table' under = overlay table under
  clean : Clean table under → Clean table' under

section Tables

variable {table : Table Uint256 CoinsCacheEntry} {under : Uint256 → Option Coins}
  {txid : Uint256}

theorem overlay_some {entry : CoinsCacheEntry} (present : table.lookup txid = some entry)
    : overlay table under txid = live entry.coins := by
  rw [overlay, present]

theorem overlay_none (absent : table.lookup txid = none)
    : overlay table under txid = under txid := by
  rw [overlay, absent]

theorem overlay_insert (table : Table Uint256 CoinsCacheEntry) (under : Uint256 → Option Coins)
    (txid : Uint256) (entry : CoinsCacheEntry)
    : overlay (table.insert txid entry) under
      = Function.update (overlay table under) txid (live entry.coins) := by
  funext other
  rw [overlay, FiniteMap.lookup_insert_eq]
  by_cases same : other = txid
  · rw [if_pos same, same, Function.update_self]
  · rw [if_neg same, Function.update_of_ne same, overlay]

theorem Kept.refl (under : Uint256 → Option Coins) (table : Table Uint256 CoinsCacheEntry)
    : Kept under table table :=
  ⟨rfl, id⟩

theorem Clean.insert_dirty (clean : Clean table under) {entry : CoinsCacheEntry}
    (dirty : entry.dirty = true) : Clean (table.insert txid entry) under := by
  intro other held found notDirty
  rw [FiniteMap.lookup_insert_eq] at found
  split at found
  · cases found
    rw [dirty] at notDirty
    cases notDirty
  · exact clean other held found notDirty

theorem Kept.fetch {coins : Coins} (absent : table.lookup txid = none)
    (below : under txid = some coins) (notPruned : coinsMathIsPruned coins = false)
    : Kept under table (table.insert txid ⟨coins, false, false⟩) where
  same := by
    have before : overlay table under txid = some coins := (overlay_none absent).trans below
    rw [overlay_insert, live_of_notPruned notPruned, ← before, Function.update_eq_self]
  clean := by
    intro clean other held found notDirty
    rw [FiniteMap.lookup_insert_eq] at found
    split at found
    · rename_i same
      cases found
      rw [same, below]
    · exact clean other held found notDirty

end Tables

-- Lookups

section Lookups

variable {σ : Type} {base : View σ} {reads : σ → (Uint256 → Option Coins) → Prop}
  {m : CoinsMap} {table : Table Uint256 CoinsCacheEntry}

theorem find_write {slot : Nat} {txid : Uint256} (holds : m.Holds table)
    (found : coinsMapFind m txid = some slot)
    : ∃ entry, table.lookup txid = some entry
        ∧ m.entryAt slot = some entry
        ∧ ∀ write, (m.writeAt slot write).Holds (table.insert txid (write entry)) := by
  obtain ⟨_, _, entry, cell, present⟩ := find_some holds.keeps found
  exact ⟨entry, present, entryAt_of_cell cell, writeAt_holds holds cell⟩

theorem insert_write (holds : m.Holds table) (txid : Uint256)
    : ∃ slot m', coinsMapInsert m txid = (m', some slot)
        ∧ ∀ write,
            (m'.writeAt slot write).Holds
              (table.insert txid (write ((table.lookup txid).getD .init))) := by
  obtain ⟨slot, m', ran, holds', cell⟩ := insert_holds holds txid
  refine ⟨slot, m', ran, fun write => ?_⟩
  have written := writeAt_holds holds' cell write
  rwa [Finmap.insert_insert] at written

variable {s : σ} {under : Uint256 → Option Coins}

theorem getCoins_spec (answers : base.Answers reads) (holds : m.Holds table)
    (below : reads s under) (txid : Uint256)
    : ∃ m' s' table',
        coinsViewCacheGetCoins base (m, s) txid = ((m', s'), overlay table under txid)
          ∧ m'.Holds table' ∧ reads s' under ∧ Kept under table table' := by
  rw [coinsViewCacheGetCoins]
  cases found : coinsMapFind m txid with
  | some slot =>
    obtain ⟨entry, present, read, _⟩ := find_write holds found
    refine ⟨m, s, table, ?_, holds, below, Kept.refl under table⟩
    dsimp only
    rw [read, overlay_some present]
    rfl
  | none =>
    have absent := find_none holds.keeps found
    have fetched := answers.get txid below
    have below' := answers.kept txid below
    rw [overlay_none absent]
    dsimp only
    cases got : base.getCoins s txid with
    | mk s' answer =>
      rw [got] at fetched below'
      cases answer with
      | none => exact ⟨m, s', table, by rw [← fetched], holds, below', Kept.refl under table⟩
      | some coins =>
        obtain ⟨slot, m', inserted, written⟩ := insert_write holds txid
        have notPruned := answers.live below fetched.symm
        have holds' := written (setCoins coins)
        rw [absent] at holds'
        refine ⟨m'.writeAt slot (setCoins coins), s', _, ?_, holds', below',
          Kept.fetch absent fetched.symm notPruned⟩
        rw [inserted]
        dsimp only
        rw [notPruned, ← fetched]
        rfl

theorem haveCoins_spec (answers : base.Answers reads) (holds : m.Holds table)
    (below : reads s under) (txid : Uint256)
    : ∃ s', coinsViewCacheHaveCoins base (m, s) txid
          = ((m, s'), (overlay table under txid).isSome)
        ∧ reads s' under := by
  rw [coinsViewCacheHaveCoins]
  cases found : coinsMapFind m txid with
  | some slot =>
    obtain ⟨entry, present, read, _⟩ := find_write holds found
    refine ⟨s, ?_, below⟩
    dsimp only
    rw [read, overlay_some present, live]
    cases pruned : coinsMathIsPruned entry.coins with
    | false => simp [pruned]
    | true => simp [pruned]
  | none =>
    have absent := find_none holds.keeps found
    refine ⟨(base.getCoins s txid).1, ?_, answers.kept txid below⟩
    rw [overlay_none absent, ← answers.get txid below]

theorem getOutputFor_spec (answers : base.Answers reads) (holds : m.Holds table)
    (below : reads s under) (prevout : Outpoint)
    : ∃ m' s' table',
        coinsViewCacheGetOutputFor base (m, s) prevout
            = ((m', s'),
                (overlay table under prevout.hash).bind fun coins =>
                  coins.available prevout.n.toNat)
          ∧ m'.Holds table' ∧ reads s' under ∧ Kept under table table' := by
  rw [coinsViewCacheGetOutputFor]
  cases found : coinsMapFind m prevout.hash with
  | some slot =>
    obtain ⟨entry, present, read, _⟩ := find_write holds found
    refine ⟨m, s, table, ?_, holds, below, Kept.refl under table⟩
    dsimp only
    rw [read, overlay_some present, Option.bind_some, live_available]
  | none =>
    have absent := find_none holds.keeps found
    have fetched := answers.get prevout.hash below
    have below' := answers.kept prevout.hash below
    rw [overlay_none absent]
    dsimp only
    cases got : base.getCoins s prevout.hash with
    | mk s' answer =>
      rw [got] at fetched below'
      cases answer with
      | none =>
        exact ⟨m, s', table, by rw [← fetched]; rfl, holds, below', Kept.refl under table⟩
      | some coins =>
        obtain ⟨slot, m', inserted, written⟩ := insert_write holds prevout.hash
        have notPruned := answers.live below fetched.symm
        refine ⟨m'.writeAt slot fun _ => ⟨coins, false, false⟩, s', _, ?_, written _, below',
          Kept.fetch absent fetched.symm notPruned⟩
        rw [inserted, ← fetched]
        rfl

theorem cache_answers (answers : base.Answers reads)
    : (coinsViewCacheAsView base).Answers (CacheReads reads) where
  get := by
    rintro ⟨m, s⟩ answer txid ⟨table, under, holds, below, rfl⟩
    obtain ⟨m', s', table', got, _⟩ := getCoins_spec answers holds below txid
    exact congrArg Prod.snd got
  kept := by
    rintro ⟨m, s⟩ answer txid ⟨table, under, holds, below, rfl⟩
    obtain ⟨m', s', table', got, holds', below', kept⟩ := getCoins_spec answers holds below txid
    have after : ((coinsViewCacheAsView base).getCoins (m, s) txid).1 = (m', s') :=
      congrArg Prod.fst got
    rw [after]
    exact ⟨table', under, holds', below', kept.same.symm⟩
  live := by
    rintro ⟨m, s⟩ answer txid coins ⟨table, under, holds, below, rfl⟩ found
    rw [overlay] at found
    split at found
    · rw [live] at found
      split at found
      · cases found
      · rename_i notPruned
        cases found
        exact Bool.eq_false_iff.mpr notPruned
    · exact answers.live below found

end Lookups

-- Writes

section Writes

variable {σ : Type} {base : View σ} {reads : σ → (Uint256 → Option Coins) → Prop}
  {m : CoinsMap} {s : σ} {table : Table Uint256 CoinsCacheEntry}
  {under : Uint256 → Option Coins}

theorem writeAt_writeAt (m : CoinsMap) (slot : Nat)
    (first second : CoinsCacheEntry → CoinsCacheEntry)
    : (m.writeAt slot first).writeAt slot second
      = m.writeAt slot fun entry => second (first entry) := by
  have read : cellAt (m.writeAt slot first).buckets slot
      = (cellAt m.buckets slot).map fun entry => (entry.1, first entry.2) := by
    by_cases inside : slot < m.buckets.length
    · rw [CoinsMap.writeAt, OpenTable.cellAt_set inside, if_pos rfl]
    · have outside := OpenTable.cellAt_eq_none_of_le (Nat.le_of_not_lt inside)
      have same : (m.writeAt slot first).buckets = m.buckets := by
        rw [CoinsMap.writeAt]
        exact List.set_eq_of_length_le (Nat.le_of_not_lt inside)
      rw [same, outside]
      rfl
  rw [CoinsMap.writeAt, read, Option.map_map]
  simp only [CoinsMap.writeAt, List.set_set]
  rfl

/-- An entry handed out dirty, with what its caller can do to it. -/
structure HandedOut (m : CoinsMap) (slot : Nat) (table : Table Uint256 CoinsCacheEntry)
    (txid : Uint256) (coins : Option Coins) : Prop where
  entry
    : ∃ entry : CoinsCacheEntry, entry.dirty = true ∧ live entry.coins = coins
        ∧ m.Holds (table.insert txid entry)
        ∧ ∀ write, (m.writeAt slot write).Holds (table.insert txid (write entry))

theorem handedOut_of_write {slot : Nat} {txid : Uint256} {entry : CoinsCacheEntry}
    (written : ∀ write, (m.writeAt slot write).Holds (table.insert txid (write entry)))
    (first : CoinsCacheEntry → CoinsCacheEntry) (dirty : (first entry).dirty = true)
    : HandedOut (m.writeAt slot first) slot table txid (live (first entry).coins) where
  entry := by
    refine ⟨first entry, dirty, rfl, written first, fun write => ?_⟩
    rw [writeAt_writeAt]
    exact written fun entry => write (first entry)

/-- The entry that `coins_view_cache_modify` hands out holds what a lookup gives, if anything. -/
theorem modify_spec (answers : base.Answers reads) (holds : m.Holds table)
    (below : reads s under) (txid : Uint256)
    : ∃ slot m' s',
        coinsViewCacheModify base (m, s) txid = ((m', s'), some slot)
          ∧ reads s' under
          ∧ HandedOut m' slot table txid (overlay table under txid) := by
  rw [coinsViewCacheModify]
  cases found : coinsMapFind m txid with
  | some slot =>
    obtain ⟨entry, present, _, written⟩ := find_write holds found
    refine ⟨slot, m.writeAt slot markDirty, s, rfl, below, ?_⟩
    rw [overlay_some present]
    exact handedOut_of_write written markDirty rfl
  | none =>
    have absent := find_none holds.keeps found
    obtain ⟨slot, m', inserted, written⟩ := insert_write holds txid
    rw [absent] at written
    dsimp only
    rw [inserted]
    refine ⟨slot, _, (base.getCoins s txid).1, rfl, answers.kept txid below, ?_⟩
    have handed := handedOut_of_write written
      (fun entry =>
        markDirty (setCoins ((base.getCoins s txid).2.getD entry.coins) entry)) rfl
    have same : live ((base.getCoins s txid).2.getD coinsInit) = overlay table under txid := by
      rw [overlay_none absent, ← answers.get txid below]
      cases fetched : (base.getCoins s txid).2 with
      | none => rfl
      | some coins =>
        apply live_of_notPruned
        exact answers.live below ((answers.get txid below).symm.trans fetched)
    rw [← same]
    exact handed

theorem modifyNew_spec (holds : m.Holds table) (txid : Uint256)
    : ∃ slot m' coins,
        coinsViewCacheModifyNew (m, s) txid = ((m', s), some slot)
          ∧ (coins = none ∨ coins = overlay table under txid)
          ∧ HandedOut m' slot table txid coins := by
  rw [coinsViewCacheModifyNew]
  obtain ⟨slot, m', inserted, written⟩ := insert_write holds txid
  dsimp only
  rw [inserted]
  refine ⟨slot, _, _, rfl, ?_,
    handedOut_of_write written (fun entry => { entry with dirty := true, fresh := true }) rfl⟩
  cases present : table.lookup txid with
  | none => exact Or.inl rfl
  | some entry => exact Or.inr (overlay_some present).symm

end Writes

-- The transfer of a child to its parent

section Flush

variable {m : CoinsMap} {under : Uint256 → Option Coins}

theorem batchWriteEntries_spec {table : Table Uint256 CoinsCacheEntry} (holds : m.Holds table)
    {rows : List (Uint256 × CoinsCacheEntry)} (once : (rows.map Prod.fst).Nodup)
    : ∃ m' table', cvcBatchWriteEntries m rows = (m', true)
        ∧ m'.Holds table'
        ∧ (∀ txid entry, (txid, entry) ∈ rows → entry.dirty = true →
            overlay table' under txid = live entry.coins)
        ∧ (∀ txid, (∀ entry, (txid, entry) ∈ rows → entry.dirty = false) →
            overlay table' under txid = overlay table under txid) := by
  induction rows generalizing m table with
  | nil => exact ⟨m, table, rfl, holds, by simp, by simp⟩
  | cons row rows ih =>
    obtain ⟨txid, entry⟩ := row
    rw [List.map_cons, List.nodup_cons] at once
    have alone : ∀ other, (txid, other) ∉ rows := by
      intro other held
      exact once.1 (List.mem_map.mpr ⟨(txid, other), held, rfl⟩)
    rw [cvcBatchWriteEntries]
    cases dirty : entry.dirty with
    | true =>
      obtain ⟨slot, m', inserted, written⟩ := insert_write holds txid
      obtain ⟨last, table', ran, holds', changed, kept⟩ :=
        ih (written fun old => markDirty (setCoins entry.coins old)) once.2
      have here : overlay table' under txid = live entry.coins := by
        rw [kept txid (fun other held => absurd held (alone other)), overlay_insert,
          Function.update_self]
        rfl
      refine ⟨last, table', by rw [if_pos rfl, inserted]; exact ran, holds', ?_, ?_⟩
      · intro other held member otherDirty
        rcases List.mem_cons.mp member with same | later
        · obtain ⟨rfl, rfl⟩ := Prod.mk.inj same
          exact here
        · exact changed other held later otherDirty
      · intro other clean
        have differs : other ≠ txid := by
          rintro rfl
          have notDirty := clean entry List.mem_cons_self
          rw [dirty] at notDirty
          cases notDirty
        rw [kept other (fun held later => clean held (List.mem_cons_of_mem _ later)),
          overlay_insert, Function.update_of_ne differs]
    | false =>
      obtain ⟨last, table', ran, holds', changed, kept⟩ := ih holds once.2
      refine ⟨last, table', by rw [if_neg Bool.false_ne_true]; exact ran, holds', ?_, ?_⟩
      · intro other held member otherDirty
        rcases List.mem_cons.mp member with same | later
        · obtain ⟨rfl, rfl⟩ := Prod.mk.inj same
          rw [dirty] at otherDirty
          cases otherDirty
        · exact changed other held later otherDirty
      · intro other clean
        exact kept other fun held later => clean held (List.mem_cons_of_mem _ later)

theorem flushChild_spec {σ : Type} {child parent : CoinsMap} {s : σ}
    {table above : Table Uint256 CoinsCacheEntry} (holdsChild : child.Holds above)
    (holdsParent : parent.Holds table) (clean : Clean above (overlay table under))
    (alive
      : ∀ {txid coins}, overlay table under txid = some coins →
          coinsMathIsPruned coins = false)
    : ∃ parent' table', flushChild (child, (parent, s)) = ((coinsMapInit, (parent', s)), true)
        ∧ parent'.Holds table'
        ∧ overlay table' under = overlay above (overlay table under) := by
  have once : ((entries child.buckets).map Prod.fst).Nodup := by
    rcases holdsChild.allocated with empty | allocated
    · rw [empty]
      exact List.nodup_nil
    · exact allocated.placed.nodup_keys
  have listed : ∀ txid entry,
      (txid, entry) ∈ entries child.buckets ↔ above.lookup txid = some entry := by
    intro txid entry
    rw [OpenTable.mem_entries, holdsChild.contains]
  obtain ⟨parent', table', ran, holds', changed, kept⟩ :=
    @batchWriteEntries_spec parent under table holdsParent _ once
  refine ⟨parent', table', by rw [flushChild, cvcBatchWrite, ran], holds', ?_⟩
  funext txid
  cases present : above.lookup txid with
  | none =>
    rw [overlay_none present]
    apply kept
    intro entry held
    rw [listed, present] at held
    cases held
  | some entry =>
    rw [overlay_some present]
    cases dirty : entry.dirty with
    | true => exact changed txid entry ((listed txid entry).mpr present) dirty
    | false =>
      have below := clean txid entry present dirty
      rw [live_of_notPruned (alive below), ← below]
      apply kept
      intro other held
      rw [listed, present] at held
      cases held
      exact dirty

end Flush

-- Runs of a pair

/-- A call on the child of a pair of caches. A caller of the two writing calls may leave the record
it is handed or put another in its place; `flush` transfers the child to the parent. -/
inductive ViewCall where
  | getCoins (txid : Uint256)
  | haveCoins (txid : Uint256)
  | getOutputFor (prevout : Outpoint)
  | modify (txid : Uint256) (write : Option Coins)
  | modifyNew (txid : Uint256) (write : Option Coins)
  | flush
deriving DecidableEq, Repr

inductive ViewAnswer where
  | coins (coins : Option Coins)
  | haveCoins (has : Bool)
  | output (out : Option TxOut)
  | handed (ok : Bool)
deriving DecidableEq, Repr

/-- What the caller does with the entry it is handed. -/
def callerWrites {σ : Type} (write : Option Coins) (handed : Cache σ × Option Nat)
    : Cache σ × ViewAnswer :=
  match handed.2, write with
  | some slot, some coins =>
    ((handed.1.1.writeAt slot (setCoins coins), handed.1.2), .handed true)
  | some _, none => (handed.1, .handed true)
  | none, _ => (handed.1, .handed false)

/-- One call on a child whose parent stands on a base view. -/
def pairCall {σ : Type} (base : View σ) (c : Cache (Cache σ))
    : ViewCall → Cache (Cache σ) × ViewAnswer
  | .getCoins txid =>
    let (c, coins) := coinsViewCacheGetCoins (coinsViewCacheAsView base) c txid
    (c, .coins coins)
  | .haveCoins txid =>
    let (c, has) := coinsViewCacheHaveCoins (coinsViewCacheAsView base) c txid
    (c, .haveCoins has)
  | .getOutputFor prevout =>
    let (c, out) := coinsViewCacheGetOutputFor (coinsViewCacheAsView base) c prevout
    (c, .output out)
  | .modify txid write =>
    callerWrites write (coinsViewCacheModify (coinsViewCacheAsView base) c txid)
  | .modifyNew txid write => callerWrites write (coinsViewCacheModifyNew c txid)
  | .flush =>
    let (c, ok) := flushChild c
    (c, .handed ok)

def pairRun {σ : Type} (base : View σ) (c : Cache (Cache σ))
    : List ViewCall → Cache (Cache σ) × List ViewAnswer
  | [] => (c, [])
  | call :: calls =>
    let (c, answer) := pairCall base c call
    let (c, answers) := pairRun base c calls
    (c, answer :: answers)

/-- The same call on a flat map of live coins. -/
def flatCall (flat : Uint256 → Option Coins) : ViewCall → (Uint256 → Option Coins) × ViewAnswer
  | .getCoins txid => (flat, .coins (flat txid))
  | .haveCoins txid => (flat, .haveCoins (flat txid).isSome)
  | .getOutputFor prevout =>
    (flat, .output ((flat prevout.hash).bind fun coins => coins.available prevout.n.toNat))
  | .modify txid write | .modifyNew txid write =>
    (match write with
      | some coins => Function.update flat txid (live coins)
      | none => flat,
      .handed true)
  | .flush => (flat, .handed true)

def flatRun (flat : Uint256 → Option Coins)
    : List ViewCall → (Uint256 → Option Coins) × List ViewAnswer
  | [] => (flat, [])
  | call :: calls =>
    let (flat, answer) := flatCall flat call
    let (flat, answers) := flatRun flat calls
    (flat, answer :: answers)

/-- `coins_view_cache_modify_new` is for a coin that is new: either there is none for the txid, or
the caller writes the whole record. -/
def ViewCall.suits (flat : Uint256 → Option Coins) : ViewCall → Prop
  | .modifyNew txid none => flat txid = none
  | _ => True

def SuitAll (flat : Uint256 → Option Coins) : List ViewCall → Prop
  | [] => True
  | call :: calls => call.suits flat ∧ SuitAll (flatCall flat call).1 calls

/-- The pair answers as a flat map does. -/
structure PairHolds {σ : Type} (reads : σ → (Uint256 → Option Coins) → Prop)
    (c : Cache (Cache σ)) (flat : Uint256 → Option Coins) : Prop where
  tables
    : ∃ above under, c.1.Holds above ∧ CacheReads reads c.2 under ∧ Clean above under
        ∧ flat = overlay above under

section Runs

variable {σ : Type} {base : View σ} {reads : σ → (Uint256 → Option Coins) → Prop}
  {c : Cache (Cache σ)} {flat : Uint256 → Option Coins}

theorem callerWrites_holds {m : CoinsMap} {s : Cache σ} {slot : Nat}
    {above : Table Uint256 CoinsCacheEntry} {under : Uint256 → Option Coins} {txid : Uint256}
    {coins : Option Coins} (handed : HandedOut m slot above txid coins)
    (clean : Clean above under) (below : CacheReads reads s under) (write : Option Coins)
    (left : write = none → coins = overlay above under txid)
    : (callerWrites write ((m, s), some slot)).2 = .handed true
      ∧ PairHolds reads (callerWrites write ((m, s), some slot)).1
          (flatCall (overlay above under) (.modify txid write)).1 := by
  obtain ⟨entry, dirty, held, holds, written⟩ := handed.entry
  cases write with
  | none =>
    refine ⟨rfl, ⟨_, under, holds, below, clean.insert_dirty dirty, ?_⟩⟩
    rw [overlay_insert, held, left rfl, Function.update_eq_self]
    rfl
  | some coins =>
    refine ⟨rfl, ⟨_, under, written (setCoins coins), below, clean.insert_dirty dirty, ?_⟩⟩
    rw [overlay_insert]
    rfl

theorem pairCall_holds (answers : base.Answers reads) (holds : PairHolds reads c flat)
    (call : ViewCall) (suits : call.suits flat)
    : (pairCall base c call).2 = (flatCall flat call).2
      ∧ PairHolds reads (pairCall base c call).1 (flatCall flat call).1 := by
  obtain ⟨m, s⟩ := c
  obtain ⟨above, under, holdsChild, below, clean, rfl⟩ := holds.tables
  have parent := cache_answers answers
  cases call with
  | getCoins txid =>
    obtain ⟨m', s', above', got, holds', below', kept⟩ := getCoins_spec parent holdsChild below txid
    rw [pairCall, got]
    exact ⟨rfl, ⟨above', under, holds', below', kept.clean clean, kept.same.symm⟩⟩
  | haveCoins txid =>
    obtain ⟨s', got, below'⟩ := haveCoins_spec parent holdsChild below txid
    rw [pairCall, got]
    exact ⟨rfl, ⟨above, under, holdsChild, below', clean, rfl⟩⟩
  | getOutputFor prevout =>
    obtain ⟨m', s', above', got, holds', below', kept⟩ :=
      getOutputFor_spec parent holdsChild below prevout
    rw [pairCall, got]
    exact ⟨rfl, ⟨above', under, holds', below', kept.clean clean, kept.same.symm⟩⟩
  | modify txid write =>
    obtain ⟨slot, m', s', ran, below', handed⟩ := modify_spec parent holdsChild below txid
    rw [pairCall, ran]
    exact callerWrites_holds handed clean below' write fun _ => rfl
  | modifyNew txid write =>
    obtain ⟨slot, m', coins, ran, either, handed⟩ :=
      @modifyNew_spec _ m s above under holdsChild txid
    rw [pairCall, ran]
    refine callerWrites_holds handed clean below write fun left => ?_
    subst left
    rcases either with none | same
    · rw [none]
      exact suits.symm
    · exact same
  | flush =>
    obtain ⟨parentMap, base'⟩ := s
    obtain ⟨table, bottom, holdsParent, bottomReads, rfl⟩ := below
    obtain ⟨parent', table', ran, holds', same⟩ :=
      @flushChild_spec bottom σ m parentMap base' table above holdsChild holdsParent clean
        (fun found => parent.live ⟨table, bottom, holdsParent, bottomReads, rfl⟩ found)
    rw [pairCall, ran]
    refine ⟨rfl, ⟨∅, overlay table' bottom, holds_empty false,
      ⟨table', bottom, holds', bottomReads, rfl⟩, ?_, ?_⟩⟩
    · intro txid entry found
      rw [Finmap.lookup_empty] at found
      cases found
    · funext txid
      rw [overlay_none (Finmap.lookup_empty txid), same]
      rfl

theorem pairRun_holds (answers : base.Answers reads) (holds : PairHolds reads c flat)
    (calls : List ViewCall) (suits : SuitAll flat calls)
    : (pairRun base c calls).2 = (flatRun flat calls).2
      ∧ PairHolds reads (pairRun base c calls).1 (flatRun flat calls).1 := by
  induction calls generalizing c flat with
  | nil => exact ⟨rfl, holds⟩
  | cons call calls ih =>
    obtain ⟨same, next⟩ := pairCall_holds answers holds call suits.1
    obtain ⟨rest, last⟩ := ih next suits.2
    refine ⟨?_, last⟩
    rw [pairRun, flatRun]
    dsimp only
    rw [same, rest]

theorem PairHolds.getCoins (answers : base.Answers reads) (holds : PairHolds reads c flat)
    (txid : Uint256) : (pairCall base c (.getCoins txid)).2 = .coins (flat txid) :=
  (pairCall_holds answers holds (.getCoins txid) trivial).1

end Runs

/-- A base view with fixed answers. -/
def fixedView (lookup : Uint256 → Option Coins) : View Unit := ⟨fun s txid => (s, lookup txid)⟩

theorem fixedView_answers {lookup : Uint256 → Option Coins}
    (alive : ∀ txid coins, lookup txid = some coins → coinsMathIsPruned coins = false)
    : (fixedView lookup).Answers fun _ answer => answer = lookup where
  get := by
    intro s answer txid same
    rw [same]
    rfl
  kept := fun _ same => same
  live := by
    intro s answer txid coins same found
    rw [same] at found
    exact alive txid coins found

/-- The calls that may change what lookups give. -/
def ViewCall.writes : ViewCall → Bool
  | .modify .. | .modifyNew .. => true
  | _ => false

theorem flatRun_writes (flat : Uint256 → Option Coins) (calls : List ViewCall)
    : (flatRun flat (calls.filter ViewCall.writes)).1 = (flatRun flat calls).1 := by
  induction calls generalizing flat with
  | nil => rfl
  | cons call calls ih =>
    cases call with
    | modify txid write => exact ih _
    | modifyNew txid write => exact ih _
    | getCoins txid => exact ih flat
    | haveCoins txid => exact ih flat
    | getOutputFor prevout => exact ih flat
    | flush => exact ih flat

theorem suitAll_writes {flat : Uint256 → Option Coins} {calls : List ViewCall}
    (suits : SuitAll flat calls) : SuitAll flat (calls.filter ViewCall.writes) := by
  induction calls generalizing flat with
  | nil => trivial
  | cons call calls ih =>
    cases call with
    | modify txid write => exact ⟨suits.1, ih suits.2⟩
    | modifyNew txid write => exact ⟨suits.1, ih suits.2⟩
    | getCoins txid => exact ih suits.2
    | haveCoins txid => exact ih suits.2
    | getOutputFor prevout => exact ih suits.2
    | flush => exact ih suits.2

/-- What a cache with a map answers over a base. -/
def cacheAnswer (base : Uint256 → Option Coins) (m : CoinsMap) (txid : Uint256) : Option Coins :=
  (coinsViewCacheGetCoins (fixedView base) (m, ()) txid).2

/-- What the pair answers. -/
def pairAnswer (base : Uint256 → Option Coins) (c : Cache (Cache Unit)) (txid : Uint256)
    : Option Coins :=
  (coinsViewCacheGetCoins (coinsViewCacheAsView (fixedView base)) c txid).2

section Pairs

variable {base : Uint256 → Option Coins} {parent : CoinsMap} {mapCalls : List MapCall}
  {mapAnswers : List MapAnswer}

theorem pairHolds_start
    (alive : ∀ txid coins, base txid = some coins → coinsMathIsPruned coins = false)
    (reached : coinsMapInit.run mapCalls = some (parent, mapAnswers))
    : PairHolds (fun _ answer => answer = base) (coinsMapInit, (parent, ()))
        (cacheAnswer base parent) := by
  obtain ⟨m, ran, holds⟩ := run_holds (holds_empty false) mapCalls
  obtain rfl : m = parent := by
    rw [coinsMapInit, ran] at reached
    cases reached
    rfl
  have same : cacheAnswer base m = overlay (tableRun ∅ mapCalls).1 base := by
    funext txid
    obtain ⟨m', s', table', got, _⟩ :=
      @getCoins_spec _ _ _ m _ () base (fixedView_answers alive) holds rfl txid
    exact congrArg Prod.snd got
  refine ⟨∅, cacheAnswer base m, holds_empty false, ⟨_, base, holds, rfl, same⟩, ?_, ?_⟩
  · intro txid entry found
    rw [Finmap.lookup_empty] at found
    cases found
  · funext txid
    exact (overlay_none (Finmap.lookup_empty txid)).symm

theorem PairHolds.pairAnswer_eq {c : Cache (Cache Unit)} {flat : Uint256 → Option Coins}
    (alive : ∀ txid coins, base txid = some coins → coinsMathIsPruned coins = false)
    (holds : PairHolds (fun _ answer => answer = base) c flat) : pairAnswer base c = flat := by
  funext txid
  have got := holds.getCoins (fixedView_answers alive) txid
  exact ViewAnswer.coins.inj got

/-- A child on a parent is an overlay: its calls answer as on one flat map with the same writes,
lookups change nothing, and the transfer to the parent keeps every answer. -/
theorem pair_overlays
    (alive : ∀ txid coins, base txid = some coins → coinsMathIsPruned coins = false)
    (reached : coinsMapInit.run mapCalls = some (parent, mapAnswers)) (calls : List ViewCall)
    (suits : SuitAll (cacheAnswer base parent) calls)
    : let start : Cache (Cache Unit) := (coinsMapInit, (parent, ()))
      let last := (pairRun (fixedView base) start calls).1
      (pairRun (fixedView base) start calls).2 = (flatRun (cacheAnswer base parent) calls).2
      ∧ pairAnswer base last = (flatRun (cacheAnswer base parent) calls).1
      ∧ (∀ txid,
          (pairCall (fixedView base) last (.haveCoins txid)).2
            = .haveCoins (pairAnswer base last txid).isSome)
      ∧ pairAnswer base last
          = pairAnswer base
              (pairRun (fixedView base) start (calls.filter ViewCall.writes)).1
      ∧ (flushChild last).2 = true
      ∧ pairAnswer base (flushChild last).1 = pairAnswer base last := by
  have answers := fixedView_answers alive
  have begins := pairHolds_start alive reached
  obtain ⟨same, holds⟩ := pairRun_holds answers begins calls suits
  obtain ⟨_, holdsWrites⟩ := pairRun_holds answers begins _ (suitAll_writes suits)
  obtain ⟨flushed, holdsFlushed⟩ := pairCall_holds answers holds .flush trivial
  have here := holds.pairAnswer_eq alive
  refine ⟨same, here, ?_, ?_, ?_, ?_⟩
  · intro txid
    rw [here]
    exact (pairCall_holds answers holds (.haveCoins txid) trivial).1
  · rw [here, holdsWrites.pairAnswer_eq alive, flatRun_writes]
  · exact ViewAnswer.handed.inj flushed
  · rw [here]
    exact holdsFlushed.pairAnswer_eq alive

end Pairs

-- A sample

def sampleTxid : Uint256 := Uint256.fill 7

def sampleRecord : Coins := ⟨false, [⟨5, []⟩], 1, 1⟩

def sampleBase (txid : Uint256) : Option Coins :=
  if txid = sampleTxid then some sampleRecord else none

theorem sampleBase_alive
    : ∀ txid coins, sampleBase txid = some coins → coinsMathIsPruned coins = false := by
  intro txid coins found
  rw [sampleBase] at found
  split at found
  · cases found
    decide
  · cases found

theorem pair_overlays_sample
    : pairAnswer sampleBase
        (pairRun (fixedView sampleBase) (coinsMapInit, (coinsMapInit, ()))
          [.modify sampleTxid (some coinsInit), .flush]).1 sampleTxid
      = none := by
  have whole := pair_overlays sampleBase_alive (rfl : coinsMapInit.run [] = some (coinsMapInit, []))
    [.modify sampleTxid (some coinsInit), .flush] ⟨trivial, trivial, trivial⟩
  rw [whole.2.1]
  exact Function.update_self sampleTxid none (cacheAnswer sampleBase coinsMapInit)

/-- A lookup before `coins_view_cache_modify_new` changes what a later lookup gives, where the coin
is not new and its record is left as it is handed out. -/
theorem lookup_changes_later_answer
    : (pairRun (fixedView sampleBase) (coinsMapInit, (coinsMapInit, ()))
          [.modifyNew sampleTxid none, .getCoins sampleTxid]).2
        = [.handed true, .coins none]
      ∧ (pairRun (fixedView sampleBase) (coinsMapInit, (coinsMapInit, ()))
          [.getCoins sampleTxid, .modifyNew sampleTxid none, .getCoins sampleTxid]).2
        = [.coins (some sampleRecord), .handed true, .coins (some sampleRecord)] := by
  decide +kernel

end Z23.Coins
