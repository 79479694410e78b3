import Z23.Coins.CoinsMap
import Z23.Lib.ProbeGap

/-!
The hash map of the coins caches where memory may run out. A growth that fails keeps the old
buckets. So a map may fill up to its last bucket, the removal from a full map goes round more than
once, and the insertion into a map without buckets takes a remainder by zero.

An insertion allocates at most once, and its call says whether that succeeds.
-/

namespace Z23.Coins

open Z23.Lib
open Z23.Lib.FiniteMap (Table)
open Z23.Lib.OpenTable (Slots cellAt Contains)
open Z23.Lib.ProbeTable (Placed used step vacancy Gap strays)
open Z23.Validation (coinsInit)

-- Operations

/-- Models `coins_map_rehash`: where the allocation fails the old buckets stay. -/
def coinsMapRehashAlloc (allocates : Bool) (m : CoinsMap) (newNumBuckets : Nat) : CoinsMap :=
  if allocates then coinsMapRehash m newNumBuckets else m

/-- The map after the growth that an insertion asks for. -/
def CoinsMap.reserveAlloc (allocates : Bool) (m : CoinsMap) : CoinsMap :=
  if m.buckets.length = 0
      || m.size * coinsMapLoadFactorDen ≥ m.buckets.length * coinsMapLoadFactorNum then
    coinsMapRehashAlloc allocates m
      (if m.buckets.length = 0 then coinsMapInitialBuckets else m.buckets.length * 2)
  else m

/-- Models `coins_map_insert`: the slot of the entry, new or not, or the null pointer where the map
is full. `none` where it takes a remainder by zero. -/
def coinsMapInsertAlloc (allocates : Bool) (m : CoinsMap) (txid : Uint256)
    : Option (CoinsMap × Option Nat) :=
  match coinsMapFind m txid with
  | some slot => some (m, some slot)
  | none =>
    let m := m.reserveAlloc allocates
    if m.buckets.length = 0 then none
    else
      match m.freeSlot txid with
      | some slot =>
        some
          ({ m with
              buckets := m.buckets.set slot (some (txid, ⟨coinsInit, false, false⟩))
              size := m.size + 1 },
            some slot)
      | none => some (m, none)

/-- Turns enough for the loop of an erasure from any map. -/
def coinsMapEraseTurns (numBuckets : Nat) : Nat :=
  numBuckets * numBuckets * numBuckets + numBuckets

/-- Models `coins_map_erase`; `none` where its loop takes more turns than these. -/
def coinsMapEraseAlloc (m : CoinsMap) (txid : Uint256) : Option (CoinsMap × Bool) :=
  match coinsMapFind m txid with
  | some slot =>
    let m := { m with buckets := m.buckets.set slot none, size := m.size - 1 }
    (coinsMapFillGap (coinsMapEraseTurns m.buckets.length) m
      (step m.buckets.length slot)).map fun m => (m, true)
  | none => some (m, false)

/-- Models `coins_map_free`. -/
def coinsMapFree (m : CoinsMap) : CoinsMap := { m with buckets := [], size := 0 }

/-- Models `coins_fault_arm_map_hash_collapse`. -/
def coinsFaultArmMapHashCollapse (m : CoinsMap) (on : Bool) : CoinsMap × Bool :=
  if m.size ≠ 0 then (m, false) else ({ m with degradedHash := on }, true)

-- Insertion

section Insertion

variable {m : CoinsMap} {table : Table Uint256 CoinsCacheEntry} {txid : Uint256}

theorem reserveAlloc_true (m : CoinsMap) : m.reserveAlloc true = m.reserve := rfl

theorem reserveAlloc_false (m : CoinsMap) : m.reserveAlloc false = m := by
  rw [CoinsMap.reserveAlloc]
  split
  · rfl
  · rfl

theorem insertAlloc_true (keeps : m.Keeps table) (txid : Uint256)
    : coinsMapInsertAlloc true m txid = some (coinsMapInsert m txid) := by
  rw [coinsMapInsertAlloc, coinsMapInsert]
  cases coinsMapFind m txid with
  | some slot => rfl
  | none =>
    have room := (reserve_holds keeps).2.2
    have some_buckets : m.reserve.buckets.length ≠ 0 := Nat.ne_of_gt (Nat.zero_lt_of_lt room)
    dsimp only
    rw [reserveAlloc_true, if_neg some_buckets]
    cases m.reserve.freeSlot txid with
    | some slot => rfl
    | none => rfl

theorem insertAlloc_keeps (keeps : m.Keeps table) {allocates : Bool}
    (spared : m.buckets ≠ [] ∨ allocates = true) (txid : Uint256)
    : (∃ slot m', coinsMapInsertAlloc allocates m txid = some (m', some slot)
        ∧ m'.Keeps (table.insert txid ((table.lookup txid).getD .init))
        ∧ cellAt m'.buckets slot = some (txid, (table.lookup txid).getD .init))
      ∨ coinsMapInsertAlloc allocates m txid = some (m, none) := by
  cases allocates with
  | true =>
    obtain ⟨slot, m', ran, keeps', cell, _⟩ := insert_keeps keeps txid
    exact .inl ⟨slot, m', by rw [insertAlloc_true keeps, ran], keeps', cell⟩
  | false =>
    have some_buckets : m.buckets ≠ [] := spared.resolve_right Bool.false_ne_true
    rw [coinsMapInsertAlloc]
    cases found : coinsMapFind m txid with
    | some slot =>
      obtain ⟨_, _, entry, cell, present⟩ := find_some keeps found
      rw [present, Option.getD_some]
      exact .inl ⟨slot, m, rfl, keeps_present keeps present, cell⟩
    | none =>
      have absent := find_none keeps found
      dsimp only
      rw [reserveAlloc_false, if_neg (mt List.length_eq_zero_iff.mp some_buckets)]
      cases free : m.freeSlot txid with
      | none => exact .inr rfl
      | some slot =>
        obtain ⟨written, cell, _⟩ := writeFresh_keeps keeps some_buckets absent free
        rw [absent, Option.getD_none]
        exact .inl ⟨slot, _, rfl, written, cell⟩

theorem insertAlloc_divides (empty : m.buckets = []) (txid : Uint256)
    : coinsMapInsertAlloc false m txid = none := by
  have missed : coinsMapFind m txid = none := by
    rw [coinsMapFind, if_pos (by rw [empty]; rfl)]
  rw [coinsMapInsertAlloc, missed]
  dsimp only
  rw [reserveAlloc_false, if_pos (by rw [empty]; rfl)]

end Insertion

-- Removal

section Removal

variable {m : CoinsMap} {table : Table Uint256 CoinsCacheEntry}

theorem fillGap_more {fuel next : Nat} {after : CoinsMap}
    (ran : coinsMapFillGap fuel m next = some after) (extra : Nat)
    : coinsMapFillGap (fuel + extra) m next = some after := by
  induction fuel generalizing m next with
  | zero => cases ran
  | succ fuel ih =>
    rw [Nat.succ_add, coinsMapFillGap]
    rw [coinsMapFillGap] at ran
    cases cell : cellAt m.buckets next with
    | none =>
      rw [cell] at ran
      exact ran
    | some entry =>
      rw [cell] at ran
      exact ih ran

/-- In a map with one empty bucket the loop ends: each turn goes one bucket on, or brings an entry
nearer to its home. -/
theorem fillGap_ends {gap i fuel : Nat} (size : m.size = used m.buckets)
    (gapped : Gap (coinsMapHome m.degradedHash) m.buckets gap i)
    (some_turn : 1 ≤ i) (within : i ≤ m.buckets.length)
    (enough : strays (coinsMapHome m.degradedHash) m.buckets * m.buckets.length
      + (m.buckets.length - i) < fuel)
    : ∃ after,
        coinsMapFillGap fuel m ((step m.buckets.length)^[i] gap)
          = some { m with buckets := after }
        ∧ Placed (coinsMapHome m.degradedHash) after
        ∧ ProbeTable.SameEntries m.buckets after := by
  induction fuel generalizing m gap i with
  | zero => omega
  | succ fuel ih =>
    have homeInside := coinsMapHome_lt (Nat.zero_lt_of_lt gapped.inside) m.degradedHash
    rcases Nat.eq_or_lt_of_le within with rfl | before
    · rw [ProbeTable.iterate_round gapped.inside, coinsMapFillGap, gapped.vacant]
      exact ⟨m.buckets, rfl, gapped.placed homeInside, ProbeTable.SameEntries.refl m.buckets⟩
    · have turned := Function.iterate_succ_apply' (step m.buckets.length) i gap
      have inside := ProbeTable.iterate_step_lt gapped.inside i
      have away := ProbeTable.iterate_ne gapped.inside some_turn before
      generalize place : (step m.buckets.length)^[i] gap = next at *
      obtain ⟨⟨key, value⟩, held⟩ :=
        Option.ne_none_iff_exists'.mp (gapped.occupied next inside away)
      obtain ⟨slot, free, same, which⟩ := gapped.turn homeInside place held
      rw [fillGap_turn size held free]
      rcases which with ⟨unmoved, stays⟩ | ⟨moves, nearer⟩
      · rw [unmoved, ← turned]
        exact @ih m gap (i + 1) size stays (Nat.le_add_left 1 i) before (by omega)
      · have capacity := same.capacity
        have fewer := Nat.mul_le_mul_right m.buckets.length (Nat.succ_le_of_lt nearer)
        rw [Nat.succ_mul] at fewer
        obtain ⟨after, ran, placed, result⟩ :=
          @ih { m with buckets := (m.buckets.set next none).set slot (some (key, value)) } next 1
            (size.trans same.count.symm) moves (Nat.le_refl 1)
            (by rw [capacity]; omega) (by rw [capacity]; dsimp only; omega)
        rw [Function.iterate_one] at ran
        rw [capacity] at ran
        exact ⟨after, ran, placed, same.trans result⟩

theorem eraseAlloc_full (keeps : m.Keeps table) (full : used m.buckets = m.buckets.length)
    {txid : Uint256} {slot : Nat} (found : coinsMapFind m txid = some slot)
    : ∃ m', coinsMapEraseAlloc m txid = some (m', true) ∧ m'.Keeps (table.erase txid) := by
  obtain ⟨⟨_, searched⟩, _, entry, cell, present⟩ := find_some keeps found
  have inside : slot < m.buckets.length :=
    OpenTable.lt_of_cellAt (by rw [cell]; exact Option.some_ne_none _)
  have sameLength : (m.buckets.set slot none).length = m.buckets.length := List.length_set
  have emptied : used (m.buckets.set slot none) + 1 = used m.buckets := by
    simpa [cell] using ProbeTable.used_set inside none
  have size := keeps.size
  have bounded := ProbeTable.strays_le (coinsMapHome m.degradedHash) (m.buckets.set slot none)
  have turns := Nat.mul_le_mul_right m.buckets.length bounded
  rw [sameLength] at turns
  obtain ⟨after, ran, placed, same⟩ :=
    @fillGap_ends { m with buckets := m.buckets.set slot none, size := m.size - 1 } slot 1
      (coinsMapEraseTurns m.buckets.length) (by dsimp only; omega) (searched.gap full inside)
      (Nat.le_refl 1) (by rw [sameLength]; omega)
      (by
        rw [sameLength, coinsMapEraseTurns]
        dsimp only
        omega)
  rw [Function.iterate_one] at ran
  refine ⟨{ m with buckets := after, size := m.size - 1 }, ?_,
    (erased_keeps keeps found placed same).1⟩
  rw [coinsMapEraseAlloc, found]
  dsimp only at ran ⊢
  rw [sameLength] at ran ⊢
  rw [ran]
  rfl

theorem eraseAlloc_of_erase {txid : Uint256} {result : CoinsMap × Bool}
    (ran : coinsMapErase m txid = some result) : coinsMapEraseAlloc m txid = some result := by
  rw [coinsMapErase] at ran
  rw [coinsMapEraseAlloc]
  cases found : coinsMapFind m txid with
  | none =>
    rw [found] at ran
    exact ran
  | some slot =>
    rw [found] at ran
    obtain ⟨after, filled, told⟩ := Option.map_eq_some_iff.mp ran
    dsimp only at filled ⊢
    rw [coinsMapEraseTurns, Nat.add_comm, fillGap_more filled, ← told]
    rfl

theorem eraseAlloc_keeps (keeps : m.Keeps table) (txid : Uint256)
    : ∃ m' present, coinsMapEraseAlloc m txid = some (m', present)
        ∧ m'.Keeps (table.erase txid) := by
  by_cases roomy : m.Roomy
  · obtain ⟨m', ran, holds⟩ := erase_holds (keeps.holds roomy) txid
    exact ⟨m', _, eraseAlloc_of_erase ran, holds.keeps⟩
  · cases found : coinsMapFind m txid with
    | none =>
      refine ⟨m, false, ?_, keeps_absent keeps (find_none keeps found)⟩
      rw [coinsMapEraseAlloc, found]
    | some slot =>
      have full : used m.buckets = m.buckets.length := by
        rw [CoinsMap.Roomy] at roomy
        push Not at roomy
        exact Nat.le_antisymm (ProbeTable.used_le_length m.buckets) roomy.2
      obtain ⟨m', ran, keeps'⟩ := eraseAlloc_full keeps full found
      exact ⟨m', true, ran, keeps'⟩

end Removal

-- Runs

/-- A call that changes the map, with what its caller writes to the entry it is handed. -/
inductive AllocCall where
  | insert (txid : Uint256) (allocates : Bool) (write : CoinsCacheEntry → CoinsCacheEntry)
  | update (txid : Uint256) (write : CoinsCacheEntry → CoinsCacheEntry)
  | erase (txid : Uint256)
  | free
  | armHashCollapse (on : Bool)

/-- One call; `none` where it takes a remainder by zero or its loop does not end. -/
def CoinsMap.callAlloc (m : CoinsMap) : AllocCall → Option CoinsMap
  | .insert txid allocates write =>
    (coinsMapInsertAlloc allocates m txid).map fun
      | (m, some slot) => m.writeAt slot write
      | (m, none) => m
  | .update txid write =>
    match coinsMapFind m txid with
    | some slot => some (m.writeAt slot write)
    | none => some m
  | .erase txid => (coinsMapEraseAlloc m txid).map Prod.fst
  | .free => some (coinsMapFree m)
  | .armHashCollapse on => some (coinsFaultArmMapHashCollapse m on).1

def CoinsMap.runAlloc (m : CoinsMap) : List AllocCall → Option CoinsMap
  | [] => some m
  | call :: calls => (m.callAlloc call).bind fun m => m.runAlloc calls

/-- What a search of the map tells. -/
def CoinsMap.contents (m : CoinsMap) (txid : Uint256) : Option CoinsCacheEntry :=
  (coinsMapFind m txid).bind m.entryAt

/-- The outcomes of an insertion that fails cleanly: the entry of the txid, the old one or a new
one, beside the contents there were, or the null pointer and the map as it was. -/
inductive CleanInsert (m : CoinsMap) (txid : Uint256) : Option (CoinsMap × Option Nat) → Prop where
  | entry {m' : CoinsMap} {slot : Nat} {entry : CoinsCacheEntry}
      (which : entry = (m.contents txid).getD .init)
      (cell : cellAt m'.buckets slot = some (txid, entry))
      (contents : m'.contents = Function.update m.contents txid (some entry))
    : CleanInsert m txid (some (m', some slot))
  | null : CleanInsert m txid (some (m, none))

/-- The call has buckets to work on, or memory for them. -/
def AllocCall.Spared (m : CoinsMap) : AllocCall → Prop
  | .insert _ allocates _ => m.buckets ≠ [] ∨ allocates = true
  | _ => True

/-- Every call of the run is spared in the map it comes to. -/
def SparedRun (m : CoinsMap) : List AllocCall → Prop
  | [] => True
  | call :: calls => call.Spared m ∧ ∀ m', m.callAlloc call = some m' → SparedRun m' calls

section Runs

variable {m : CoinsMap} {table : Table Uint256 CoinsCacheEntry}

theorem insertAlloc_clean (keeps : m.Keeps table) {allocates : Bool}
    (spared : m.buckets ≠ [] ∨ allocates = true) (txid : Uint256)
    : CleanInsert m txid (coinsMapInsertAlloc allocates m txid) := by
  rcases insertAlloc_keeps keeps spared txid with ⟨slot, m', ran, keeps', cell⟩ | refused
  · rw [ran]
    refine .entry ?_ cell ?_
    · rw [CoinsMap.contents, find_entry keeps]
    · funext other
      rw [CoinsMap.contents, find_entry keeps', FiniteMap.lookup_insert_eq, Function.update_apply,
        CoinsMap.contents, find_entry keeps]
  · rw [refused]
    exact .null

theorem CleanInsert.isSome {txid : Uint256} {outcome : Option (CoinsMap × Option Nat)}
    (clean : CleanInsert m txid outcome) : outcome.isSome := by
  cases clean with
  | entry => rfl
  | null => rfl

theorem spared_of_insertAlloc {allocates : Bool} {txid : Uint256}
    (returned : (coinsMapInsertAlloc allocates m txid).isSome)
    : m.buckets ≠ [] ∨ allocates = true := by
  cases allocates with
  | true => exact .inr rfl
  | false =>
    left
    intro empty
    rw [insertAlloc_divides empty] at returned
    cases returned

theorem freed_keeps (m : CoinsMap) : (coinsMapFree m).Keeps ∅ :=
  (holds_empty m.degradedHash).keeps

section

variable (keeps : m.Keeps table)
include keeps

theorem armed_keeps (on : Bool) : (coinsFaultArmMapHashCollapse m on).1.Keeps table := by
  rw [coinsFaultArmMapHashCollapse]
  split
  · exact keeps
  · rename_i unused
    have none_used : used m.buckets = 0 := keeps.size.symm.trans (not_not.mp unused)
    refine { keeps with placed := ?_ }
    rcases keeps.placed with empty | ⟨large, _⟩
    · exact .inl empty
    · have some_buckets : 0 < m.buckets.length := Nat.lt_of_lt_of_le (by decide) large
      exact .inr ⟨large, Placed.of_unused (coinsMapHome_lt some_buckets on) none_used⟩

theorem callAlloc_isSome_iff (call : AllocCall) : (m.callAlloc call).isSome ↔ call.Spared m := by
  cases call with
  | insert txid allocates write =>
    rw [CoinsMap.callAlloc, Option.isSome_map, AllocCall.Spared]
    exact ⟨spared_of_insertAlloc, fun spared => (insertAlloc_clean keeps spared txid).isSome⟩
  | update txid write =>
    refine iff_of_true ?_ trivial
    rw [CoinsMap.callAlloc]
    split
    · rfl
    · rfl
  | erase txid =>
    obtain ⟨m', present, ran, _⟩ := eraseAlloc_keeps keeps txid
    refine iff_of_true ?_ trivial
    rw [CoinsMap.callAlloc, ran]
    rfl
  | free => exact iff_of_true rfl trivial
  | armHashCollapse on => exact iff_of_true rfl trivial

theorem callAlloc_keeps {call : AllocCall} {m' : CoinsMap} (ran : m.callAlloc call = some m')
    : ∃ table', m'.Keeps table' := by
  have spared : call.Spared m := by
    rw [← callAlloc_isSome_iff keeps, ran]
    rfl
  cases call with
  | insert txid allocates write =>
    rw [CoinsMap.callAlloc] at ran
    rcases insertAlloc_keeps keeps spared txid with ⟨slot, next, inserted, keeps', cell⟩ | refused
    · rw [inserted] at ran
      obtain rfl := Option.some.inj ran
      exact ⟨_, (writeAt_keeps keeps' cell write).1⟩
    · rw [refused] at ran
      obtain rfl := Option.some.inj ran
      exact ⟨table, keeps⟩
  | update txid write =>
    rw [CoinsMap.callAlloc] at ran
    cases found : coinsMapFind m txid with
    | none =>
      rw [found] at ran
      obtain rfl := Option.some.inj ran
      exact ⟨table, keeps⟩
    | some slot =>
      obtain ⟨_, _, entry, cell, _⟩ := find_some keeps found
      rw [found] at ran
      obtain rfl := Option.some.inj ran
      exact ⟨_, (writeAt_keeps keeps cell write).1⟩
  | erase txid =>
    obtain ⟨next, present, erased, keeps'⟩ := eraseAlloc_keeps keeps txid
    rw [CoinsMap.callAlloc, erased] at ran
    obtain rfl := Option.some.inj ran
    exact ⟨_, keeps'⟩
  | free =>
    obtain rfl := Option.some.inj ran
    exact ⟨∅, freed_keeps m⟩
  | armHashCollapse on =>
    obtain rfl := Option.some.inj ran
    exact ⟨table, armed_keeps keeps on⟩

theorem runAlloc_keeps {calls : List AllocCall} {m' : CoinsMap} (ran : m.runAlloc calls = some m')
    : ∃ table', m'.Keeps table' := by
  induction calls generalizing m table with
  | nil =>
    obtain rfl := Option.some.inj ran
    exact ⟨table, keeps⟩
  | cons call calls ih =>
    rw [CoinsMap.runAlloc] at ran
    obtain ⟨next, called, rest⟩ := Option.bind_eq_some_iff.mp ran
    obtain ⟨table', keeps'⟩ := callAlloc_keeps keeps called
    exact ih keeps' rest

theorem runAlloc_isSome_iff (calls : List AllocCall)
    : (m.runAlloc calls).isSome ↔ SparedRun m calls := by
  induction calls generalizing m table with
  | nil => exact iff_of_true rfl trivial
  | cons call calls ih =>
    rw [CoinsMap.runAlloc, SparedRun, ← callAlloc_isSome_iff keeps]
    cases called : m.callAlloc call with
    | none => exact iff_of_false Bool.false_ne_true fun both => Bool.false_ne_true both.1
    | some next =>
      obtain ⟨table', keeps'⟩ := callAlloc_keeps keeps called
      rw [Option.bind_some, ih keeps']
      constructor
      · intro spared
        refine ⟨rfl, ?_⟩
        rintro m' same
        obtain rfl := Option.some.inj same
        exact spared
      · intro both
        exact both.2 next rfl

end

end Runs

/-- Where memory runs out the map fails cleanly exactly where it has buckets: from the empty map
the calls return as long as every insertion has buckets or memory for its first ones, and in every
map that is reached so an insertion is clean under the same condition and under no other. -/
theorem coinsMapInsertAlloc_clean (calls : List AllocCall)
    : ((coinsMapInit.runAlloc calls).isSome ↔ SparedRun coinsMapInit calls)
      ∧ ∀ m, coinsMapInit.runAlloc calls = some m →
          ∀ (allocates : Bool) (txid : Uint256),
            CleanInsert m txid (coinsMapInsertAlloc allocates m txid)
              ↔ m.buckets ≠ [] ∨ allocates = true := by
  have keeps : coinsMapInit.Keeps ∅ := (holds_empty false).keeps
  refine ⟨runAlloc_isSome_iff keeps calls, ?_⟩
  intro m ran allocates txid
  obtain ⟨table, reached⟩ := runAlloc_keeps keeps ran
  exact ⟨fun clean => spared_of_insertAlloc clean.isSome,
    fun spared => insertAlloc_clean reached spared txid⟩

/-- The first entry gets its buckets, and the next one does not need memory. -/
theorem coinsMapInsertAlloc_clean_grown
    : ∃ m, coinsMapInit.runAlloc [.insert ⟨List.replicate 32 0, rfl⟩ true id] = some m
        ∧ CleanInsert m ⟨List.replicate 32 1, rfl⟩
            (coinsMapInsertAlloc false m ⟨List.replicate 32 1, rfl⟩) := by
  have keeps : coinsMapInit.Keeps ∅ := (holds_empty false).keeps
  obtain ⟨slot, m, inserted, _, cell, _⟩ := insert_keeps keeps ⟨List.replicate 32 0, rfl⟩
  have ran : coinsMapInit.runAlloc [.insert ⟨List.replicate 32 0, rfl⟩ true id]
      = some (m.writeAt slot id) := by
    rw [CoinsMap.runAlloc, CoinsMap.callAlloc, insertAlloc_true keeps, inserted]
    rfl
  have grown : (m.writeAt slot id).buckets ≠ [] := by
    have inside := OpenTable.lt_of_cellAt (by rw [cell]; exact Option.some_ne_none _)
    apply List.ne_nil_of_length_pos
    rw [CoinsMap.writeAt, List.length_set]
    exact Nat.zero_lt_of_lt inside
  exact ⟨_, ran, ((coinsMapInsertAlloc_clean _).2 _ ran false _).mpr (Or.inl grown)⟩

/-- The insertion into a new map without memory takes a remainder by zero. -/
theorem coinsMapInsertAlloc_bare
    : ¬ ∀ (calls : List AllocCall) (m : CoinsMap), coinsMapInit.runAlloc calls = some m →
        ∀ (allocates : Bool) (txid : Uint256),
          CleanInsert m txid (coinsMapInsertAlloc allocates m txid) := by
  intro always
  have clean := always [] coinsMapInit rfl false ⟨List.replicate 32 0, rfl⟩
  rw [insertAlloc_divides rfl] at clean
  cases clean

end Z23.Coins
