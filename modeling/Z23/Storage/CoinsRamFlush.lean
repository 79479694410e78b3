import Z23.Storage.CoinsRamCommitment

/-!
Whole runs of the RAM overlay: a flush writes the effective set or nothing, and every sequence of
operations answers as the same operations on the table would.
-/

namespace Z23.Storage.CoinsRam

open Z23.Lib.Bytes
open Z23.Lib.FiniteMap
open Z23.Lib.OpenTable

-- The rows of a flush

theorem coinsKvAddManySqlite_ok {succeeds : Nat → Bool} {i : Nat} {coins : CoinTable}
    {rows : List (Outpoint × Coin)} (ok : (coinsKvAddManySqlite succeeds i coins rows).1 = true)
    : (coinsKvAddManySqlite succeeds i coins rows).2 = putAll coins rows := by
  induction rows generalizing i coins with
  | nil => rfl
  | cons row rest ih =>
    rw [coinsKvAddManySqlite] at ok ⊢
    split at ok
    · rename_i succeeded
      rw [if_pos succeeded]
      exact ih ok
    · cases ok

theorem coinsKvSpendManySqlite_ok {succeeds : Nat → Bool} {i : Nat} {coins : CoinTable}
    {ops : List Outpoint} (ok : (coinsKvSpendManySqlite succeeds i coins ops).1 = true)
    : (coinsKvSpendManySqlite succeeds i coins ops).2 = dropAll coins ops := by
  induction ops generalizing i coins with
  | nil => rfl
  | cons op rest ih =>
    rw [coinsKvSpendManySqlite] at ok ⊢
    split at ok
    · rename_i succeeded
      rw [if_pos succeeded]
      exact ih ok
    · cases ok

section Rows

variable {ram : RamStore} {overlay : Table Outpoint (Option Coin)}

theorem mem_flushAdds (holds : ram.Holds overlay) {row : Outpoint × Coin}
    : row ∈ flushAdds ram ↔ overlay.lookup row.1 = some (some row.2) := by
  obtain ⟨op, coin⟩ := row
  rw [holds.shows, ← holds.indexed.mem_listedEntries, flushAdds, List.mem_filterMap]
  constructor
  · rintro ⟨⟨key, slot⟩, member, mapped⟩
    obtain ⟨value, rfl, same⟩ := Option.map_eq_some_iff.mp mapped
    cases same
    exact member
  · intro member
    exact ⟨(op, some coin), member, rfl⟩

theorem mem_flushSpends (holds : ram.Holds overlay) {op : Outpoint}
    : op ∈ flushSpends ram ↔ overlay.lookup op = some none := by
  rw [holds.shows, ← holds.indexed.mem_listedEntries, flushSpends, List.mem_filterMap]
  constructor
  · rintro ⟨⟨key, slot⟩, member, mapped⟩
    cases slot with
    | some coin => cases mapped
    | none =>
      cases mapped
      exact member
  · intro member
    exact ⟨(op, none), member, rfl⟩

theorem take_flushAdds (holds : ram.Holds overlay)
    : (flushAdds ram).take ram.liveCount = flushAdds ram := by
  have counted : ∀ overlaid : List (Outpoint × Option Coin),
      (overlaid.filterMap fun entry => entry.2.map (entry.1, ·)).length
        = overlaid.countP (·.2.isSome) := by
    intro overlaid
    induction overlaid with
    | nil => rfl
    | cons entry rest ih =>
      obtain ⟨key, slot⟩ := entry
      cases slot <;> simp [ih]
  apply List.take_of_length_le
  rw [flushAdds, counted, holds.live, holds.indexed.entries_perm.countP_eq]

end Rows

section Flush

variable {sys : System} {overlay : Table Outpoint (Option Coin)} {effective : CoinTable}

theorem System.Refines.flushed_coins (refines : sys.Refines overlay effective)
    : dropAll (putAll sys.db.coins (flushAdds sys.ram)) (flushSpends sys.ram) = effective := by
  apply Finmap.ext_lookup
  intro op
  rw [lookup_dropAll]
  cases found : overlay.lookup op with
  | none =>
    rw [if_neg fun member => by simp [(mem_flushSpends refines.holds).mp member] at found,
      refines.lookup_of_miss found]
    refine lookup_putAll_of_notMem _ fun member => ?_
    obtain ⟨row, rowMember, rfl⟩ := List.mem_map.mp member
    rw [(mem_flushAdds refines.holds).mp rowMember] at found
    cases found
  | some slot =>
    rw [refines.lookup_of_slot found]
    cases slot with
    | none => rw [if_pos ((mem_flushSpends refines.holds).mpr found)]
    | some coin =>
      have added : (op, coin) ∈ flushAdds sys.ram := (mem_flushAdds refines.holds).mpr found
      rw [if_neg fun member => by simp [(mem_flushSpends refines.holds).mp member] at found]
      refine lookup_putAll_of_agree _ (List.mem_map_of_mem added) fun row member same => ?_
      have rowSlot := (mem_flushAdds refines.holds).mp member
      rw [same, found] at rowSlot
      exact (Option.some.inj (Option.some.inj rowSlot)).symm

theorem watermarkHeight_blob (height : Int32)
    : watermarkHeight (some (watermarkBlob height)) = some height := by
  have fits : height.toUInt32.toNat < 256 ^ 8 := by
    have low := height.toUInt32.toNat_lt
    omega
  rw [watermarkHeight, watermarkBlob, if_pos (length_bytesLE _ _), natLE_bytesLE fits,
    UInt32.ofNat_toNat]
  rfl

/-- What a flush that is not stale leaves behind when it succeeds. -/
structure Flushed (after : System) (height : Int32) (effective : CoinTable) : Prop where
  table : after.db.coins = effective
  watermark : watermarkHeight after.db.flushedHeight = some height
  frontier : after.db.appliedHeight = some (appliedHeightBlob (height + 1))
  cursor : after.db.cursor = some (height + 1).toInt
  emptied : ∀ pos, cellAt after.ram.slots pos = none
  holdsNothing : after.ram.Holds ∅

variable {height : Int32} {env : FlushEnv}

theorem coinsRamFlushWrite_ok {db : RamDb} {adds : List (Outpoint × Coin)} {spends : List Outpoint}
    (ok : (coinsRamFlushWrite env db adds spends height).1 = true)
    : (coinsRamFlushWrite env db adds spends height).2
        = { coins := dropAll (putAll db.coins adds) spends
            flushedHeight := some (watermarkBlob height)
            appliedHeight := some (appliedHeightBlob (height + 1))
            cursor := some (height + 1).toInt } := by
  simp only [coinsRamFlushWrite] at ok ⊢
  split at ok
  · cases ok
  · rename_i added
    rw [Bool.not_eq_false] at added
    split at ok
    · cases ok
    · rename_i spent
      rw [Bool.not_eq_false] at spent
      split at ok
      · cases ok
      · rename_i watermark
        split at ok
        · cases ok
        · rename_i frontier
          split at ok
          · cases ok
          · rename_i cursor
            rw [if_neg (by simp [added]), if_neg (by simp [spent]), if_neg watermark,
              if_neg frontier, if_neg cursor, coinsKvSpendManySqlite_ok spent,
              coinsKvAddManySqlite_ok added]

theorem coinsRamFlushApplyTx_ok {db : RamDb} {adds : List (Outpoint × Coin)}
    {spends : List Outpoint} (ok : (coinsRamFlushApplyTx env db adds spends height).1 = true)
    : (coinsRamFlushApplyTx env db adds spends height).2
        = { coins := dropAll (putAll db.coins adds) spends
            flushedHeight := some (watermarkBlob height)
            appliedHeight := some (appliedHeightBlob (height + 1))
            cursor := some (height + 1).toInt } := by
  simp only [coinsRamFlushApplyTx] at ok ⊢
  split at ok
  · cases ok
  · rename_i begun
    split at ok
    · rename_i committed
      rw [if_neg begun, if_pos committed]
      exact coinsRamFlushWrite_ok (Bool.and_eq_true_iff.mp committed).1
    · cases ok

theorem coinsRamFlushClearOccupied_slots {ram : RamStore} (holds : ram.Holds overlay)
    : (coinsRamFlushClearOccupied ram).slots = List.replicate ram.slots.length none :=
  holds.indexed.clear_eq

theorem coinsRamFlushClearOccupied_holds {ram : RamStore} (holds : ram.Holds overlay)
    : (coinsRamFlushClearOccupied ram).Holds ∅ := by
  obtain ⟨bits, power⟩ := holds.indexed.power
  have cleared := coinsRamFlushClearOccupied_slots holds
  rw [power] at cleared
  have vacant : ∀ entry, ¬ Contains (coinsRamFlushClearOccupied ram).slots entry := by
    rintro entry ⟨pos, found⟩
    rw [cleared, cellAt_replicate] at found
    cases found
  refine ⟨?_, rfl, ?_, ?_, ?_⟩
  · rw [cleared]
    exact Indexed.empty keyHash bits
  · have none_ : entries (coinsRamFlushClearOccupied ram).slots = [] :=
      List.eq_nil_iff_forall_not_mem.mpr fun entry member => vacant entry (mem_entries.mp member)
    rw [none_]
    rfl
  · rw [cleared, List.length_replicate]
    exact Nat.two_pow_pos bits
  · intro op slot
    simp [vacant]

theorem System.Refines.flushed (refines : sys.Refines overlay effective)
    (committed : (coinsRamFlushApplyTx env sys.db (flushAdds sys.ram)
      (flushSpends sys.ram) height).1 = true)
    : Flushed
        { ram := coinsRamFlushClearOccupied sys.ram
          db := (coinsRamFlushApplyTx env sys.db (flushAdds sys.ram) (flushSpends sys.ram)
            height).2 }
        height effective := by
  rw [coinsRamFlushApplyTx_ok committed]
  exact {
    table := refines.flushed_coins
    watermark := watermarkHeight_blob height
    frontier := rfl
    cursor := rfl
    emptied := fun pos => by
      rw [coinsRamFlushClearOccupied_slots refines.holds, cellAt_replicate]
    holdsNothing := coinsRamFlushClearOccupied_holds refines.holds }

/-- How a flush ends: it fails and changes nothing, it is stale and changes nothing, or it drains
the overlay into the table. -/
inductive FlushEnds (before : System) (flushedHeight : Int32) (effective : CoinTable)
    : Bool → System → Prop
  | failed : FlushEnds before flushedHeight effective false before
  | stale {durableHeight : Int32}
    (durable : watermarkHeight before.db.flushedHeight = some durableHeight)
    (isStale : coinsRamFlushIsStale before.ram flushedHeight durableHeight = true)
    : FlushEnds before flushedHeight effective true before
  | drained {durableHeight : Int32} {after : System}
    (durable : watermarkHeight before.db.flushedHeight = some durableHeight)
    (fresh : coinsRamFlushIsStale before.ram flushedHeight durableHeight = false)
    (flushed : Flushed after (coinsRamFlushEffectiveHeight before.ram flushedHeight) effective)
    : FlushEnds before flushedHeight effective true after

theorem coinsRamFlush_ends (refines : sys.Refines overlay effective) (env : FlushEnv)
    (flushedHeight : Int32)
    : FlushEnds sys flushedHeight effective (coinsRamFlush env sys flushedHeight).1
        (coinsRamFlush env sys flushedHeight).2 := by
  unfold coinsRamFlush
  split
  · exact .failed
  · split
    · exact .failed
    · cases durable : watermarkHeight sys.db.flushedHeight with
      | none => exact .failed
      | some durableHeight =>
        dsimp only
        split
        · rename_i isStale
          exact .stale durable isStale
        · rename_i fresh
          rw [Bool.not_eq_true] at fresh
          split
          · exact .failed
          · split
            · exact .failed
            · rw [take_flushAdds refines.holds]
              split
              · rename_i committed
                exact .drained durable fresh (refines.flushed committed)
              · exact .failed

theorem Flushed.refines {after : System} (flushed : Flushed after height effective)
    : after.Refines ∅ effective where
  holds := flushed.holdsNothing
  presents := by
    intro op
    rw [← flushed.table]
    rfl

theorem FlushEnds.refines {flushedHeight : Int32} {returned : Bool} {after : System}
    (ends : FlushEnds sys flushedHeight effective returned after)
    (refines : sys.Refines overlay effective)
    : ∃ next, after.Refines next effective := by
  cases ends with
  | failed => exact ⟨overlay, refines⟩
  | stale => exact ⟨overlay, refines⟩
  | drained _ _ flushed => exact ⟨∅, flushed.refines⟩

end Flush

-- Runs

inductive RamOp where
  | add (op : Outpoint) (coin : Coin) (alloc : Alloc)
  | spend (op : Outpoint) (alloc : Alloc)
  | get (op : Outpoint) (scriptCap : Nat)
  | getPrevout (op : Outpoint) (scriptCap : Nat)
  | existsAt (op : Outpoint)
  | count
  | commitment
  | flush (height : Int32) (env : FlushEnv)
  | noteApplied (height : Int32) (env : FlushEnv)

inductive Reply where
  | returned (ok : Bool)
  | point (read : Option PointRead)
  | prevout (read : Option PrevoutRead)
  | present (found : Bool)
  | counted (rows : Int)
  /-- The bytes that are hashed. -/
  | hashed (stream : Option (List UInt8))

/-- One operation on the overlay. -/
def ramStep (sys : System) : RamOp → Reply × System
  | .add op coin alloc =>
    let result := coinsRamAdd alloc sys.ram op coin
    (.returned result.1, { sys with ram := result.2 })
  | .spend op alloc =>
    let result := coinsRamSpend alloc sys.ram op
    (.returned result.1, { sys with ram := result.2 })
  | .get op scriptCap => (.point (coinsRamGet sys op scriptCap), sys)
  | .getPrevout op scriptCap => (.prevout (coinsRamGetPrevout sys op scriptCap), sys)
  | .existsAt op => (.present (coinsRamExists sys op), sys)
  | .count => (.counted (coinsRamCount sys), sys)
  | .commitment => (.hashed (coinsRamStream sys), sys)
  | .flush height env =>
    let result := coinsRamFlush env sys height
    (.returned result.1, result.2)
  | .noteApplied height env =>
    let result := coinsRamNoteApplied env sys height
    (.returned result.1, result.2)

/-- The same operation on the table alone; a mutation that was refused is not made. -/
def directStep (coins : CoinTable) (reply : Reply) : RamOp → CoinTable
  | .add op coin _ =>
    match reply with
    | .returned true => coins.insert op coin
    | _ => coins
  | .spend op _ =>
    match reply with
    | .returned true => coins.erase op
    | _ => coins
  | _ => coins

/-- The reply is the one of the table, and the state moves only as the operation says. -/
def StepAgrees (before : System) (coins : CoinTable) (reply : Reply) (after : System)
    : RamOp → Prop
  | .add _ _ alloc => after.db = before.db ∧ (alloc = {} → reply = .returned true)
  | .spend _ alloc => after.db = before.db ∧ (alloc = {} → reply = .returned true)
  | .get op scriptCap => reply = .point (coinsKvGetSqlite coins op scriptCap) ∧ after = before
  | .getPrevout op scriptCap =>
    reply = .prevout (coinsKvGetPrevoutSqlite coins op scriptCap) ∧ after = before
  | .existsAt op => reply = .present (coinsKvExistsSqlite coins op) ∧ after = before
  | .count => reply = .counted (coinsKvCountSqlite coins) ∧ after = before
  | .commitment => reply = .hashed (some (coinsKvStream coins)) ∧ after = before
  | .flush height _ => ∃ ok, reply = .returned ok ∧ FlushEnds before height coins ok after
  | .noteApplied height _ =>
    reply = .returned true ∧ (after = before ∨ after = before.note height)
      ∨ ∃ ok, reply = .returned ok ∧ FlushEnds (before.note height) height coins ok after

/-- Every step of a run agrees with the table that the accepted mutations make. -/
def RunAgrees : System → CoinTable → List RamOp → Prop
  | _, _, [] => True
  | sys, coins, op :: rest =>
    StepAgrees sys coins (ramStep sys op).1 (ramStep sys op).2 op
      ∧ RunAgrees (ramStep sys op).2 (directStep coins (ramStep sys op).1 op) rest

/-- The operations that are spoken of: small output numbers, and scripts of a size that is kept. -/
def RamOp.InDomain : RamOp → Prop
  | .add op coin _ => Outpoint.Indexable op ∧ coin.script.length ≤ maxScriptSize
  | _ => True

section Run

variable {sys : System} {overlay : Table Outpoint (Option Coin)} {coins : CoinTable}

theorem System.Refines.add (refines : sys.Refines overlay coins) {alloc : Alloc} {op : Outpoint}
    {coin : Coin} (short : coin.script.length ≤ maxScriptSize) {returned : Bool} {ram : RamStore}
    (run : coinsRamAdd alloc sys.ram op coin = (returned, ram))
    : ∃ next, System.Refines { sys with ram } next
        (if returned then coins.insert op coin else coins) := by
  refine ⟨_, coinsRamAdd_holds refines.holds run, ?_⟩
  cases returned with
  | false => exact refines.presents
  | true => exact refines.presents.add op short

theorem System.Refines.spend (refines : sys.Refines overlay coins) {alloc : Alloc} {op : Outpoint}
    {returned : Bool} {ram : RamStore} (run : coinsRamSpend alloc sys.ram op = (returned, ram))
    : ∃ next, System.Refines { sys with ram } next
        (if returned then coins.erase op else coins) := by
  refine ⟨_, coinsRamSpend_holds refines.holds run, ?_⟩
  cases returned with
  | false => exact refines.presents
  | true => exact refines.presents.spend op

theorem System.Refines.note (refines : sys.Refines overlay coins) (height : Int32)
    : (sys.note height).Refines overlay coins where
  holds :=
    { indexed := refines.holds.indexed
      used := refines.holds.used
      live := refines.holds.live
      roomy := refines.holds.roomy
      shows := refines.holds.shows }
  presents := refines.presents

theorem AllIndexable.insert (indexable : AllIndexable coins) {op : Outpoint}
    (small : Outpoint.Indexable op) (coin : Coin)
    : AllIndexable (coins.insert op coin) := by
  intro other member
  rcases Finmap.mem_insert.mp member with rfl | before
  · exact small
  · exact indexable other before

theorem AllIndexable.erase (indexable : AllIndexable coins) (op : Outpoint)
    : AllIndexable (coins.erase op) := by
  intro other member
  exact indexable other (Finmap.mem_erase.mp member).2

theorem AllIndexable.directStep (indexable : AllIndexable coins) (reply : Reply) {op : RamOp}
    (inDomain : op.InDomain)
    : AllIndexable (directStep coins reply op) := by
  cases op with
  | add op coin alloc =>
    simp only [CoinsRam.directStep]
    split
    · exact indexable.insert inDomain.1 coin
    · exact indexable
  | spend op alloc =>
    simp only [CoinsRam.directStep]
    split
    · exact indexable.erase op
    · exact indexable
  | _ => exact indexable

theorem ramStep_refines (refines : sys.Refines overlay coins) {op : RamOp} (inDomain : op.InDomain)
    : ∃ next, (ramStep sys op).2.Refines next (directStep coins (ramStep sys op).1 op) := by
  cases op with
  | add op coin alloc =>
    cases run : coinsRamAdd alloc sys.ram op coin with
    | mk returned ram =>
      have added := refines.add inDomain.2 run
      simp only [ramStep, run, directStep]
      cases returned <;> exact added
  | spend op alloc =>
    cases run : coinsRamSpend alloc sys.ram op with
    | mk returned ram =>
      have spent := refines.spend run
      simp only [ramStep, run, directStep]
      cases returned <;> exact spent
  | flush height env => exact (coinsRamFlush_ends refines env height).refines refines
  | noteApplied height env =>
    simp only [ramStep, coinsRamNoteApplied, directStep]
    split
    · exact ⟨overlay, refines⟩
    · split
      · have noted := refines.note height
        exact (coinsRamFlush_ends noted env height).refines noted
      · exact ⟨overlay, refines.note height⟩
  | _ => exact ⟨overlay, refines⟩

theorem ramStep_agrees (refines : sys.Refines overlay coins) (indexable : AllIndexable coins)
    (op : RamOp)
    : StepAgrees sys coins (ramStep sys op).1 (ramStep sys op).2 op := by
  cases op with
  | add op coin alloc =>
    refine ⟨rfl, ?_⟩
    rintro rfl
    exact congrArg Reply.returned (coinsRamAdd_succeeds refines.holds op coin)
  | spend op alloc =>
    refine ⟨rfl, ?_⟩
    rintro rfl
    exact congrArg Reply.returned (coinsRamSpend_succeeds refines.holds op)
  | get op scriptCap => exact ⟨congrArg Reply.point (refines.get op scriptCap), rfl⟩
  | getPrevout op scriptCap =>
    exact ⟨congrArg Reply.prevout (refines.getPrevout op scriptCap), rfl⟩
  | existsAt op => exact ⟨congrArg Reply.present (refines.exists_ op), rfl⟩
  | count => exact ⟨congrArg Reply.counted refines.count, rfl⟩
  | commitment => exact ⟨congrArg Reply.hashed (refines.stream indexable), rfl⟩
  | flush height env => exact ⟨_, rfl, coinsRamFlush_ends refines env height⟩
  | noteApplied height env =>
    simp only [StepAgrees, ramStep, coinsRamNoteApplied]
    split
    · exact .inl ⟨rfl, .inl rfl⟩
    · split
      · exact .inr ⟨_, rfl, coinsRamFlush_ends (refines.note height) env height⟩
      · exact .inl ⟨rfl, .inr rfl⟩

theorem runAgrees_of_refines (refines : sys.Refines overlay coins)
    (indexable : AllIndexable coins) {ops : List RamOp} (inDomain : ∀ op ∈ ops, op.InDomain)
    : RunAgrees sys coins ops := by
  induction ops generalizing sys overlay coins with
  | nil => trivial
  | cons op rest ih =>
    have here := inDomain op List.mem_cons_self
    obtain ⟨next, refinesNext⟩ := ramStep_refines refines here
    exact ⟨ramStep_agrees refines indexable op,
      ih refinesNext (indexable.directStep _ here)
        (List.forall_mem_cons.mp inDomain).2⟩

end Run

theorem coinsRamInit_refines (flushEvery : UInt32) (maxSlots : Nat) (db : RamDb)
    : System.Refines { ram := coinsRamInit flushEvery maxSlots, db } ∅ db.coins where
  holds := coinsRamInit_holds flushEvery maxSlots
  presents := fun op => by simp [coinsKvGetPrevout, Storage.coinsRamGetPrevout]

/-- Every run of a fresh overlay answers as the table alone would; its flushes fail, are stale or
write the effective set through the highest height noted. -/
theorem coinsRam_refines_coins (flushEvery : UInt32) (maxSlots : Nat) (db : RamDb)
    (indexable : AllIndexable db.coins) (ops : List RamOp) (inDomain : ∀ op ∈ ops, op.InDomain)
    : RunAgrees { ram := coinsRamInit flushEvery maxSlots, db } db.coins ops :=
  runAgrees_of_refines (coinsRamInit_refines flushEvery maxSlots db) indexable inDomain

/-- A database that a flush at height 5 left without coins. -/
def flushedAtFive : RamDb where
  coins := ∅
  flushedHeight := some (watermarkBlob 5)
  appliedHeight := some (appliedHeightBlob 6)
  cursor := some 6

def someOutpoint : Outpoint := ⟨Uint256.fill 1, 0⟩

def someCoin : Coin := { value := 50, height := 6, isCoinbase := false, script := [0x51] }

/-- A run whose first flush succeeds. -/
theorem coinsRam_refines_coins_runs
    : (coinsRamFlush {} { ram := coinsRamInit 50000 0, db := flushedAtFive } 6).1 = true
      ∧ RunAgrees { ram := coinsRamInit 50000 0, db := flushedAtFive } ∅
          [.flush 6 {}, .add someOutpoint someCoin {}, .get someOutpoint 100, .noteApplied 7 {},
            .count, .commitment, .flush 7 {}, .spend someOutpoint {}, .existsAt someOutpoint] := by
  refine ⟨rfl, coinsRam_refines_coins 50000 0 flushedAtFive
    (fun op member => absurd member Finmap.notMem_empty) _ ?_⟩
  intro op member
  simp only [List.mem_cons, List.not_mem_nil, or_false] at member
  rcases member with rfl | rfl | rfl | rfl | rfl | rfl | rfl | rfl | rfl
  case inr.inl => exact ⟨Nat.two_pow_pos 31, by decide⟩
  all_goals trivial

variable {ram : RamStore}

theorem growWhenLoaded_sinceFlush {alloc : Alloc} {grown : RamStore}
    (run : growWhenLoaded alloc ram = some grown)
    : grown.sinceFlush = ram.sinceFlush := by
  rw [growWhenLoaded] at run
  split at run
  · split at run
    · cases run
      rfl
    · cases run
  · cases run
    rfl

theorem coinsRamAdd_sinceFlush (alloc : Alloc) (ram : RamStore) (op : Outpoint) (coin : Coin)
    : (coinsRamAdd alloc ram op coin).2.sinceFlush = ram.sinceFlush := by
  unfold coinsRamAdd
  cases run : growWhenLoaded alloc ram with
  | none => rfl
  | some grown =>
    rw [← growWhenLoaded_sinceFlush run]
    dsimp only
    split
    · rfl
    · split
      · rfl
      · split <;> rfl
    · split <;> rfl

theorem ramStep_add_then_stale {db : RamDb} {coins : CoinTable}
    {overlay : Table Outpoint (Option Coin)} (refines : System.Refines { ram, db } overlay coins)
    (idle : ram.sinceFlush = 0) (op : Outpoint) {coin : Coin}
    (short : coin.script.length ≤ maxScriptSize) {height : Int32}
    (durable : watermarkHeight db.flushedHeight = some height)
    : (ramStep { ram, db } (.add op coin {})).1 = .returned true
      ∧ (ramStep (ramStep { ram, db } (.add op coin {})).2 (.flush height {})).1 = .returned true
      ∧ coinsRamExists (ramStep (ramStep { ram, db } (.add op coin {})).2 (.flush height {})).2 op
          = true
      ∧ (ramStep (ramStep { ram, db } (.add op coin {})).2 (.flush height {})).2.db = db := by
  have succeeded := coinsRamAdd_succeeds refines.holds op coin
  have run : coinsRamAdd {} ram op coin = (true, (coinsRamAdd {} ram op coin).2) :=
    Prod.ext succeeded rfl
  obtain ⟨next, added⟩ := refines.add short run
  have isStale : coinsRamFlushIsStale (coinsRamAdd {} ram op coin).2 height height = true := by
    rw [coinsRamFlushIsStale, coinsRamAdd_sinceFlush, idle]
    simp
  have stale : coinsRamFlush {} { ram := (coinsRamAdd {} ram op coin).2, db } height
      = (true, { ram := (coinsRamAdd {} ram op coin).2, db }) := by
    simp only [coinsRamFlush, durable, isStale]
    rfl
  have present := added.exists_ op
  rw [if_pos rfl, coinsKvExistsSqlite, lookup_insert_eq, if_pos rfl] at present
  refine ⟨congrArg Reply.returned succeeded, ?_, ?_, ?_⟩
  · simp only [ramStep, stale]
  · simp only [ramStep, stale]
    exact present
  · simp only [ramStep, stale]

/-- A flush at the watermark returns true and leaves a new coin in the overlay alone. -/
theorem coinsRamFlush_stale_keeps_overlay
    : let start : System := { ram := coinsRamInit 50000 0, db := flushedAtFive }
      let added := ramStep start (.add someOutpoint someCoin {})
      let flushed := ramStep added.2 (.flush 5 {})
      added.1 = .returned true ∧ flushed.1 = .returned true
        ∧ coinsRamExists flushed.2 someOutpoint = true ∧ someOutpoint ∉ flushed.2.db.coins := by
  obtain ⟨added, flushed, present, unchanged⟩ :=
    ramStep_add_then_stale (coinsRamInit_refines 50000 0 flushedAtFive) rfl someOutpoint
      (show someCoin.script.length ≤ maxScriptSize by decide) (watermarkHeight_blob 5)
  refine ⟨added, flushed, present, ?_⟩
  rw [unchanged]
  exact Finmap.notMem_empty

end Z23.Storage.CoinsRam
