import Z23.Coins.CoinsViewCache
import Z23.Lib.Mixing

/-!
The running commitment of a coins cache: the hashes of the available outputs, mixed into one by
exclusive or, and their number. Updates add the outputs that a transaction creates and remove those
that it spends; the recomputation goes over the buckets of the cache.
-/

namespace Z23.Coins

open Z23.Lib
open Z23.Lib.Bytes (bytesLE)
open Z23.Lib.FiniteMap (Table)
open Z23.Lib.OpenTable (cellAt Contains entries)
open Z23.Lib.Mixing
open Z23.Validation (Coins coinsInit coinsMathIsPruned coinsFromTransaction coinsMathCaptureUndo
  growEntryVoutForSpend)

-- Commitments

/-- The count stays far below 2^64, as each counted output takes memory. -/
structure UtxoCommitment where
  accumulator : Uint256
  count : Nat
deriving DecidableEq

def xor32 (dst src : Uint256) : Uint256 :=
  ⟨List.zipWith (· ^^^ ·) dst.data src.data, by
    rw [List.length_zipWith, dst.size_data, src.size_data, Nat.min_self]⟩

def utxoCommitmentInit : UtxoCommitment := ⟨.fill 0, 0⟩

section

-- The digest of a buffer, and the switch that freezes all commitments.
variable (sha256 : List UInt8 → Uint256) (skip : Bool)

def hashUtxo (txid : Uint256) (vout : UInt32) (value : Int64) (height : Int32) : Uint256 :=
  sha256 (txid.data ++ bytesLE 4 vout.toNat ++ bytesLE 8 value.toUInt64.toNat
    ++ bytesLE 4 height.toUInt32.toNat)

def utxoCommitmentAdd (uc : UtxoCommitment) (txid : Uint256) (vout : UInt32) (value : Int64)
    (height : Int32) : UtxoCommitment :=
  if skip then uc
  else ⟨xor32 uc.accumulator (hashUtxo sha256 txid vout value height), uc.count + 1⟩

def utxoCommitmentRemove (uc : UtxoCommitment) (txid : Uint256) (vout : UInt32) (value : Int64)
    (height : Int32) : UtxoCommitment :=
  if skip then uc
  else ⟨xor32 uc.accumulator (hashUtxo sha256 txid vout value height), uc.count - 1⟩

/-- The inner loop of the recomputation, over the outputs of a record. -/
def addAvailable (txid : Uint256) (coins : Coins) (out : UtxoCommitment) : UtxoCommitment :=
  (List.range coins.vout.length).foldl (fun out i =>
    match coins.available i with
    | none => out
    | some txout =>
      utxoCommitmentAdd sha256 skip out txid (UInt32.ofNat i) txout.value coins.height) out

/-- One bucket of the recomputation. -/
def addBucket (out : UtxoCommitment) : Option (Uint256 × CoinsCacheEntry) → UtxoCommitment
  | none => out
  | some (txid, entry) =>
    if coinsMathIsPruned entry.coins then out else addAvailable sha256 skip txid entry.coins out

def coinsViewCacheRecomputeCommitment (m : CoinsMap) : UtxoCommitment :=
  m.buckets.foldl (addBucket sha256 skip) utxoCommitmentInit

-- Updates

/-- A cache with its commitment. -/
structure CommittedCache (σ : Type) where
  cache : Cache σ
  commitment : UtxoCommitment

variable {σ : Type} (base : View σ)

def spendInput (c : CommittedCache σ) (input : TxIn)
    : Option (CommittedCache σ × Validation.TxInUndo) :=
  match coinsViewCacheModify base c.cache input.prevout.hash with
  | (_, none) => none
  | (cache, some slot) =>
    (cache.1.entryAt slot).bind fun entry =>
      let pos := input.prevout.n.toNat
      let coins := { entry.coins with vout := growEntryVoutForSpend entry.coins.vout pos }
      match coins.available pos with
      | none => none
      | some out =>
        if !moneyRange out.value then none
        else
          (coinsMathCaptureUndo coins pos).map fun (spent, undo) =>
            ({ cache := (cache.1.writeAt slot (setCoins spent), cache.2)
               commitment := utxoCommitmentRemove sha256 skip c.commitment input.prevout.hash
                input.prevout.n out.value coins.height }, undo)

def spendInputs (c : CommittedCache σ)
    : List TxIn → Option (CommittedCache σ × List Validation.TxInUndo)
  | [] => some (c, [])
  | input :: rest => do
    let (c, undo) ← spendInput sha256 skip base c input
    let (c, undos) ← spendInputs c rest
    some (c, undo :: undos)

/-- A coinbase spends nothing. -/
def spendTransaction (tx : Transaction) (c : CommittedCache σ)
    : Option (CommittedCache σ × List Validation.TxInUndo) :=
  if transactionIsCoinbase tx then some (c, []) else spendInputs sha256 skip base c tx.vin

/-- The loop over the outputs of a new record; `none` where one is no amount. -/
def addNewOutputsToCommitment (txid : Uint256) (coins : Coins) (height : Int32)
    (uc : UtxoCommitment) : Option UtxoCommitment :=
  (List.range coins.vout.length).foldlM (fun uc vi =>
    match coins.available vi with
    | none => some uc
    | some out =>
      if !moneyRange out.value then none
      else some (utxoCommitmentAdd sha256 skip uc txid (UInt32.ofNat vi) out.value height)) uc

def createOutputs (tx : Transaction) (height : Int32) (c : CommittedCache σ)
    : Option (CommittedCache σ) :=
  match coinsViewCacheModifyNew c.cache tx.hash with
  | (_, none) => none
  | (cache, some slot) =>
    (coinsFromTransaction tx height).bind fun coins =>
      (addNewOutputsToCommitment sha256 skip tx.hash coins height c.commitment).map
        fun commitment =>
          { cache := (cache.1.writeAt slot (setCoins coins), cache.2), commitment := commitment }

/-- The cache and the undo data; `none` where the update fails. -/
def updateCoinsWithUndo (tx : Transaction) (c : CommittedCache σ) (height : Int32)
    : Option (CommittedCache σ × List Validation.TxInUndo) := do
  let (c, undo) ← spendTransaction sha256 skip base tx c
  let c ← createOutputs sha256 skip tx height c
  some (c, undo)

/-- Successful updates, one after the other. -/
def updateAll (c : CommittedCache σ) : List (Transaction × Int32) → Option (CommittedCache σ)
  | [] => some c
  | (tx, height) :: rest =>
    (updateCoinsWithUndo sha256 skip base tx c height).bind fun next => updateAll next.1 rest

end

def emptyCache {σ : Type} (s : σ) : CommittedCache σ := ⟨(coinsMapInit, s), utxoCommitmentInit⟩

-- The commitment of a list of hashes

theorem xor32_selfInverse : SelfInverse xor32 where
  swap := by
    intro a x y
    apply Uint256.ext
    apply List.ext_getElem
    · simp [xor32, a.size_data, x.size_data, y.size_data]
    · intro i inside _
      simp only [xor32, List.getElem_zipWith]
      rw [UInt8.xor_assoc, UInt8.xor_assoc]
      exact congrArg _ (UInt8.xor_comm _ _)
  cancel := by
    intro a x
    apply Uint256.ext
    apply List.ext_getElem
    · simp [xor32, a.size_data, x.size_data]
    · intro i inside _
      simp only [xor32, List.getElem_zipWith]
      rw [UInt8.xor_assoc, UInt8.xor_self, UInt8.xor_zero]

variable {sha256 : List UInt8 → Uint256} {skip : Bool}

/-- The commitment to outputs with the hashes. -/
def commit (skip : Bool) (hashes : List Uint256) : UtxoCommitment :=
  if skip then utxoCommitmentInit else ⟨digest xor32 (.fill 0) hashes, hashes.length⟩

theorem commit_perm {hashes others : List Uint256} (perm : hashes.Perm others)
    : commit skip hashes = commit skip others := by
  rw [commit, commit, xor32_selfInverse.digest_perm perm, perm.length_eq]

theorem add_commit (hashes : List Uint256) (txid : Uint256) (vout : UInt32) (value : Int64)
    (height : Int32)
    : utxoCommitmentAdd sha256 skip (commit skip hashes) txid vout value height
        = commit skip (hashes ++ [hashUtxo sha256 txid vout value height]) := by
  cases skip with
  | true => rfl
  | false =>
    simp only [utxoCommitmentAdd, commit, Bool.false_eq_true, if_false, digest_append,
      List.length_append, List.length_singleton]
    rfl

theorem remove_commit (hashes : List Uint256) (txid : Uint256) (vout : UInt32) (value : Int64)
    (height : Int32)
    : utxoCommitmentRemove sha256 skip
          (commit skip (hashUtxo sha256 txid vout value height :: hashes)) txid vout value height
        = commit skip hashes := by
  cases skip with
  | true => rfl
  | false =>
    simp only [utxoCommitmentRemove, commit, Bool.false_eq_true, if_false,
      xor32_selfInverse.remove, List.length_cons, Nat.add_sub_cancel]

-- The hashes of a record

def outputHash (sha256 : List UInt8 → Uint256) (txid : Uint256) (coins : Coins) (i : Nat)
    : Option Uint256 :=
  (coins.available i).map fun out =>
    hashUtxo sha256 txid (UInt32.ofNat i) out.value coins.height

/-- The hashes of the available outputs of a record. -/
def coinHashes (sha256 : List UInt8 → Uint256) (txid : Uint256) (coins : Coins) : List Uint256 :=
  (List.range coins.vout.length).filterMap (outputHash sha256 txid coins)

/-- The hashes of the available outputs in the entries of a cache. -/
def rowHashes (sha256 : List UInt8 → Uint256) (rows : List (Uint256 × CoinsCacheEntry))
    : List Uint256 :=
  rows.flatMap fun row => coinHashes sha256 row.1 row.2.coins

theorem addAvailable_commit (hashes : List Uint256) (txid : Uint256) (coins : Coins)
    : addAvailable sha256 skip txid coins (commit skip hashes)
        = commit skip (hashes ++ coinHashes sha256 txid coins) := by
  unfold addAvailable coinHashes
  induction List.range coins.vout.length generalizing hashes with
  | nil => rw [List.filterMap_nil, List.append_nil, List.foldl_nil]
  | cons i rest ih =>
    rw [List.foldl_cons, List.filterMap_cons, outputHash]
    cases coins.available i with
    | none => exact ih hashes
    | some out =>
      simp only [add_commit, Option.map_some]
      rw [ih, List.append_assoc]
      rfl

theorem coinHashes_of_pruned {txid : Uint256} {coins : Coins}
    (pruned : coinsMathIsPruned coins = true) : coinHashes sha256 txid coins = [] := by
  rw [coinHashes, List.filterMap_eq_nil_iff]
  intro i member
  rw [outputHash, live_available, live, if_pos pruned]
  rfl

theorem recomputeCommitment_eq (m : CoinsMap)
    : coinsViewCacheRecomputeCommitment sha256 skip m
        = commit skip (rowHashes sha256 (entries m.buckets)) := by
  have loop : ∀ (buckets : List (Option (Uint256 × CoinsCacheEntry))) (hashes : List Uint256),
      buckets.foldl (addBucket sha256 skip) (commit skip hashes)
        = commit skip (hashes ++ rowHashes sha256 (buckets.filterMap id)) := by
    intro buckets
    induction buckets with
    | nil =>
      intro hashes
      rw [List.filterMap_nil, rowHashes, List.flatMap_nil, List.append_nil, List.foldl_nil]
    | cons bucket rest ih =>
      intro hashes
      rw [List.foldl_cons]
      cases bucket with
      | none => exact ih hashes
      | some row =>
        have added : addBucket sha256 skip (commit skip hashes) (some row)
            = commit skip (hashes ++ coinHashes sha256 row.1 row.2.coins) := by
          unfold addBucket
          simp only
          split
          · rename_i pruned
            rw [coinHashes_of_pruned pruned, List.append_nil]
          · exact addAvailable_commit hashes row.1 row.2.coins
        rw [added, ih, List.append_assoc]
        rfl
  have start : commit skip [] = utxoCommitmentInit := by
    cases skip with
    | false => rfl
    | true => rfl
  rw [coinsViewCacheRecomputeCommitment, ← start, loop]
  rfl

theorem coinHashes_spend {txid : Uint256} {coins : Coins} {pos : Nat} {out : TxOut}
    (found : coins.available pos = some out)
    : (coinHashes sha256 txid coins).Perm
        (hashUtxo sha256 txid (UInt32.ofNat pos) out.value coins.height
          :: coinHashes sha256 txid { coins with vout := coins.vout.set pos .null }) := by
  obtain ⟨read, -⟩ := Z23.Validation.Coins.available_eq_some.mp found
  have inside : pos < coins.vout.length := (List.getElem?_eq_some_iff.mp read).1
  have split : (List.range coins.vout.length).Perm
      (pos :: (List.range coins.vout.length).erase pos) :=
    List.perm_cons_erase (List.mem_range.mpr inside)
  have here
      : outputHash sha256 txid { coins with vout := coins.vout.set pos .null } pos = none := by
    rw [outputHash, Coins.available, List.getElem?_set_self inside]
    rfl
  have elsewhere : ∀ i ∈ (List.range coins.vout.length).erase pos,
      outputHash sha256 txid { coins with vout := coins.vout.set pos .null } i
        = outputHash sha256 txid coins i := by
    intro i member
    have differs : i ≠ pos := (List.Nodup.mem_erase_iff List.nodup_range).mp member |>.1
    rw [outputHash, outputHash, Coins.available, Coins.available,
      List.getElem?_set_ne (Ne.symm differs)]
  have before := split.filterMap (outputHash sha256 txid coins)
  have after := split.filterMap
    (outputHash sha256 txid { coins with vout := coins.vout.set pos .null })
  rw [List.filterMap_cons, here, List.filterMap_congr elsewhere] at after
  rw [List.filterMap_cons, outputHash, found] at before
  refine before.trans (List.Perm.cons _ ?_)
  rw [coinHashes, List.length_set]
  exact after.symm

-- The entries of a cache

section Rows

variable {m m' : CoinsMap} {table : Table Uint256 CoinsCacheEntry} {txid : Uint256}
  {entry old : CoinsCacheEntry}

theorem entries_nodup (holds : m.Holds table) : (entries m.buckets).Nodup := by
  rcases holds.allocated with empty | allocated
  · rw [empty]
    exact List.nodup_nil
  · exact List.Nodup.of_map Prod.fst allocated.placed.nodup_keys

theorem mem_entries_iff (holds : m.Holds table) {row : Uint256 × CoinsCacheEntry}
    : row ∈ entries m.buckets ↔ table.lookup row.1 = some row.2 := by
  rw [OpenTable.mem_entries]
  exact holds.contains row.1 row.2

/-- The entries of the other transactions. -/
def otherEntries (m : CoinsMap) (txid : Uint256) : List (Uint256 × CoinsCacheEntry) :=
  (entries m.buckets).filter fun row => row.1 ≠ txid

theorem mem_otherEntries (holds : m.Holds table) {row : Uint256 × CoinsCacheEntry}
    : row ∈ otherEntries m txid ↔ table.lookup row.1 = some row.2 ∧ row.1 ≠ txid := by
  rw [otherEntries, List.mem_filter, mem_entries_iff holds, decide_eq_true_eq]

theorem entries_perm_cons (holds : m.Holds table) (present : table.lookup txid = some entry)
    : (entries m.buckets).Perm ((txid, entry) :: otherEntries m txid) := by
  have absent : (txid, entry) ∉ otherEntries m txid := by
    rw [mem_otherEntries holds]
    rintro ⟨-, differs⟩
    exact differs rfl
  have once : ((txid, entry) :: otherEntries m txid).Nodup :=
    List.nodup_cons.mpr ⟨absent, (entries_nodup holds).filter _⟩
  rw [List.perm_ext_iff_of_nodup (entries_nodup holds) once]
  intro row
  rw [mem_entries_iff holds, List.mem_cons, mem_otherEntries holds]
  constructor
  · intro found
    by_cases same : row.1 = txid
    · rw [same, present] at found
      exact .inl (Prod.ext same (Option.some.inj found).symm)
    · exact .inr ⟨found, same⟩
  · rintro (rfl | ⟨found, -⟩)
    · exact present
    · exact found

theorem entries_perm_others (holds : m.Holds table) (absent : table.lookup txid = none)
    : (entries m.buckets).Perm (otherEntries m txid) := by
  have once : (otherEntries m txid).Nodup := (entries_nodup holds).filter _
  rw [List.perm_ext_iff_of_nodup (entries_nodup holds) once]
  intro row
  rw [mem_entries_iff holds, mem_otherEntries holds, iff_self_and]
  intro found same
  rw [same, absent] at found
  cases found

theorem otherEntries_insert (holds : m.Holds table) (holds' : m'.Holds (table.insert txid entry))
    : (otherEntries m' txid).Perm (otherEntries m txid) := by
  have once : (otherEntries m txid).Nodup := (entries_nodup holds).filter _
  have once' : (otherEntries m' txid).Nodup := (entries_nodup holds').filter _
  rw [List.perm_ext_iff_of_nodup once' once]
  intro row
  rw [mem_otherEntries holds', mem_otherEntries holds, FiniteMap.lookup_insert_eq]
  constructor
  · rintro ⟨found, differs⟩
    rw [if_neg differs] at found
    exact ⟨found, differs⟩
  · rintro ⟨found, differs⟩
    rw [if_neg differs]
    exact ⟨found, differs⟩

theorem rowHashes_perm {rows others : List (Uint256 × CoinsCacheEntry)} (perm : rows.Perm others)
    : (rowHashes sha256 rows).Perm (rowHashes sha256 others) :=
  perm.flatMap_right _

theorem rowHashes_replace (holds : m.Holds table) (holds' : m'.Holds (table.insert txid entry))
    (present : table.lookup txid = some old)
    : ∃ others, (rowHashes sha256 (entries m.buckets)).Perm
        (coinHashes sha256 txid old.coins ++ others)
      ∧ (rowHashes sha256 (entries m'.buckets)).Perm
        (coinHashes sha256 txid entry.coins ++ others) := by
  have present' : (table.insert txid entry).lookup txid = some entry := by
    rw [FiniteMap.lookup_insert_eq, if_pos rfl]
  refine ⟨rowHashes sha256 (otherEntries m txid), rowHashes_perm (entries_perm_cons holds present),
    ?_⟩
  exact rowHashes_perm ((entries_perm_cons holds' present').trans
    ((otherEntries_insert holds holds').cons _))

theorem rowHashes_insert (holds : m.Holds table) (holds' : m'.Holds (table.insert txid entry))
    (absent : table.lookup txid = none)
    : (rowHashes sha256 (entries m'.buckets)).Perm
        (rowHashes sha256 (entries m.buckets) ++ coinHashes sha256 txid entry.coins) := by
  have present' : (table.insert txid entry).lookup txid = some entry := by
    rw [FiniteMap.lookup_insert_eq, if_pos rfl]
  refine (rowHashes_perm ((entries_perm_cons holds' present').trans
    (((otherEntries_insert holds holds').trans (entries_perm_others holds absent).symm).cons
      _))).trans ?_
  exact List.perm_append_comm

end Rows

-- Updates keep the commitment

section Updates

variable {σ : Type} {base : View σ} {table : Table Uint256 CoinsCacheEntry}

/-- A view without coins. -/
def View.Empty (base : View σ) : Prop := ∀ s txid, (base.getCoins s txid).2 = none

/-- A cache with the entries of a table that commits to their available outputs. -/
structure Commits (sha256 : List UInt8 → Uint256) (skip : Bool) (c : CommittedCache σ)
    (table : Table Uint256 CoinsCacheEntry) : Prop where
  holds : c.cache.1.Holds table
  committed : c.commitment = commit skip (rowHashes sha256 (entries c.cache.1.buckets))

theorem writeAt_handed {m : CoinsMap} {slot : Nat} {txid : Uint256} {entry : CoinsCacheEntry}
    (holds : m.Holds table) (cell : cellAt m.buckets slot = some (txid, entry))
    (first : CoinsCacheEntry → CoinsCacheEntry)
    : (m.writeAt slot first).entryAt slot = some (first entry)
      ∧ ∀ write, ((m.writeAt slot first).writeAt slot write).Holds
          (table.insert txid (write (first entry))) := by
  have inside : slot < m.buckets.length := OpenTable.lt_of_cellAt (by
    rw [cell]
    exact Option.some_ne_none _)
  have written : cellAt (m.writeAt slot first).buckets slot = some (txid, first entry) := by
    rw [CoinsMap.writeAt, OpenTable.cellAt_set inside, if_pos rfl, cell]
    rfl
  refine ⟨entryAt_of_cell written, ?_⟩
  intro write
  have twice := writeAt_holds (writeAt_holds holds cell first) written write
  rwa [Finmap.insert_insert] at twice

theorem modify_entry (empty : base.Empty) {c : Cache σ} (holds : c.1.Holds table) (txid : Uint256)
    : ∃ cache slot entry, coinsViewCacheModify base c txid = (cache, some slot)
      ∧ cache.1.entryAt slot = some entry
      ∧ entry.coins = ((table.lookup txid).getD .init).coins
      ∧ ∀ write, (cache.1.writeAt slot write).Holds (table.insert txid (write entry)) := by
  rw [coinsViewCacheModify]
  cases found : coinsMapFind c.1 txid with
  | some slot =>
    obtain ⟨-, -, entry, cell, present⟩ := find_some holds.keeps found
    obtain ⟨read, written⟩ := writeAt_handed holds cell markDirty
    exact ⟨_, slot, _, rfl, read, by rw [present]; rfl, written⟩
  | none =>
    have absent := find_none holds.keeps found
    obtain ⟨slot, m', inserted, holds', cell⟩ := insert_holds holds txid
    obtain ⟨read, written⟩ := writeAt_handed holds' cell fun entry =>
      markDirty (setCoins ((base.getCoins c.2 txid).2.getD entry.coins) entry)
    rw [inserted]
    refine ⟨_, slot, _, rfl, read, ?_, ?_⟩
    · rw [empty]
      rfl
    · intro write
      have both := written write
      rwa [Finmap.insert_insert] at both

theorem modifyNew_entry {c : Cache σ} (holds : c.1.Holds table) (txid : Uint256)
    : ∃ cache slot entry, coinsViewCacheModifyNew c txid = (cache, some slot)
      ∧ ∀ write, (cache.1.writeAt slot write).Holds (table.insert txid (write entry)) := by
  obtain ⟨slot, m', inserted, holds', cell⟩ := insert_holds holds txid
  obtain ⟨-, written⟩ := writeAt_handed holds' cell fun entry =>
    { entry with dirty := true, fresh := true }
  simp only [Finmap.insert_insert] at written
  rw [coinsViewCacheModifyNew, inserted]
  exact ⟨_, slot, _, rfl, written⟩

/-- The transactions without an entry stay without one. -/
def NoneNew (table table' : Table Uint256 CoinsCacheEntry) : Prop :=
  ∀ txid, table.lookup txid = none → table'.lookup txid = none

variable {c' c : CommittedCache σ}

theorem spendInput_commits (empty : base.Empty) {input : TxIn} {undo : Validation.TxInUndo}
    (commits : Commits sha256 skip c table)
    (spent : spendInput sha256 skip base c input = some (c', undo))
    : ∃ table', Commits sha256 skip c' table' ∧ NoneNew table table' := by
  obtain ⟨cache, slot, entry, handed, read, coins, written⟩ :=
    modify_entry empty commits.holds input.prevout.hash
  rw [spendInput, handed] at spent
  simp only [read, Option.bind_some, Z23.Validation.available_grow] at spent
  split at spent
  · cases spent
  · rename_i out available
    split at spent
    · cases spent
    · rw [Z23.Validation.growEntryVoutForSpend_of_available available] at spent
      obtain ⟨⟨spentCoins, undo'⟩, captured, result⟩ := Option.map_eq_some_iff.mp spent
      cases result
      obtain ⟨-, -, rfl, -⟩ := Z23.Validation.coinsMathCaptureUndo_eq_some captured
      obtain ⟨old, present, same⟩ : ∃ old, table.lookup input.prevout.hash = some old
          ∧ entry.coins = old.coins := by
        cases present : table.lookup input.prevout.hash with
        | none =>
          rw [coins, present] at available
          cases available
        | some old => exact ⟨old, rfl, by rw [coins, present]; rfl⟩
      have holds' := written (setCoins { entry.coins with
        vout := entry.coins.vout.set input.prevout.n.toNat .null })
      obtain ⟨others, before, after⟩ :=
        @rowHashes_replace sha256 _ _ _ _ _ _ commits.holds holds' present
      refine ⟨_, ⟨holds', ?_⟩, ?_⟩
      · have spentHash := @coinHashes_spend sha256 input.prevout.hash _ _ _ available
        rw [UInt32.ofNat_toNat] at spentHash
        rw [← same] at before
        rw [commits.committed, commit_perm (before.trans (spentHash.append_right others)),
          commit_perm after]
        exact remove_commit _ _ _ _ _
      · intro txid absent
        rw [FiniteMap.lookup_insert_eq, if_neg, absent]
        rintro rfl
        rw [present] at absent
        cases absent

theorem spendInputs_commits (empty : base.Empty) {inputs : List TxIn}
    {undos : List Validation.TxInUndo} (commits : Commits sha256 skip c table)
    (spent : spendInputs sha256 skip base c inputs = some (c', undos))
    : ∃ table', Commits sha256 skip c' table' ∧ NoneNew table table' := by
  induction inputs generalizing c undos table with
  | nil =>
    cases spent
    exact ⟨table, commits, fun _ absent => absent⟩
  | cons input rest ih =>
    simp only [spendInputs, Option.bind_eq_bind, Option.bind_eq_some_iff, Prod.exists] at spent
    obtain ⟨middle, undo, first, last, undos', others, result⟩ := spent
    cases result
    obtain ⟨table', commits', kept⟩ := spendInput_commits empty commits first
    obtain ⟨table'', commits'', kept'⟩ := ih commits' others
    exact ⟨table'', commits'', fun txid absent => kept' txid (kept txid absent)⟩

variable {height : Int32}

theorem addNewOutputs_commit {txid : Uint256} {coins : Coins} {hashes : List Uint256}
    {uc : UtxoCommitment} (same : coins.height = height)
    (added : addNewOutputsToCommitment sha256 skip txid coins height (commit skip hashes) = some uc)
    : uc = commit skip (hashes ++ coinHashes sha256 txid coins) := by
  unfold addNewOutputsToCommitment at added
  unfold coinHashes
  generalize List.range coins.vout.length = indices at added ⊢
  induction indices generalizing hashes with
  | nil =>
    cases added
    rw [List.filterMap_nil, List.append_nil]
  | cons i rest ih =>
    rw [List.foldlM_cons] at added
    rw [List.filterMap_cons, outputHash]
    cases available : coins.available i with
    | none =>
      rw [available] at added
      exact ih added
    | some out =>
      rw [available] at added
      simp only [add_commit] at added
      split at added
      · cases added
      · rw [ih added, same, Option.map_some, List.append_assoc]
        rfl

theorem createOutputs_commits {tx : Transaction} (commits : Commits sha256 skip c table)
    (new : table.lookup tx.hash = none) (created : createOutputs sha256 skip tx height c = some c')
    : ∃ table', Commits sha256 skip c' table'
      ∧ ∀ txid, txid ≠ tx.hash → table.lookup txid = none → table'.lookup txid = none := by
  obtain ⟨cache, slot, entry, handed, written⟩ := modifyNew_entry commits.holds tx.hash
  rw [createOutputs, handed] at created
  simp only at created
  obtain ⟨coins, made, later⟩ := Option.bind_eq_some_iff.mp created
  obtain ⟨uc, added, rfl⟩ := Option.map_eq_some_iff.mp later
  have height' : coins.height = height := by
    unfold coinsFromTransaction at made
    split at made
    · cases made
    · cases made
      rfl
  have holds' := written (setCoins coins)
  rw [commits.committed] at added
  refine ⟨_, ⟨holds', ?_⟩, ?_⟩
  · rw [addNewOutputs_commit height' added]
    exact (commit_perm (rowHashes_insert commits.holds holds' new)).symm
  · intro txid differs absent
    rw [FiniteMap.lookup_insert_eq, if_neg differs, absent]

theorem updateCoinsWithUndo_commits (empty : base.Empty) {tx : Transaction}
    {undos : List Validation.TxInUndo} (commits : Commits sha256 skip c table)
    (new : table.lookup tx.hash = none)
    (updated : updateCoinsWithUndo sha256 skip base tx c height = some (c', undos))
    : ∃ table', Commits sha256 skip c' table'
      ∧ ∀ txid, txid ≠ tx.hash → table.lookup txid = none → table'.lookup txid = none := by
  simp only [updateCoinsWithUndo, Option.bind_eq_bind, Option.bind_eq_some_iff, Prod.exists]
    at updated
  obtain ⟨spent, undos', inputs, final, created, result⟩ := updated
  cases result
  obtain ⟨middle, commits', kept⟩ : ∃ middle, Commits sha256 skip spent middle
      ∧ NoneNew table middle := by
    unfold spendTransaction at inputs
    split at inputs
    · cases inputs
      exact ⟨table, commits, fun _ absent => absent⟩
    · exact spendInputs_commits empty commits inputs
  obtain ⟨table', commits'', others⟩ := createOutputs_commits commits' (kept _ new) created
  exact ⟨table', commits'', fun txid differs absent => others txid differs (kept txid absent)⟩

theorem updateAll_commits (empty : base.Empty) {txs : List (Transaction × Int32)}
    (commits : Commits sha256 skip c table) (new : ∀ step ∈ txs, table.lookup step.1.hash = none)
    (distinct : (txs.map fun step => step.1.hash).Nodup)
    (ran : updateAll sha256 skip base c txs = some c')
    : ∃ table', Commits sha256 skip c' table' := by
  induction txs generalizing c table with
  | nil =>
    cases ran
    exact ⟨table, commits⟩
  | cons step rest ih =>
    obtain ⟨tx, height⟩ := step
    obtain ⟨⟨next, undos⟩, updated, later⟩ := Option.bind_eq_some_iff.mp ran
    rw [List.map_cons, List.nodup_cons] at distinct
    obtain ⟨table', commits', kept⟩ :=
      updateCoinsWithUndo_commits empty commits (new _ List.mem_cons_self) updated
    apply ih commits' _ distinct.2 later
    intro other member
    apply kept other.1.hash _ (new other (List.mem_cons_of_mem _ member))
    intro same
    exact distinct.1 (List.mem_map.mpr ⟨other, member, same⟩)

end Updates

/--
After any number of successful updates of an empty cache over an empty base, with distinct
transactions, the running commitment is the one that the recomputation finds.
-/
theorem updateAll_commitment {σ : Type} (sha256 : List UInt8 → Uint256) (skip : Bool)
    (base : View σ) (empty : base.Empty) (s : σ) (txs : List (Transaction × Int32))
    (distinct : (txs.map fun step => step.1.hash).Nodup) (c : CommittedCache σ)
    (ran : updateAll sha256 skip base (emptyCache s) txs = some c)
    : c.commitment = coinsViewCacheRecomputeCommitment sha256 skip c.cache.1 := by
  have start : Commits sha256 skip (emptyCache s) ∅ := by
    refine ⟨holds_empty false, ?_⟩
    cases skip with
    | false => rfl
    | true => rfl
  obtain ⟨table, commits⟩ :=
    updateAll_commits empty start (fun _ _ => Finmap.lookup_empty _) distinct ran
  rw [commits.committed, recomputeCommitment_eq]

def emptyView : View Unit := ⟨fun s _ => (s, none)⟩

/-- A transaction with an id, inputs and amounts. -/
def plainTx (hash : UInt8) (vin : List Outpoint) (values : List Int64) : Transaction :=
  { hash := .fill hash
    vin := vin.map fun prevout => { prevout }
    vout := values.map fun value => ⟨value, []⟩ }

/-- A coinbase with two outputs, and a transaction that spends the second one. -/
theorem updateAll_commitment_two
    : ∃ c, updateAll (fun bytes => .ofNatLE (Lib.Bytes.natLE bytes)) false emptyView (emptyCache ())
          [(plainTx 1 [⟨.fill 0, 0xffffffff⟩] [5, 7], 1), (plainTx 2 [⟨.fill 1, 1⟩] [6], 2)]
        = some c
      ∧ c.commitment = coinsViewCacheRecomputeCommitment
          (fun bytes => .ofNatLE (Lib.Bytes.natLE bytes)) false c.cache.1 := by
  have runs : (updateAll (fun bytes => .ofNatLE (Lib.Bytes.natLE bytes)) false emptyView
      (emptyCache ()) [(plainTx 1 [⟨.fill 0, 0xffffffff⟩] [5, 7], 1),
        (plainTx 2 [⟨.fill 1, 1⟩] [6], 2)]).isSome = true := by
    decide +kernel
  obtain ⟨c, ran⟩ := Option.isSome_iff_exists.mp runs
  exact ⟨c, ran, updateAll_commitment _ false emptyView (fun _ _ => rfl) () _ (by decide) c ran⟩

end Z23.Coins
