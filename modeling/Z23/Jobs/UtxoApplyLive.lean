import Z23.Jobs.UtxoApplyStage

/-!
The states that the live fold produces. Each is consistent with the coin sets of its history,
so a reorg unwind of it restores the coin set of the fork height.
-/

namespace Z23.Jobs

open Z23.Lib.FiniteMap Z23.Storage

-- The live lookup

theorem toInt32_ofNat_nonneg {height : Nat} (inRange : height ≤ int32Max)
    : (0 : Int32) ≤ (UInt32.ofNat height).toInt32 := by
  rw [int32Max] at inRange
  rw [Int32.le_iff_toInt_le, ← Int32.toInt_toBitVec (UInt32.toInt32 _), UInt32.toBitVec_toInt32,
    BitVec.toInt_eq_toNat_of_lt]
  · exact Int.natCast_nonneg _
  · rw [UInt32.toNat_toBitVec, UInt32.toNat_ofNat']
    omega

variable {coins : CoinTable}

theorem Dated.applied (dated : Dated coins) {height : Nat} (inRange : height ≤ int32Max)
    (s : DeltaSummary)
    : Dated (appliedTable coins s (UInt32.ofNat height)) := by
  intro op coin found
  rw [appliedTable, lookup_dropAll] at found
  split at found
  · simp at found
  · rcases lookup_putAll_mem found with added | ⟨-, before⟩
    · obtain ⟨e, -, row⟩ := List.mem_map.mp added
      obtain ⟨-, rfl⟩ := Prod.mk.inj row
      exact toInt32_ofNat_nonneg inRange
    · exact dated op coin before

/-- What the live lookup shows of a coin: a negative height reads as zero. -/
def shownCoin (coin : Coin) : Coin :=
  { coin with height := if coin.height < 0 then 0 else coin.height }

theorem exists_shown (coins : CoinTable)
    : ∃ seen : CoinTable, ∀ op, seen.lookup op = (coins.lookup op).map shownCoin := by
  induction coins using table_induction with
  | empty => exact ⟨∅, fun op => by simp⟩
  | insert op coin rest _ ih =>
    obtain ⟨seen, shows⟩ := ih
    refine ⟨seen.insert op (shownCoin coin), fun other => ?_⟩
    rw [lookup_insert_eq, lookup_insert_eq, shows]
    split <;> rfl

theorem utxoApplyStageLookupLive_answers {store : CoinStore} {seen : CoinTable}
    (presents : store.Presents coins)
    (shows : ∀ op, seen.lookup op = (coins.lookup op).map shownCoin)
    : AnswersFrom (utxoApplyStageLookupLive store) seen := by
  intro op lk answer
  rw [utxoApplyStageLookupLive, presents op] at answer
  rw [shows]
  cases inTable : coins.lookup op with
  | none =>
    simp only [inTable, Option.some.injEq] at answer
    simp [← answer]
  | some coin =>
    simp only [inTable] at answer
    split at answer
    · simp at answer
    · obtain rfl := Option.some.inj answer
      refine ⟨rfl, rfl, ?_, rfl, rfl⟩
      simp only [shownCoin]
      split <;> rfl

theorem Dated.answers {store : CoinStore} (dated : Dated coins) (presents : store.Presents coins)
    : AnswersFrom (utxoApplyStageLookupLive store) coins := by
  refine utxoApplyStageLookupLive_answers presents fun op => ?_
  cases inTable : coins.lookup op with
  | none => rfl
  | some coin =>
    have nonneg := Int32.not_lt.mpr (dated op coin inTable)
    simp [shownCoin, nonneg]

-- Runs of the live fold

variable {tables : Nat → CoinTable}

theorem LiveFolded.extend {db next : ApplyDb} (live : LiveFolded db tables)
    (cursor : next.cursor = db.cursor + 1) (presents : next.store.Presents coins)
    (dated : Dated coins)
    (kept : ∀ h : Int, h < db.cursor → next.deltas.lookup h = db.deltas.lookup h)
    (below : ∀ h ∈ next.deltas, h < (next.cursor : Int))
    (connects : (db.cursor : Int) ∈ next.deltas →
      ∃ s branchHash, next.deltas.lookup (db.cursor : Int) =
          some ⟨branchHash, serializeSpent s, serializeAdded s⟩ ∧
        Invertible (tables db.cursor) (UInt32.ofNat db.cursor) s ∧
        coins = appliedTable (tables db.cursor) s (UInt32.ofNat db.cursor))
    (logged : ∀ h row, next.log.lookup h = some row → row.ok = true)
    : LiveFolded next (Function.update tables (db.cursor + 1) coins) where
  presents := by
    rw [cursor, Function.update_self]
    exact presents
  history := by
    intro h low member
    rw [DeltaConnects, Function.update_of_ne (by omega)]
    rcases Nat.lt_succ_iff_lt_or_eq.mp (cursor ▸ low) with older | rfl
    · have inDeltas : (h : Int) ∈ db.deltas := by
        rw [← Finmap.lookup_isSome, ← kept h (by omega), Finmap.lookup_isSome]
        exact member
      rw [Function.update_of_ne (by omega), kept h (by omega)]
      exact live.history h older inDeltas
    · rw [Function.update_self]
      exact connects member
  below := below
  logged := logged
  dated := by
    intro h low
    rcases Nat.lt_succ_iff_lt_or_eq.mp (Nat.lt_succ_of_le (cursor ▸ low)) with older | rfl
    · rw [Function.update_of_ne (by omega)]
      exact live.dated h (by omega)
    · rw [Function.update_self]
      exact dated

theorem FoldedStep.liveFolded {cfg : StageConfig} {st next : StageState} {blk : Block}
    (isLive : cfg.lookup = .live) (live : LiveFolded st.db tables) {offer : Offer}
    (authors : Authors cfg st offer blk) (step : FoldedStep cfg st next blk)
    (presents : next.db.store.Presents coins)
    : LiveFolded next.db (Function.update tables (st.db.cursor + 1) coins) := by
  have answers : AnswersFrom (cfg.lookup.over st.db.store) (tables st.db.cursor) := by
    rw [isLive]
    exact (live.dated _ (le_refl _)).answers live.presents
  have fits : Invertible (tables st.db.cursor) (UInt32.ofNat st.db.cursor)
      (st.deltaOf cfg blk) := utxoApplyComputeBlockDelta_invertible answers authors.accepted.1
  have applied := applyCoinsKv_presents live.presents fits.addedScripts
    (UInt32.ofNat st.db.cursor)
  rw [← step.store] at applied
  obtain rfl := presents.unique applied
  obtain ⟨phashBlock, deltas⟩ := step.deltas
  obtain ⟨row, rowOk, log⟩ := step.log
  refine live.extend step.cursor presents ((live.dated _ (le_refl _)).applied authors.inRange _)
    ?_ ?_ ?_ ?_
  · intro h older
    rw [deltas, lookup_insert_eq, if_neg (by omega)]
  · intro h member
    rw [deltas, Finmap.mem_insert] at member
    rw [step.cursor]
    rcases member with rfl | older
    · omega
    · have := live.below h older
      omega
  · intro _
    exact ⟨_, phashBlock.data, by rw [deltas, lookup_insert_eq, if_pos rfl], fits, rfl⟩
  · intro h found recorded
    rw [log, lookup_insert_eq] at recorded
    split at recorded
    · obtain rfl := Option.some.inj recorded
      exact rowOk
    · exact live.logged h found recorded

/--
The database states that the live fold produces: seeded with a coin set and no stored delta,
then any number of advancing steps and completed unwinds. `tables h` is the coin set that
lookups saw when the heights below `h` were applied.
-/
inductive LiveRun (cfg : StageConfig) : ApplyDb → (Nat → CoinTable) → Prop where
  | seed {db : ApplyDb} {coins : CoinTable} (presents : db.store.Presents coins)
      (dated : Dated coins) (noDeltas : db.deltas = ∅) (noLog : db.log = ∅)
      : LiveRun cfg db (fun _ => coins)
  | step {st : StageState} {tables : Nat → CoinTable} {coins : CoinTable} {fault : StepFault}
      {offer : Offer} (before : LiveRun cfg st.db tables)
      (advanced : (stageRunOnce cfg fault st offer).result = .advanced)
      (presents : (stageRunOnce cfg fault st offer).state.db.store.Presents coins)
      : LiveRun cfg (stageRunOnce cfg fault st offer).state.db
          (Function.update tables (st.db.cursor + 1) coins)
  | unwind {db after : ApplyDb} {tables : Nat → CoinTable} {chain : ChainView}
      {fault : SqlFault} {fork : Int} (before : LiveRun cfg db tables)
      (unwound : utxoApplyReorgUnwindIfNeeded chain fault db = (after, .unwound fork))
      : LiveRun cfg after tables

theorem utxoApplyReorgUnwindIfNeeded_unwinds {chain : ChainView} {fault : SqlFault}
    {db after : ApplyDb} {fork : Int}
    (unwound : utxoApplyReorgUnwindIfNeeded chain fault db = (after, .unwound fork))
    : Unwinds chain db after fork := by
  have cases := utxoApplyReorgUnwindIfNeeded_cases chain fault db
  rw [unwound] at cases
  cases cases with
  | idle outcome still => exact absurd rfl (still fork)
  | unwound diverged unwinds => exact unwinds

theorem LiveRun.liveFolded {cfg : StageConfig} {db : ApplyDb} (isLive : cfg.lookup = .live)
    (run : LiveRun cfg db tables)
    : LiveFolded db tables := by
  induction run with
  | seed presents dated noDeltas noLog =>
    exact {
      presents := presents
      history := fun h _ member => absurd (noDeltas ▸ member) Finmap.notMem_empty
      below := fun h member => absurd (noDeltas ▸ member) Finmap.notMem_empty
      logged := fun h row found => by simp [noLog] at found
      dated := fun _ _ => dated
    }
  | @step st tables coins fault offer before advanced presents ih =>
    have cases := stageRunOnce_cases cfg fault st offer
    generalize stageRunOnce cfg fault st offer = outcome at cases advanced presents ⊢
    cases cases with
    | untouched violates result stays nothing => exact absurd advanced stays
    | torn violates authors struck => simp at advanced
    | undone violates authors => simp at advanced
    | skipped offered skip =>
      obtain rfl := presents.unique ih.presents
      refine ih.extend rfl presents (ih.dated _ (le_refl _)) (fun _ _ => rfl) ?_ ?_ ih.logged
      · intro h member
        have := ih.below h member
        simp
        omega
      · intro member
        have := ih.below _ member
        omega
    | folded authors step =>
      exact step.liveFolded isLive ih authors presents
  | unwind before unwound ih =>
    exact (utxoApplyReorgUnwindIfNeeded_unwinds unwound).liveFolded ih

-- Reorg unwinds of live states

def sampleStageConfig : StageConfig := ⟨sampleConfig, .live, false⟩

/-- An empty store before height 0. -/
def emptyState : StageState where
  db :=
    { store := ⟨∅, none, none⟩
      deltas := ∅
      log := ∅
      nullifiers := []
      anchors := []
      poolTotals := ∅
      cursor := 0
      coinsAppliedHeight := none }
  window := {}
  batchOpen := false
  dirty := false
  audited := false

def genesisOffer : Offer :=
  .block (.fill 9) ⟨.fill 9, [sampleCoinbase]⟩ (.accept [] [] none) false

/-- The state with the genesis block applied. -/
def genesisState : StageState := (stageRunOnce sampleStageConfig .none emptyState genesisOffer).state

/-- A chain with one and the same hash in every slot. -/
def otherChain (hash : UInt8) : ChainView := ⟨fun _ => some (.fill hash), fun _ => false, none⟩

theorem genesisState_liveRun : LiveRun sampleStageConfig genesisState.db (fun _ => ∅) := by
  have seed : LiveRun sampleStageConfig emptyState.db (fun _ => ∅) :=
    .seed (CoinStore.presents_of_off rfl) (fun op coin found => by simp at found) rfl rfl
  have advanced : (stageRunOnce sampleStageConfig .none emptyState genesisOffer).result
      = .advanced := by decide +kernel
  have off : genesisState.db.store.overlay = none := by decide +kernel
  have empty : genesisState.db.store.coins = ∅ := by decide +kernel
  have presents : genesisState.db.store.Presents ∅ := empty ▸ CoinStore.presents_of_off off
  have run := seed.step advanced presents
  rwa [Function.update_eq_self_iff.mpr rfl] at run

end Z23.Jobs
