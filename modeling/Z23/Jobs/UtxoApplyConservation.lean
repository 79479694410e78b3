import Z23.Jobs.UtxoApplyFold

/-!
Money over one folded block: the fee accumulator, the coinbase ceiling and the change of the
coin table.
-/

namespace Z23.Jobs

open Z23.Consensus Z23.Lib Z23.Lib.FiniteMap Z23.Lib.FoldM Z23.Storage

variable {cfg : ApplyConfig} {coins : CoinTable} {height : UInt32} {lookup : LookupFn}

-- Fees

/-- The transactions that pay fees. -/
def ordinary (txs : List Transaction) : List Transaction :=
  txs.filter (fun tx => !transactionIsCoinbase tx)

/-- The fee accumulator is in range and covered by what the ordinary transactions spent. -/
structure FeesCovered (done : List Transaction) (st : FoldState) : Prop where
  low : 0 ≤ st.feesTotal.toInt
  high : st.feesTotal.toInt ≤ 2100000000000000
  covered
    : st.feesTotal.toInt + ((ordinary done).map exactValueOut).sum
        ≤ sumInt (st.out.spent.map DeltaEntry.value)
          + ((ordinary done).map exactShieldedIn).sum
  outputs : ∀ tx ∈ ordinary done, ∀ txo ∈ tx.vout, 0 ≤ txo.value.toInt

/--
An accepted fee is what the exact inputs leave over. The input sum may have wrapped: it is then
below the exact sum, and the comparison with the outputs still holds of the exact one.
-/
theorem utxoDeltaApplyTxFee_ok {tx : Transaction} {spendsCoinbase : Bool}
    {inputValue fees fees' : Int64} {out : DeltaSummary} (low : 0 ≤ fees.toInt)
    (high : fees.toInt ≤ 2100000000000000)
    (run : utxoDeltaApplyTxFee cfg tx spendsCoinbase inputValue fees out = .ok fees')
    : 0 ≤ fees'.toInt ∧ fees'.toInt ≤ 2100000000000000
        ∧ fees'.toInt + exactValueOut tx
            = fees.toInt + inputValue.toInt + exactShieldedIn tx
        ∧ ∀ txo ∈ tx.vout, 0 ≤ txo.value.toInt := by
  simp only [utxoDeltaApplyTxFee] at run
  split at run
  · simp [deltaFail] at run
  split at run
  · simp [deltaFail] at run
  rename_i inRange
  split at run
  · simp [deltaFail] at run
  rename_i covered
  split at run
  · simp [deltaFail] at run
  rename_i feeInRange
  obtain rfl := Except.ok.inj run
  have zero : (0 : Int64).toInt = 0 := by decide
  have most : maxMoney.toInt = 2100000000000000 := by decide
  simp only [Bool.or_eq_true, decide_eq_true_eq, not_or, Int64.lt_iff_toInt_lt, gt_iff_lt,
    Int.not_lt] at inRange covered feeInRange
  obtain ⟨⟨shNonneg, outNonneg⟩, shBound⟩ := inRange
  rw [zero] at shNonneg outNonneg
  obtain ⟨outExact, outputsNonneg, outMost⟩ := transactionGetValueOut_exact outNonneg
  obtain ⟨shExact, shMost⟩ := transactionGetShieldedValueIn_exact shNonneg
  have inputLow := Int64.le_toInt inputValue
  have inputHigh := Int64.toInt_lt inputValue
  have room := toInt_sub_cases maxMoney inputValue
  have sumCases := toInt_add_cases inputValue (transactionGetShieldedValueIn tx)
  have feeCases := toInt_sub_cases (inputValue + transactionGetShieldedValueIn tx)
    (transactionGetValueOut tx)
  have feeRoom := toInt_sub_cases maxMoney fees
  have totalCases := toInt_add_cases fees
    (inputValue + transactionGetShieldedValueIn tx - transactionGetValueOut tx)
  refine ⟨by omega, by omega, by omega, outputsNonneg⟩

theorem FeesCovered.step {done : List Transaction} {tx : Transaction} {st st' : FoldState}
    {ses es : List DeltaEntry} (fees : FeesCovered done st)
    (txFolded : TxFolded cfg coins tx st st' ses es)
    : FeesCovered (done ++ [tx]) st' := by
  have spentSum : sumInt (st'.out.spent.map DeltaEntry.value)
      = sumInt (st.out.spent.map DeltaEntry.value) + sumInt (ses.map DeltaEntry.value) := by
    rw [txFolded.spent, List.map_append, sumInt_append]
  have paidBefore := fees.covered
  cases isCoinbase : transactionIsCoinbase tx with
  | true =>
    have same : ordinary (done ++ [tx]) = ordinary done := by
      simp [ordinary, isCoinbase]
    have noSpends : ses = [] := by
      have noOps := txFolded.outpoints
      rw [spentOutpoints, if_pos isCoinbase] at noOps
      exact List.map_eq_nil_iff.mp noOps
    rw [noSpends] at spentSum
    have feeEq := txFolded.coinbaseFee isCoinbase
    refine ⟨feeEq ▸ fees.low, feeEq ▸ fees.high, ?_, same ▸ fees.outputs⟩
    rw [same, feeEq, spentSum]
    simpa using paidBefore
  | false =>
    have more : ordinary (done ++ [tx]) = ordinary done ++ [tx] := by
      simp [ordinary, isCoinbase]
    obtain ⟨_, inputValue, _, inputBound, feeRun⟩ := txFolded.fee isCoinbase
    obtain ⟨low, high, balance, outputsNonneg⟩ := utxoDeltaApplyTxFee_ok fees.low fees.high feeRun
    refine ⟨low, high, ?_, ?_⟩
    · rw [more, spentSum]
      simp only [List.map_append, List.sum_append, List.map_singleton, List.sum_singleton]
      omega
    · intro other member
      rw [more] at member
      rcases List.mem_append.mp member with old | new
      · exact fees.outputs other old
      · exact List.mem_singleton.mp new ▸ outputsNonneg

variable {blk : Block}

theorem feesCovered_of_run {idx : AddedIndex} {final : FoldState}
    (init : addedIndexInit (utxoDeltaAddCap blk) = some idx) (answers : AnswersFrom lookup coins)
    (run : utxoDeltaFoldTransactions cfg height lookup ⟨deltaSummaryInit, idx, 0⟩ blk = .ok final)
    : FeesCovered blk.vtx final := by
  have start : FeesCovered [] ⟨deltaSummaryInit, idx, 0⟩ :=
    ⟨by simp, by simp, by simp [ordinary, deltaSummaryInit], by simp [ordinary]⟩
  refine (foldlM_ok_invariant
    (fun done st => FeesCovered done st ∧ Records coins height blk.vtx st.addIdx st.out)
    ⟨start, .init init⟩ ?_ run).1
  intro before tx after st next split held stepped
  have inBlock : tx ∈ blk.vtx := by
    rw [split]
    simp
  obtain ⟨⟨ses, es, txFolded⟩, nextRecords⟩ := utxoDeltaFoldOneTx_ok inBlock held.2 answers stepped
  exact ⟨held.1.step txFolded, nextRecords⟩

theorem utxoDeltaCheckCoinbaseSubsidy_ok {coinbase : Transaction} {rest : List Transaction}
    {fees : Int64} {out : DeltaSummary} (vtx : blk.vtx = coinbase :: rest)
    (isCoinbase : transactionIsCoinbase coinbase = true) (aboveGenesis : 0 < height)
    (run : utxoDeltaCheckCoinbaseSubsidy cfg blk height fees out = .ok ())
    : exactValueOut coinbase
          ≤ fees.toInt + getBlockSubsidy height.toInt32.toInt cfg.params
        ∧ ∀ txo ∈ coinbase.vout, 0 ≤ txo.value.toInt := by
  simp only [utxoDeltaCheckCoinbaseSubsidy, vtx, isCoinbase, Bool.and_true,
    decide_eq_true_eq, gt_iff_lt, aboveGenesis, if_true] at run
  split at run
  · simp [deltaFail] at run
  split at run
  · simp [deltaFail] at run
  rename_i withinReward
  simp only [Bool.or_eq_true, decide_eq_true_eq, not_or, Int64.lt_iff_toInt_lt,
    Int.not_lt] at withinReward
  have zero : (0 : Int64).toInt = 0 := by decide
  obtain ⟨outExact, outputsNonneg, -⟩ :=
    transactionGetValueOut_exact (Int.le_trans zero.ge withinReward.1)
  exact ⟨by omega, outputsNonneg⟩

-- The block

/-- The first and only the first transaction is a coinbase. -/
structure CoinbaseFirst (blk : Block) (coinbase : Transaction) (rest : List Transaction)
    : Prop where
  vtx : blk.vtx = coinbase :: rest
  first : transactionIsCoinbase coinbase = true
  others : ∀ tx ∈ rest, transactionIsCoinbase tx = false

theorem CoinbaseFirst.ordinary_eq {coinbase : Transaction} {rest : List Transaction}
    (shape : CoinbaseFirst blk coinbase rest)
    : ordinary blk.vtx = rest := by
  rw [shape.vtx, ordinary, List.filter_cons_of_neg (by simp [shape.first]), List.filter_eq_self]
  intro tx member
  simp [shape.others tx member]

/-- What leaves the coin set out may only have skipped outputs that are not negative. -/
theorem enteringValue_le_transparentOut {tx : Transaction}
    (nonneg : ∀ txo ∈ tx.vout, 0 ≤ txo.value.toInt)
    : enteringValue tx.vout.zipIdx ≤ transparentOut tx := by
  have general : ∀ outputs : List (TxOut × Nat),
      (∀ output ∈ outputs, 0 ≤ output.1.value.toInt) →
        enteringValue outputs ≤ sumInt (outputs.map (·.1.value)) := by
    intro outputs
    induction outputs with
    | nil => simp [enteringValue, entering]
    | cons output rest ih =>
      intro allNonneg
      have here := allNonneg output List.mem_cons_self
      have later := ih (List.forall_mem_cons.mp allNonneg).2
      cases enters : entersCoinSet output.1 with
      | true =>
        simp only [enteringValue, entering, List.filter_cons, enters, if_true,
          List.map_cons, sumInt_cons] at later ⊢
        omega
      | false =>
        simp only [enteringValue, entering, List.filter_cons, enters, List.map_cons,
          sumInt_cons] at later ⊢
        simp only [Bool.false_eq_true, if_false]
        omega
  have all := general tx.vout.zipIdx fun output member =>
    nonneg output.1 (List.fst_mem_of_mem_zipIdx member)
  have values : tx.vout.zipIdx.map (·.1.value) = tx.vout.map TxOut.value := by
    calc tx.vout.zipIdx.map (·.1.value)
        = (tx.vout.zipIdx.map Prod.fst).map TxOut.value := by rw [List.map_map]; rfl
      _ = tx.vout.map TxOut.value := by rw [List.zipIdx_map_fst]
  rwa [values] at all

theorem totalValue_appliedTable {txs : List Transaction} {idx : AddedIndex} {s : DeltaSummary}
    (records : Records coins height txs idx s) (spentOnce : (s.spent.map DeltaEntry.outpoint).Nodup)
    : totalValue (appliedTable coins s height)
        = totalValue coins + sumInt (s.added.map DeltaEntry.value)
          - sumInt (s.spent.map DeltaEntry.value) := by
  have gained : totalValue (withAdded coins height s.added)
      = totalValue coins + sumInt (s.added.map DeltaEntry.value) := by
    rw [totalValue, withAdded, total_putAll]
    · simp [sumInt, totalValue, DeltaEntry.addRow, Function.comp_def]
    · rw [map_fst_addRow]
      exact records.indexes.distinct
    · rw [map_fst_addRow]
      intro op member
      obtain ⟨e, inAdded, rfl⟩ := List.mem_map.mp member
      exact records.fresh e inAdded
  have restoredOnce : ((s.spent.map DeltaEntry.restoreRow).map Prod.fst).Nodup := by
    rwa [map_fst_restoreRow]
  have restored : ∀ row ∈ s.spent.map DeltaEntry.restoreRow,
      (withAdded coins height s.added).lookup row.1 = some row.2 := by
    intro row member
    obtain ⟨e, inSpent, rfl⟩ := List.mem_map.mp member
    exact records.restores e inSpent
  have lost := total_dropAll (fun _ coin => coin.value.toInt) restoredOnce restored
  rw [map_fst_restoreRow] at lost
  have spentSum : ((s.spent.map DeltaEntry.restoreRow).map
      (fun row => row.2.value.toInt)).sum = sumInt (s.spent.map DeltaEntry.value) := by
    simp [sumInt, DeltaEntry.restoreRow, Function.comp_def]
  rw [spentSum] at lost
  simp only [totalValue, appliedTable] at gained lost ⊢
  omega

/--
What a sound fold of a block over the coin set `coins` guarantees: no outpoint is spent twice,
every spent outpoint was there or was created earlier in the block, and no money is made.
-/
structure SoundBlock (cfg : ApplyConfig) (coins : CoinTable) (blk : Block) (height : UInt32)
    (after : CoinTable) : Prop where
  spentOnce : (blk.vtx.flatMap spentOutpoints).Nodup
  known
    : ∀ before tx behind, blk.vtx = before ++ tx :: behind →
        ∀ op ∈ spentOutpoints tx, op ∈ coins ∨ op ∈ before.flatMap createdOutpoints
  conserved
    : totalValue after + netPoolInflow blk.vtx
        ≤ totalValue coins + getBlockSubsidy height.toInt32.toInt cfg.params

/-- No two transactions of the block name a common outpoint in their inputs. -/
def NoSharedPrevout (blk : Block) : Prop :=
  blk.vtx.Pairwise (fun tx other => List.Disjoint (spentOutpoints tx) (spentOutpoints other))

theorem spentOnce_iff_noSharedPrevout
    (distinctInputs : ∀ tx ∈ blk.vtx, (tx.vin.map TxIn.prevout).Nodup)
    : (blk.vtx.flatMap spentOutpoints).Nodup ↔ NoSharedPrevout blk := by
  rw [List.nodup_flatMap]
  refine ⟨And.right, fun disjoint => ⟨?_, disjoint⟩⟩
  intro tx member
  rw [spentOutpoints]
  split
  · exact List.nodup_nil
  · exact distinctInputs tx member

/--
The fold itself keeps no set of spent outpoints: an accepted block is sound exactly when no two
of its transactions name a common outpoint.
-/
theorem accepted_block_sound_iff {blk : Block} {coinbase : Transaction} {rest : List Transaction}
    {meter : Option Int} (answers : AnswersFrom lookup coins)
    (notGenesis : blk.hash ≠ cfg.params.hashGenesisBlock) (aboveGenesis : 0 < height)
    (distinctInputs : ∀ tx ∈ blk.vtx, (tx.vin.map TxIn.prevout).Nodup)
    (shape : CoinbaseFirst blk coinbase rest)
    (coinbaseJoinsplits : ∀ js ∈ coinbase.vJoinsplit, 0 ≤ js.vpubNew.toInt)
    (accepted : (utxoApplyComputeBlockDelta cfg blk height lookup).Accepted)
    : SoundBlock cfg coins blk height
          (applyCoinsKv ⟨coins, none, meter⟩
            (utxoApplyComputeBlockDelta cfg blk height lookup) height).coins
        ↔ NoSharedPrevout blk := by
  rw [← spentOnce_iff_noSharedPrevout distinctInputs, applyCoinsKv_off rfl]
  refine ⟨SoundBlock.spentOnce, fun spentOnce => ?_⟩
  obtain ⟨idx, init, run⟩ := utxoApplyComputeBlockDelta_accepted notGenesis accepted
  generalize utxoApplyComputeBlockDelta cfg blk height lookup = s at run
  simp only [utxoDeltaRun, bind_eq_ok, pure, Except.pure, Except.ok.injEq] at run
  obtain ⟨st, foldRun, _, ceilingRun, _, -, rfl⟩ := run
  obtain ⟨folded, records⟩ := utxoDeltaFoldTransactions_ok init answers foldRun
  have fees := feesCovered_of_run init answers foldRun
  obtain ⟨ceiling, coinbaseOutputs⟩ :=
    utxoDeltaCheckCoinbaseSubsidy_ok shape.vtx shape.first aboveGenesis ceilingRun
  refine ⟨spentOnce, folded.known, ?_⟩
  have allOutputs : ∀ tx ∈ blk.vtx, ∀ txo ∈ tx.vout, 0 ≤ txo.value.toInt := by
    intro tx member
    rw [shape.vtx] at member
    rcases List.mem_cons.mp member with rfl | later
    · exact coinbaseOutputs
    · exact fees.outputs tx (shape.ordinary_eq.symm ▸ later)
  have createdLe : sumInt (st.out.added.map DeltaEntry.value)
      ≤ ((coinbase :: rest).map transparentOut).sum := by
    rw [folded.value, ← shape.vtx]
    exact List.sum_le_sum fun tx member =>
      enteringValue_le_transparentOut (allOutputs tx member)
  have noUnshield : 0 ≤ exactShieldedIn coinbase := by
    have pool : 0 ≤ sproutOut coinbase := by
      apply sumInt_nonneg
      intro value member
      obtain ⟨js, inTx, rfl⟩ := List.mem_map.mp member
      exact coinbaseJoinsplits js inTx
    rw [exactShieldedIn]
    omega
  have covered := fees.covered
  rw [shape.ordinary_eq] at covered
  have balance := created_add_inflow_le covered ceiling noUnshield createdLe
  rw [← shape.vtx] at balance
  have change := totalValue_appliedTable records (by rw [folded.spent]; exact spentOnce)
  rw [CoinStore.write_coins, change]
  omega

/-- Main network values of the parameters the fold reads, with a made-up genesis hash. -/
def sampleConfig : ApplyConfig where
  params :=
    { hashGenesisBlock := .fill 9
      fCoinbaseMustBeProtected := true
      nSubsidySlowStartInterval := 2
      nPreButtercupSubsidyHalvingInterval := 840000
      nPostButtercupSubsidyHalvingInterval := 1680000
      buttercupHeight := 707000 }
  enforceCoinbaseMaturity := true
  replayCountOnlyActive := false

def sampleCoinbase : Transaction where
  vin := [{ prevout := ⟨.fill 0, 0xffffffff⟩ }]
  vout := [⟨1250000000, [0x51]⟩]
  hash := .fill 1

/-- A payment of ten units from output 0 of the transaction with hash bytes `spends`. -/
def samplePayment (spends hash : UInt8) : Transaction where
  vin := [{ prevout := ⟨.fill spends, 0⟩ }]
  vout := [⟨10, [0x51]⟩]
  hash := .fill hash

def sampleCoins : CoinTable :=
  (∅ : CoinTable).insert ⟨.fill 7, 0⟩ ⟨10, 50, false, [0x51]⟩

/-- Two payments in a row: the second spends the first. -/
def chainedBlock : Block :=
  ⟨.fill 8, [sampleCoinbase, samplePayment 7 2, samplePayment 2 3]⟩

/-- Two payments that both spend the one coin of `sampleCoins`. -/
def doubleSpendBlock : Block :=
  ⟨.fill 8, [sampleCoinbase, samplePayment 7 2, samplePayment 7 3]⟩

theorem accepted_block_sound_chained
    : SoundBlock sampleConfig sampleCoins chainedBlock 200
        (applyCoinsKv ⟨sampleCoins, none, none⟩
          (utxoApplyComputeBlockDelta sampleConfig chainedBlock 200 (lookupFrom sampleCoins))
          200).coins := by
  have shape : CoinbaseFirst chainedBlock sampleCoinbase
      [samplePayment 7 2, samplePayment 2 3] := ⟨rfl, by decide, by decide⟩
  refine (accepted_block_sound_iff (lookupFrom_answersFrom sampleCoins) (by decide)
    (by decide) (by decide) shape (by decide)
    ⟨by decide +kernel, by decide +kernel⟩).mpr ?_
  unfold NoSharedPrevout List.Disjoint
  decide

/--
The two payments of `doubleSpendBlock` name the same coin, every check passes, and ten units
more than the subsidy enter the coin set.
-/
theorem doubleSpendBlock_accepted
    : (utxoApplyComputeBlockDelta sampleConfig doubleSpendBlock 200
          (lookupFrom sampleCoins)).Accepted
        ∧ AnswersFrom (lookupFrom sampleCoins) sampleCoins
        ∧ doubleSpendBlock.hash ≠ sampleConfig.params.hashGenesisBlock
        ∧ (∀ tx ∈ doubleSpendBlock.vtx, (tx.vin.map TxIn.prevout).Nodup)
        ∧ CoinbaseFirst doubleSpendBlock sampleCoinbase
            [samplePayment 7 2, samplePayment 7 3]
        ∧ ¬ (doubleSpendBlock.vtx.flatMap spentOutpoints).Nodup
        ∧ totalValue sampleCoins + getBlockSubsidy 200 sampleConfig.params
            < totalValue (applyCoinsKv ⟨sampleCoins, none, none⟩
                (utxoApplyComputeBlockDelta sampleConfig doubleSpendBlock 200
                  (lookupFrom sampleCoins)) 200).coins
              + netPoolInflow doubleSpendBlock.vtx := by
  refine ⟨⟨by decide +kernel, by decide +kernel⟩, lookupFrom_answersFrom sampleCoins,
    by decide, by decide, ⟨rfl, by decide, by decide⟩, by decide, by decide +kernel⟩

end Z23.Jobs
