import Z23.Validation.CoinsValue
import Z23.Validation.ConnectBlock

/-!
A connected block covers every ordinary transaction, makes no value beyond the subsidy, and spends
an outpoint twice exactly when the block creates it again between the two spends.
-/

namespace Z23.Validation

open Z23.Consensus
open Z23.Lib.FiniteMap
open Z23.Lib.FoldM

-- The input sum

/-- The exact value that a transaction spends from the view and takes from the pools. -/
def exactValueIn (view : CoinsView) (tx : Transaction) : Int :=
  inputsValue view (spendingInputs tx) + exactShieldedIn tx

section

variable {total : Int64} (range : moneyRange total = true)
include range

theorem addRanged_eq_some {value result : Int64} (added : addRanged total value = some result)
    : result.toInt = total.toInt + value.toInt ∧ moneyRange result = true := by
  rw [addRanged] at added
  split at added
  · rename_i inRange
    obtain rfl := Option.some.inj added
    have exactSum := toInt_add_cases total value
    have low := Int64.le_toInt value
    have high := Int64.toInt_lt value
    simp only [moneyRange_iff] at inRange range
    exact ⟨by omega, moneyRange_iff.mpr inRange⟩
  · cases added

theorem sumRanged_eq_some {result : Int64} {values : List Int64}
    (summed : sumRanged total values = some result)
    : result.toInt = total.toInt + sumInt values ∧ moneyRange result = true := by
  induction values generalizing total with
  | nil =>
    cases summed
    exact ⟨by simp, range⟩
  | cons value rest ih =>
    obtain ⟨middle, added, restSum⟩ := Option.bind_eq_some_iff.mp summed
    obtain ⟨middleEq, middleRange⟩ := addRanged_eq_some range added
    obtain ⟨resultEq, resultRange⟩ := ih middleRange restSum
    refine ⟨?_, resultRange⟩
    rw [resultEq, middleEq, sumInt_cons]
    omega

theorem sumInputs_eq_some {view : CoinsView} {result : Int64} {inputs : List TxIn}
    (summed : sumInputs view total inputs = some result)
    : result.toInt = total.toInt + inputsValue view inputs ∧ moneyRange result = true := by
  induction inputs generalizing total with
  | nil =>
    cases summed
    exact ⟨by simp [inputsValue], range⟩
  | cons input rest ih =>
    obtain ⟨out, found, afterOut⟩ := Option.bind_eq_some_iff.mp summed
    obtain ⟨middle, added, restSum⟩ := Option.bind_eq_some_iff.mp afterOut
    obtain ⟨middleEq, -, middleRange⟩ := addMoney_eq_some range added
    obtain ⟨resultEq, resultRange⟩ := ih middleRange restSum
    refine ⟨?_, resultRange⟩
    rw [resultEq, middleEq]
    simp only [inputsValue, List.map_cons, List.sum_cons, found, Option.elim_some]
    omega

end

theorem coinsViewCacheGetValueIn_exact {view : CoinsView} {tx : Transaction}
    (ordinary : transactionIsCoinbase tx = false)
    (nonneg : 0 ≤ (coinsViewCacheGetValueIn view tx).toInt)
    : (coinsViewCacheGetValueIn view tx).toInt = exactValueIn view tx := by
  simp only [coinsViewCacheGetValueIn, ordinary, Bool.false_eq_true, if_false] at nonneg ⊢
  obtain ⟨result, computed⟩ := getD_nonneg nonneg
  rw [computed, Option.getD_some]
  obtain ⟨inputTotal, inputSum, rest⟩ := Option.bind_eq_some_iff.mp computed
  obtain ⟨balanceTotal, balanceSum, joinSum⟩ := Option.bind_eq_some_iff.mp rest
  obtain ⟨inputEq, inputRange⟩ := sumInputs_eq_some zero_moneyRange inputSum
  have balanceEq : balanceTotal.toInt = inputTotal.toInt + max 0 tx.valueBalance.toInt
      ∧ moneyRange balanceTotal = true := by
    rw [addRangedIf] at balanceSum
    split at balanceSum
    · rename_i notNegative
      obtain ⟨added, range⟩ := addRanged_eq_some inputRange balanceSum
      have least : 0 ≤ tx.valueBalance.toInt := by
        simpa [Int64.le_iff_toInt_le] using notNegative
      exact ⟨by omega, range⟩
    · rename_i negative
      have below : tx.valueBalance.toInt < 0 := by
        simpa [Int64.le_iff_toInt_le] using negative
      cases balanceSum
      exact ⟨by omega, inputRange⟩
  obtain ⟨joinEq, -⟩ := sumRanged_eq_some balanceEq.2 joinSum
  have zero : (0 : Int64).toInt = 0 := rfl
  rw [joinEq, balanceEq.1, inputEq, zero, exactValueIn, exactShieldedIn, sproutOut]
  simp only [spendingInputs, ordinary, Bool.false_eq_true, if_false]
  omega

-- One transaction

/-- The sums of an ordinary transaction are exact amounts, and its inputs cover its outputs. -/
structure Covered (tx : Transaction) (st st' : ApplyState) : Prop where
  valueIn : (coinsViewCacheGetValueIn st.view tx).toInt = exactValueIn st.view tx
  valueOut : (transactionGetValueOut tx).toInt = exactValueOut tx
  notSentinel : 0 ≤ exactValueOut tx
  covers : exactValueOut tx ≤ exactValueIn st.view tx
  fees : st'.fees.toInt = st.fees.toInt + (exactValueIn st.view tx - exactValueOut tx)

/-- What one iteration of the loop over the transactions does. -/
structure TxApplied (tx : Transaction) (st st' : ApplyState) : Prop where
  coins : CoinsUpdated tx st.view st'.view
  available : ∀ op ∈ spentOutpoints tx, (coinsViewCacheGetOutputFor st.view op).isSome = true
  covered : transactionIsCoinbase tx = false → Covered tx st st'
  coinbase : transactionIsCoinbase tx = true → st'.fees = st.fees
  feesRange : moneyRange st'.fees = true

theorem connectBlockAccountTxFee_ok {st st' : ApplyState} {tx : Transaction} (checked : Checked tx)
    (ordinary : transactionIsCoinbase tx = false) (feesRange : moneyRange st.fees = true)
    (accounted : connectBlockAccountTxFee st tx = .ok st')
    : st'.view = st.view ∧ Covered tx st st' ∧ moneyRange st'.fees = true := by
  simp only [connectBlockAccountTxFee, require_bind_eq_ok, decide_eq_true_eq, ge_iff_le,
    Int64.le_iff_toInt_le] at accounted
  obtain ⟨nonneg, range, covers, feeNonneg, total, result⟩ := accounted
  cases result
  have valueIn := coinsViewCacheGetValueIn_exact ordinary nonneg
  obtain ⟨valueOut, -, valueOutSmall⟩ := transactionGetValueOut_exact checked.valueOut
  have least := checked.valueOut
  have inRange := moneyRange_iff.mp range
  have feeCases := toInt_sub_cases (coinsViewCacheGetValueIn st.view tx)
    (transactionGetValueOut tx)
  have fee : (coinsViewCacheGetValueIn st.view tx - transactionGetValueOut tx).toInt
      = exactValueIn st.view tx - exactValueOut tx := by
    omega
  have feesBounds := moneyRange_iff.mp feesRange
  have totalBounds := moneyRange_iff.mp total
  have sum := toInt_add_cases st.fees
    (coinsViewCacheGetValueIn st.view tx - transactionGetValueOut tx)
  refine ⟨rfl, ?_, total⟩
  exact { valueIn := valueIn, valueOut := valueOut, notSentinel := by omega, covers := by omega,
          fees := by simp only; omega }

theorem connectBlockCollectScripts_ok {env : ConnectEnv} {pindex : BlockIndex} {st st' : ApplyState}
    {tx : Transaction} (collected : connectBlockCollectScripts env pindex st tx = .ok st')
    : st'.view = st.view ∧ st'.fees = st.fees := by
  rw [connectBlockCollectScripts] at collected
  split at collected
  · cases collected
    exact ⟨rfl, rfl⟩
  · obtain ⟨checks, -, result⟩ := bind_eq_ok.mp collected
    cases result
    exact ⟨rfl, rfl⟩

theorem connectBlockCheckSpendInputs_ok {env : ConnectEnv} {pindex : BlockIndex}
    {st st' : ApplyState} {tx : Transaction}
    (checked : connectBlockCheckSpendInputs env pindex st tx = .ok st')
    : coinsViewCacheHaveInputs st.view tx = true ∧ st'.view = st.view ∧ st'.fees = st.fees := by
  simp only [connectBlockCheckSpendInputs, bind_eq_ok, require_eq_ok] at checked
  obtain ⟨_, -, _, available, _, -, sigOps, -, result⟩ := checked
  cases result
  exact ⟨available, rfl, rfl⟩

theorem haveInputs_available {view : CoinsView} {tx : Transaction}
    (available : coinsViewCacheHaveInputs view tx = true)
    : ∀ op ∈ spentOutpoints tx, (coinsViewCacheGetOutputFor view op).isSome = true := by
  intro op member
  rw [spentOutpoints] at member
  split at member
  · cases member
  · rename_i ordinary
    obtain ⟨input, isInput, rfl⟩ := List.mem_map.mp member
    simp only [coinsViewCacheHaveInputs, ordinary, Bool.false_or, List.all_eq_true] at available
    exact available input isInput

theorem connectBlockCheckOrdinary_ok {env : ConnectEnv} {pindex : BlockIndex} {st st' : ApplyState}
    {tx : Transaction} (checked : Checked tx) (ordinary : transactionIsCoinbase tx = false)
    (accepted : connectBlockCheckOrdinary env pindex st tx = .ok st')
    (feesRange : moneyRange st.fees = true)
    : st'.view = st.view ∧ coinsViewCacheHaveInputs st.view tx = true ∧ Covered tx st st'
        ∧ moneyRange st'.fees = true := by
  simp only [connectBlockCheckOrdinary, ordinary, Bool.false_eq_true, if_false, bind_eq_ok]
    at accepted
  obtain ⟨spending, inputs, accounted, fee, scripts⟩ := accepted
  obtain ⟨available, spendingView, spendingFees⟩ := connectBlockCheckSpendInputs_ok inputs
  rw [← spendingFees] at feesRange
  obtain ⟨accountedView, covered, accountedRange⟩ :=
    connectBlockAccountTxFee_ok checked ordinary feesRange fee
  obtain ⟨view, fees⟩ := connectBlockCollectScripts_ok scripts
  refine ⟨by rw [view, accountedView, spendingView], available, ?_, by rwa [fees]⟩
  obtain ⟨valueIn, valueOut, notSentinel, covers, feeSum⟩ := covered
  rw [spendingView] at valueIn covers feeSum
  rw [spendingFees, ← fees] at feeSum
  exact ⟨valueIn, valueOut, notSentinel, covers, feeSum⟩

theorem txApplied {env : ConnectEnv} {pindex : BlockIndex} {st st' : ApplyState}
    {tx : Transaction} (checked : Checked tx) (feesRange : moneyRange st.fees = true)
    (applied : connectBlockApplyOneTx env pindex st tx = .ok st') : TxApplied tx st st' := by
  simp only [connectBlockApplyOneTx, bind_eq_ok] at applied
  obtain ⟨sigOps, -, middle, ordinaryChecks, updated⟩ := applied
  rw [connectBlockUpdateTxCoins] at updated
  split at updated
  · cases updated
  rename_i view undo equation
  cases updated
  cases isCoinbase : transactionIsCoinbase tx with
  | true =>
    simp only [connectBlockCheckOrdinary, isCoinbase, if_true] at ordinaryChecks
    cases ordinaryChecks
    refine { coins := coinsUpdated equation, available := ?_, covered := ?_,
             coinbase := fun _ => rfl, feesRange := feesRange }
    · simp [spentOutpoints, isCoinbase]
    · simp [isCoinbase]
  | false =>
    obtain ⟨sameView, available, covered, range⟩ :=
      connectBlockCheckOrdinary_ok checked isCoinbase ordinaryChecks feesRange
    rw [sameView] at equation
    refine { coins := coinsUpdated equation, available := haveInputs_available available,
             covered := fun _ => ?_, coinbase := ?_, feesRange := range }
    · exact { covered with }
    · simp [isCoinbase]

-- The loop

section Loop

variable {env : ConnectEnv} {pindex : BlockIndex} {st st' : ApplyState} {txs : List Transaction}

/-- What every state of the loop keeps. -/
structure SoundState (st : ApplyState) : Prop where
  valid : ValidView st.view
  fees : moneyRange st.fees = true

theorem TxApplied.sound {tx : Transaction} (applied : TxApplied tx st st')
    (sound : SoundState st) : SoundState st' :=
  ⟨applied.coins.valid sound.valid, applied.feesRange⟩

theorem applyTxs_sound (checked : ∀ tx ∈ txs, Checked tx) (sound : SoundState st)
    (run : txs.foldlM (connectBlockApplyOneTx env pindex) st = .ok st') : SoundState st' := by
  induction txs generalizing st with
  | nil =>
    rw [foldlM_nil_ok] at run
    exact run ▸ sound
  | cons tx rest ih =>
    obtain ⟨middle, step, others⟩ := foldlM_cons_ok.mp run
    obtain ⟨checkedTx, checkedRest⟩ := List.forall_mem_cons.mp checked
    exact ih checkedRest ((txApplied checkedTx sound.fees step).sound sound) others

theorem spentOutpoints_nodup {tx : Transaction} (checked : Checked tx)
    : (spentOutpoints tx).Nodup := by
  rw [spentOutpoints]
  split
  · exact List.nodup_nil
  · exact checked.distinct

theorem applyTxs_conserves (checked : ∀ tx ∈ txs, Checked tx)
    (ordinary : ∀ tx ∈ txs, transactionIsCoinbase tx = false) (sound : SoundState st)
    (run : txs.foldlM (connectBlockApplyOneTx env pindex) st = .ok st')
    : totalValue st'.view + st'.fees.toInt + (txs.map exactValueOut).sum
        ≤ totalValue st.view + st.fees.toInt + (txs.map transparentOut).sum
          + (txs.map exactShieldedIn).sum := by
  induction txs generalizing st with
  | nil =>
    rw [foldlM_nil_ok] at run
    simp [run]
  | cons tx rest ih =>
    obtain ⟨middle, step, others⟩ := foldlM_cons_ok.mp run
    obtain ⟨checkedTx, checkedRest⟩ := List.forall_mem_cons.mp checked
    obtain ⟨ordinaryTx, ordinaryRest⟩ := List.forall_mem_cons.mp ordinary
    have applied := txApplied checkedTx sound.fees step
    have nonneg := (transactionGetValueOut_exact checkedTx.valueOut).2.1
    have value := applied.coins.value sound.valid (spentOutpoints_nodup checkedTx) nonneg
    have fees := (applied.covered ordinaryTx).fees
    have tail := ih checkedRest ordinaryRest (applied.sound sound) others
    rw [exactValueIn] at fees
    simp only [List.map_cons, List.sum_cons]
    omega

theorem applyTxs_unavailable {op : Outpoint} (checked : ∀ tx ∈ txs, Checked tx)
    (sound : SoundState st) (otherIds : ∀ tx ∈ txs, op.hash ≠ tx.hash)
    (gone : coinsViewCacheGetOutputFor st.view op = none)
    (run : txs.foldlM (connectBlockApplyOneTx env pindex) st = .ok st')
    : coinsViewCacheGetOutputFor st'.view op = none := by
  induction txs generalizing st with
  | nil =>
    rw [foldlM_nil_ok] at run
    exact run ▸ gone
  | cons tx rest ih =>
    obtain ⟨middle, step, others⟩ := foldlM_cons_ok.mp run
    obtain ⟨checkedTx, checkedRest⟩ := List.forall_mem_cons.mp checked
    obtain ⟨otherId, otherIds'⟩ := List.forall_mem_cons.mp otherIds
    have applied := txApplied checkedTx sound.fees step
    refine ih checkedRest (applied.sound sound) otherIds' ?_ others
    rw [applied.coins.unspent op otherId, gone, ite_self]

end Loop

-- Spending twice

/--
An outpoint is spent by two transactions, and one of the transactions from the first of them up to
the second has its id.
-/
def RespendsRecreated (txs : List Transaction) : Prop :=
  ∃ before first between second after op,
    txs = before ++ first :: (between ++ second :: after)
      ∧ op ∈ spentOutpoints first ∧ op ∈ spentOutpoints second
      ∧ ∃ tx ∈ first :: between, tx.hash = op.hash

variable {txs : List Transaction}

theorem RespendsRecreated.cons (respends : RespendsRecreated txs) (tx : Transaction)
    : RespendsRecreated (tx :: txs) := by
  obtain ⟨before, first, between, second, after, op, rfl, inFirst, inSecond, recreated⟩ := respends
  exact ⟨tx :: before, first, between, second, after, op, rfl, inFirst, inSecond, recreated⟩

theorem applyTxs_disjoint {env : ConnectEnv} {pindex : BlockIndex} {st st' : ApplyState}
    (checked : ∀ tx ∈ txs, Checked tx) (sound : SoundState st) (notRespent : ¬RespendsRecreated txs)
    (run : txs.foldlM (connectBlockApplyOneTx env pindex) st = .ok st')
    : txs.Pairwise (fun first second =>
        List.Disjoint (spentOutpoints first) (spentOutpoints second)) := by
  induction txs generalizing st with
  | nil => exact List.Pairwise.nil
  | cons tx rest ih =>
    obtain ⟨middle, step, others⟩ := foldlM_cons_ok.mp run
    obtain ⟨checkedTx, checkedRest⟩ := List.forall_mem_cons.mp checked
    have applied := txApplied checkedTx sound.fees step
    have sound' := applied.sound sound
    refine List.Pairwise.cons ?_ (ih checkedRest sound'
      (fun respends => notRespent (respends.cons tx)) others)
    intro second member op inFirst inSecond
    obtain ⟨between, after, rfl⟩ := List.append_of_mem member
    -- No transaction in between has the id, so the output is still gone at the second spend.
    have otherIds : ∀ tx' ∈ tx :: between, op.hash ≠ tx'.hash := by
      intro tx' member' same
      exact notRespent ⟨[], tx, between, second, after, op, rfl, inFirst, inSecond,
        tx', member', same.symm⟩
    obtain ⟨otherId, otherIds'⟩ := List.forall_mem_cons.mp otherIds
    have gone : coinsViewCacheGetOutputFor middle.view op = none := by
      rw [applied.coins.unspent op otherId, if_pos inFirst]
    obtain ⟨reached, betweenRun, rest'⟩ := foldlM_append_ok.mp others
    obtain ⟨next, secondStep, -⟩ := foldlM_cons_ok.mp rest'
    have checkedBetween : ∀ tx' ∈ between, Checked tx' := fun tx' member' =>
      checkedRest tx' (List.mem_append_left _ member')
    have stillGone := applyTxs_unavailable checkedBetween sound' otherIds' gone betweenRun
    have soundReached := applyTxs_sound checkedBetween sound' betweenRun
    have checkedSecond : Checked second := checkedRest second
      (List.mem_append_right _ List.mem_cons_self)
    have available := (txApplied checkedSecond soundReached.fees secondStep).available op inSecond
    rw [stillGone] at available
    cases available

theorem not_respendsRecreated (distinct : (txs.flatMap spentOutpoints).Nodup)
    : ¬RespendsRecreated txs := by
  rintro ⟨before, first, between, second, after, op, rfl, inFirst, inSecond, -⟩
  have pairwise := (List.nodup_flatMap.mp distinct).2
  have later := (List.pairwise_append.mp pairwise).2.1
  have separate := (List.pairwise_cons.mp later).1 second
    (List.mem_append_right _ List.mem_cons_self)
  exact separate inFirst inSecond

-- Blocks

/-- What an accepted block went through. -/
structure Connected (env : ConnectEnv) (pindex : BlockIndex) (block : FullBlock)
    (view : CoinsView) (st : ApplyState) (coinbase : Transaction) (rest : List Transaction)
    : Prop where
  checked : CheckedBlock block.vtx coinbase rest
  run : applyTxs env pindex view block.vtx = .ok st
  reward : connectBlockFinishReward env block pindex st.fees = .ok ()

theorem connectBlock_ok {env : ConnectEnv} {block : FullBlock} {pindex : BlockIndex}
    {view view' : ConnectView} {justCheck : Bool}
    (accepted : connectBlock env block pindex view justCheck = .ok view')
    (notGenesis : isGenesis env block pindex = false)
    : ∃ st coinbase rest, Connected env pindex block view.coins st coinbase rest
        ∧ view'.coins = st.view := by
  obtain ⟨_, checks, connected⟩ := bind_eq_ok.mp accepted
  obtain ⟨coinbase, rest, checked⟩ := checkBlock_ok checks
  simp only [notGenesis, Bool.false_eq_true, if_false, connectBlockAfterChecks, bind_eq_ok]
    at connected
  obtain ⟨_, -, _, -, _, -, st, applied, _, -, ⟨⟩, reward, result⟩ := connected
  simp only [connectBlockApplyTransactions, bind_eq_ok, require_eq_ok] at applied
  obtain ⟨reached, run, _, -, same⟩ := applied
  cases same
  cases result
  exact ⟨st, coinbase, rest, { checked := checked, run := run, reward := reward }, rfl⟩

theorem blockSubsidy_toInt (env : ConnectEnv) (pindex : BlockIndex)
    : (blockSubsidy env pindex).toInt = getBlockSubsidy pindex.nHeight.toInt env.params := by
  have bounds := getBlockSubsidy_bounds pindex.nHeight.toInt env.params
  have top : fullSubsidy = 1250000000 := rfl
  exact Int64.toInt_ofInt_of_le (by omega) (by omega)

/-- The reward is exact, and the coinbase claims no more. -/
structure Rewarded (env : ConnectEnv) (pindex : BlockIndex) (coinbase : Transaction)
    (fees : Int64) : Prop where
  valueOut : (transactionGetValueOut coinbase).toInt = exactValueOut coinbase
  notSentinel : 0 ≤ exactValueOut coinbase
  reward : (fees + blockSubsidy env pindex).toInt
    = fees.toInt + getBlockSubsidy pindex.nHeight.toInt env.params
  covers : exactValueOut coinbase
    ≤ fees.toInt + getBlockSubsidy pindex.nHeight.toInt env.params

/-- A block that makes no money out of nothing. -/
structure MintsNothing (env : ConnectEnv) (pindex : BlockIndex) (vtx : List Transaction)
    (view view' : CoinsView) : Prop where
  covered : ∀ before tx after, vtx = before ++ tx :: after → transactionIsCoinbase tx = false →
    ∃ st st', applyTxs env pindex view before = .ok st
      ∧ applyTxs env pindex view (before ++ [tx]) = .ok st' ∧ Covered tx st st'
  rewarded : ∃ coinbase rest st, vtx = coinbase :: rest
    ∧ applyTxs env pindex view vtx = .ok st ∧ Rewarded env pindex coinbase st.fees
  spentOnce : (vtx.flatMap spentOutpoints).Nodup
  conserved : totalValue view' + netPoolInflow vtx
    ≤ totalValue view + getBlockSubsidy pindex.nHeight.toInt env.params

section Block

variable {env : ConnectEnv} {pindex : BlockIndex} {block : FullBlock} {view : CoinsView}
  {st : ApplyState} {coinbase : Transaction} {rest : List Transaction}

theorem start_sound (valid : ValidView view) : SoundState ⟨view, 0, 0, []⟩ :=
  ⟨valid, zero_moneyRange⟩

section

variable (connected : Connected env pindex block view st coinbase rest)
include connected

theorem Connected.covered (valid : ValidView view) {before after : List Transaction}
    {tx : Transaction} (position : block.vtx = before ++ tx :: after)
    (ordinary : transactionIsCoinbase tx = false)
    : ∃ st st', applyTxs env pindex view before = .ok st
        ∧ applyTxs env pindex view (before ++ [tx]) = .ok st' ∧ Covered tx st st' := by
  have run := connected.run
  have checked := connected.checked.transactions
  rw [position] at run checked
  obtain ⟨reached, beforeRun, others⟩ := foldlM_append_ok.mp run
  obtain ⟨next, step, -⟩ := foldlM_cons_ok.mp others
  have sound := applyTxs_sound (fun tx' member => checked tx' (List.mem_append_left _ member))
    (start_sound valid) beforeRun
  have checkedTx := checked tx (List.mem_append_right _ List.mem_cons_self)
  refine ⟨reached, next, beforeRun, ?_, (txApplied checkedTx sound.fees step).covered ordinary⟩
  exact foldlM_append_ok.mpr ⟨reached, beforeRun, foldlM_cons_ok.mpr
    ⟨next, step, foldlM_nil_ok.mpr rfl⟩⟩

theorem Connected.rewarded (valid : ValidView view) : Rewarded env pindex coinbase st.fees := by
  have checked := connected.checked.transactions
  have fees := moneyRange_iff.mp (applyTxs_sound checked (start_sound valid) connected.run).fees
  have isFirst : coinbase ∈ block.vtx := by
    rw [connected.checked.shape]
    exact List.mem_cons_self
  have least := (checked coinbase isFirst).valueOut
  obtain ⟨valueOut, -, -⟩ := transactionGetValueOut_exact least
  have subsidy := blockSubsidy_toInt env pindex
  have bounds := getBlockSubsidy_bounds pindex.nHeight.toInt env.params
  have top : fullSubsidy = 1250000000 := rfl
  have sum := toInt_add_cases st.fees (blockSubsidy env pindex)
  have reward := connected.reward
  simp only [connectBlockFinishReward, require_bind_eq_ok, require_eq_ok, connected.checked.shape,
    List.head?_cons, Option.all_some, decide_eq_true_eq, Int64.le_iff_toInt_le] at reward
  exact { valueOut := valueOut, notSentinel := by omega, reward := by omega, covers := by omega }

theorem Connected.conserved (valid : ValidView view) : totalValue st.view + netPoolInflow block.vtx
        ≤ totalValue view + getBlockSubsidy pindex.nHeight.toInt env.params := by
  have run := connected.run
  have checked := connected.checked.transactions
  rw [connected.checked.shape] at run checked ⊢
  obtain ⟨checkedCoinbase, checkedRest⟩ := List.forall_mem_cons.mp checked
  obtain ⟨middle, step, others⟩ := foldlM_cons_ok.mp run
  have sound := start_sound valid
  have applied := txApplied checkedCoinbase sound.fees step
  have nonneg := (transactionGetValueOut_exact checkedCoinbase.valueOut).2.1
  have written := applied.coins.value valid (spentOutpoints_nodup checkedCoinbase) nonneg
  have noFees := applied.coinbase connected.checked.first
  have loop := applyTxs_conserves checkedRest connected.checked.others (applied.sound sound) others
  have rewarded := (connected.rewarded valid).covers
  obtain ⟨noJoinsplits, noBalance⟩ := checkedCoinbase.coinbase connected.checked.first
  have noUnshield : exactShieldedIn coinbase = 0 := by
    simp [exactShieldedIn, sproutOut, noJoinsplits, noBalance]
  have zero : (0 : Int64).toInt = 0 := rfl
  simp only [spendingInputs, connected.checked.first, if_true, inputsValue, List.map_nil,
    List.sum_nil] at written
  rw [noFees] at loop
  rw [netPoolInflow_eq]
  simp only [List.map_cons, List.sum_cons] at loop written ⊢
  omega

end

end Block

theorem connectBlock_validView {env : ConnectEnv} {block : FullBlock} {pindex : BlockIndex}
    {view view' : ConnectView} {justCheck : Bool} (valid : ValidView view.coins)
    (accepted : connectBlock env block pindex view justCheck = .ok view')
    (notGenesis : isGenesis env block pindex = false) : ValidView view'.coins := by
  obtain ⟨st, coinbase, rest, connected, same⟩ := connectBlock_ok accepted notGenesis
  rw [same]
  exact (applyTxs_sound connected.checked.transactions (start_sound valid) connected.run).valid

/--
An accepted block makes no money and spends nothing twice, unless an outpoint is spent again after
a transaction of the block has created it anew.
-/
theorem connectBlock_mintsNothing_iff {env : ConnectEnv} {block : FullBlock} {pindex : BlockIndex}
    {view view' : ConnectView} {justCheck : Bool} (valid : ValidView view.coins)
    (accepted : connectBlock env block pindex view justCheck = .ok view')
    (notGenesis : isGenesis env block pindex = false)
    : MintsNothing env pindex block.vtx view.coins view'.coins
        ↔ ¬RespendsRecreated block.vtx := by
  refine ⟨fun sound => not_respendsRecreated sound.spentOnce, fun notRespent => ?_⟩
  obtain ⟨st, coinbase, rest, connected, same⟩ := connectBlock_ok accepted notGenesis
  have checked := connected.checked.transactions
  have separate := applyTxs_disjoint checked (start_sound valid) notRespent connected.run
  rw [same]
  exact {
    covered := fun before tx after position ordinary =>
      connected.covered valid position ordinary
    rewarded := ⟨coinbase, rest, st, connected.checked.shape, connected.run,
      connected.rewarded valid⟩
    spentOnce := List.nodup_flatMap.mpr
      ⟨fun tx member => spentOutpoints_nodup (checked tx member), separate⟩
    conserved := connected.conserved valid
  }

-- Sample blocks

def sampleHashPair (left right : Uint256) : Uint256 where
  data := List.zipWith (fun l r => 31 * l + 7 * r + 1) left.data right.data
  size_data := by rw [List.length_zipWith, left.size_data, right.size_data]; rfl

def sampleEnv : ConnectEnv where
  merkleHashPair := sampleHashPair
  equihashSolutionOk := fun _ => true
  checkProofOfWork := fun _ => true
  adjustedTime := 0
  sizeRules := ⟨fun _ => 200, fun _ _ => false⟩
  legacySigOpCount := fun _ _ => 0
  params := ⟨.fill 255, true, 2, 840000, 1680000, 707000⟩
  lastCheckpointHeight := none
  deferredProofValidationBelowHeight := -1
  enforceCheckdatasigSigops := false
  p2shSigOpCount := fun _ _ _ => 0
  haveJoinsplitRequirements := fun _ => true
  verifyScript := fun _ => true
  saplingActive := fun _ => false
  enforceSaplingRoot := false
  saplingRootMatches := fun _ => true

def sampleIndex : BlockIndex := ⟨none, 200, some ⟨some 1000, some 0⟩⟩

def samplePayout : Transaction :=
  { vin := [{ prevout := ⟨.fill 0, 0xffffffff⟩, scriptSig := [2, 200, 0] }]
    vout := [⟨1250000000, [0x51]⟩], hash := .fill 1 }

/-- Takes fifty units out of the Sprout pool. -/
def sampleUnshield : Transaction :=
  { version := 2, vin := [], vout := [⟨50, [0x51]⟩]
    vJoinsplit := [⟨0, 50, .fill 20, [.fill 21, .fill 22], [.fill 23, .fill 24]⟩], hash := .fill 2 }

def sampleTransfer (id : UInt8) : Transaction :=
  { vin := [{ prevout := ⟨.fill 2, 0⟩ }], vout := [⟨50, [0x51]⟩], hash := .fill id }

def sampleFullBlock (vtx : List Transaction) : FullBlock :=
  { hash := .fill 8, vtx := vtx
    header :=
      { hashPrevBlock := .fill 9, hashFinalSaplingRoot := .fill 0
        hashMerkleRoot :=
          (merkleRootMutatedInPlace sampleHashPair (vtx.map Transaction.hash)).1 } }

/-- An unshielded output that is spent once. -/
def spentOnceBlock : FullBlock := sampleFullBlock [samplePayout, sampleUnshield, sampleTransfer 3]

/-- The unshielding transaction stands twice in the block, and each of its outputs is spent. -/
def recreatedBlock : FullBlock :=
  sampleFullBlock
    [samplePayout, sampleUnshield, sampleTransfer 3, sampleUnshield, sampleTransfer 4]

def emptyView : ConnectView := ⟨∅, .fill 0⟩

theorem emptyView_valid : ValidView emptyView.coins := by
  intro txid c found
  cases found

theorem connectBlock_mintsNothing_spentOnce
    : ∃ view', connectBlock sampleEnv spentOnceBlock sampleIndex emptyView false = .ok view'
        ∧ MintsNothing sampleEnv sampleIndex spentOnceBlock.vtx emptyView.coins view'.coins := by
  have connects : (connectBlock sampleEnv spentOnceBlock sampleIndex emptyView false).toOption.isSome
      = true := by decide +kernel
  cases accepted : connectBlock sampleEnv spentOnceBlock sampleIndex emptyView false with
  | error reason =>
    rw [accepted] at connects
    cases connects
  | ok view' =>
    refine ⟨view', rfl, (connectBlock_mintsNothing_iff emptyView_valid accepted
      (by decide)).mpr (not_respendsRecreated ?_)⟩
    decide

theorem connectBlock_recreated_respends
    : (connectBlock sampleEnv recreatedBlock sampleIndex emptyView false).toOption.isSome = true
        ∧ ValidView emptyView.coins ∧ isGenesis sampleEnv recreatedBlock sampleIndex = false
        ∧ ¬(recreatedBlock.vtx.flatMap spentOutpoints).Nodup
        ∧ ∀ view', ¬MintsNothing sampleEnv sampleIndex recreatedBlock.vtx emptyView.coins view' := by
  have twice : ¬(recreatedBlock.vtx.flatMap spentOutpoints).Nodup := by decide
  exact ⟨by decide +kernel, emptyView_valid, by decide, twice, fun _ sound => twice sound.spentOnce⟩

end Z23.Validation
