import Z23.Consensus.TxStructuralLoops

/-!
The loops are the checks of the model without words, and these are a list of rules: sets without
repetition and running totals in the money range.
-/

namespace Z23.Consensus.SignedSums

open Z23.Lib.FoldM

-- Failures carried over

section Failures

variable {ε δ α β : Type}

theorem mapError_bind (f : ε → δ) (first : Except ε α) (next : α → Except ε β)
    : (first >>= next).mapError f = first.mapError f >>= fun a => (next a).mapError f := by
  cases first with
  | error e => rfl
  | ok a => rfl

theorem mapError_require (f : ε → δ) (passes : Bool) (reason : ε)
    : (require passes reason).mapError f = require passes (f reason) := by
  cases passes with
  | false => rfl
  | true => rfl

theorem mapError_eq_ok {f : ε → δ} {result : Except ε α} {a : α}
    : result.mapError f = .ok a ↔ result = .ok a := by
  cases result with
  | error e => simp [Except.mapError]
  | ok a => simp [Except.mapError]

theorem require_bind_congr {passes : Bool} {reason : ε} {first second : Unit → Except ε α}
    (same : passes = true → first () = second ())
    : require passes reason >>= first = require passes reason >>= second := by
  cases passes with
  | false => rfl
  | true => exact same rfl

theorem bind_congr_ok {start : Except ε α} {first second : α → Except ε β}
    (same : ∀ a, start = .ok a → first a = second a) : start >>= first = start >>= second := by
  cases start with
  | error e => rfl
  | ok a => exact same a rfl

end Failures

-- Sums that fit

theorem checkVoutValues_loop {valueOut : Int64} (values : List Int64)
    (range : InMoney valueOut.toInt)
    : txStructuralCheckVoutValues valueOut values
        = (Consensus.txStructuralCheckVoutValues valueOut values).mapError .rejected := by
  induction values generalizing valueOut with
  | nil => rfl
  | cons value rest ih =>
    simp only [txStructuralCheckVoutValues, Consensus.txStructuralCheckVoutValues,
      mapError_bind, mapError_require]
    apply require_bind_congr
    intro nonneg
    apply require_bind_congr
    intro small
    rw [decide_eq_true_eq] at nonneg small
    rw [addInt64_of_inMoney range (inMoney_iff.mpr ⟨nonneg, small⟩)]
    apply require_bind_congr
    intro total
    exact ih (moneyRange_iff.mp total)

theorem checkValueBalance_loop {tx : Transaction} {valueOut : Int64}
    (range : InMoney valueOut.toInt)
    : txStructuralCheckValueBalance tx valueOut
        = (Consensus.txStructuralCheckValueBalance tx valueOut).mapError .rejected := by
  simp only [txStructuralCheckValueBalance, Consensus.txStructuralCheckValueBalance, mapError_bind,
    mapError_require]
  apply require_bind_congr
  intro _
  apply require_bind_congr
  intro bounds
  rw [Bool.and_eq_true, decide_eq_true_eq, decide_eq_true_eq] at bounds
  split
  · rename_i outflow
    obtain ⟨negated, negRange⟩ := toInt_neg_of_le bounds.2 outflow
    have fits : negInt64 tx.valueBalance = .ok (-tx.valueBalance) := by
      rw [negInt64]
      apply if_neg
      intro least
      rw [least] at negRange
      exact absurd negRange.2 (by decide)
    have added := addInt64_of_inMoney range (negated ▸ negRange)
    rw [fits]
    simp only [mapError_bind, mapError_require]
    change addInt64 valueOut (-tx.valueBalance) >>= _ = _
    rw [added]
    rfl
  · rfl

theorem checkJoinsplitValues_loop {valueOut : Int64} (joinsplits : List JsDescription)
    (range : InMoney valueOut.toInt)
    : txStructuralCheckJoinsplitValues valueOut joinsplits
        = (Consensus.txStructuralCheckJoinsplitValues valueOut joinsplits).mapError .rejected := by
  induction joinsplits generalizing valueOut with
  | nil => rfl
  | cons js rest ih =>
    simp only [txStructuralCheckJoinsplitValues, Consensus.txStructuralCheckJoinsplitValues,
      mapError_bind, mapError_require]
    apply require_bind_congr
    intro nonneg
    apply require_bind_congr
    intro _
    apply require_bind_congr
    intro small
    apply require_bind_congr
    intro _
    apply require_bind_congr
    intro _
    rw [decide_eq_true_eq] at nonneg small
    rw [addInt64_of_inMoney range (inMoney_iff.mpr ⟨nonneg, small⟩)]
    apply require_bind_congr
    intro total
    exact ih (moneyRange_iff.mp total)

theorem joinsplitInputTotal_loop {valueIn : Int64} {joinsplits : List JsDescription}
    (range : InMoney valueIn.toInt) (amounts : ∀ js ∈ joinsplits, InMoney js.vpubNew.toInt)
    : (∃ total, joinsplitInputTotal valueIn joinsplits = .ok total ∧ InMoney total.toInt
          ∧ sumMoney valueIn (joinsplits.map JsDescription.vpubNew) = some total)
      ∨ joinsplitInputTotal valueIn joinsplits = .error (.rejected .txintotalToolarge)
          ∧ sumMoney valueIn (joinsplits.map JsDescription.vpubNew) = none := by
  induction joinsplits generalizing valueIn with
  | nil => exact .inl ⟨valueIn, rfl, range, rfl⟩
  | cons js rest ih =>
    rw [List.forall_mem_cons] at amounts
    rw [joinsplitInputTotal, addInt64_of_inMoney range amounts.1, List.map_cons, sumMoney, addMoney]
    change (∃ total, (require _ _ >>= fun _ => _) = .ok total ∧ _) ∨ (require _ _ >>= fun _ => _)
      = .error _ ∧ _
    cases total : moneyRange js.vpubNew && moneyRange (valueIn + js.vpubNew) with
    | false => exact .inr ⟨rfl, rfl⟩
    | true =>
      rw [Bool.and_eq_true] at total
      exact ih (moneyRange_iff.mp total.2) amounts.2

theorem checkInputTotals_loop {tx : Transaction}
    (amounts : ∀ js ∈ tx.vJoinsplit, InMoney js.vpubNew.toInt) (high : tx.valueBalance ≤ maxMoney)
    : txStructuralCheckInputTotals tx
        = (Consensus.txStructuralCheckInputTotals tx).mapError .rejected := by
  have zero : InMoney (0 : Int64).toInt := by
    rw [Int64.toInt_zero]
    exact ⟨by decide, by decide⟩
  rw [txStructuralCheckInputTotals, Consensus.txStructuralCheckInputTotals]
  rcases joinsplitInputTotal_loop zero amounts with ⟨total, summed, range, same⟩ | ⟨failed, same⟩
  · rw [summed, same, mapError_require]
    change (if tx.valueBalance ≥ 0 then _ else _) = _
    split
    · rename_i inflow
      rw [addInt64_of_inMoney range (inMoney_iff.mpr ⟨inflow, high⟩)]
      simp only [inflow, decide_true, Bool.not_true, Bool.false_or]
      rfl
    · rename_i outflow
      simp only [outflow, decide_false, Bool.not_false, Bool.true_or]
      rfl
  · rw [failed, same]
    rfl

-- Pairs

theorem any_eq_false_iff {α : Type} [DecidableEq α] {xs : List α} {x : α}
    : xs.any (· = x) = false ↔ x ∉ xs := by
  rw [List.any_eq_false]
  simp only [decide_eq_true_eq]
  constructor
  · intro none member
    exact none x member rfl
  · rintro none y member rfl
    exact none member

theorem anyPairEqual_eq {α : Type} [DecidableEq α] (xs : List α)
    : (!anyPairEqual xs) = decide xs.Nodup := by
  induction xs with
  | nil => rfl
  | cons x rest ih =>
    rw [anyPairEqual, Bool.not_or, ih, Bool.eq_iff_iff, Bool.and_eq_true, Bool.not_eq_true',
      any_eq_false_iff, decide_eq_true_eq, decide_eq_true_eq, List.nodup_cons]

theorem nullifierRepeats_iff {before : List JsDescription} {own nullifiers : List Uint256}
    (earlier : (before.flatMap JsDescription.nullifiers ++ own).Nodup)
    : nullifierRepeats before own nullifiers = false
        ↔ (before.flatMap JsDescription.nullifiers ++ own ++ nullifiers).Nodup := by
  induction nullifiers generalizing own with
  | nil => simpa [nullifierRepeats] using earlier
  | cons nf rest ih =>
    have fresh : (before.any (fun js => js.nullifiers.any (· = nf)) || own.any (· = nf)) = false
        ↔ nf ∉ before.flatMap JsDescription.nullifiers ++ own := by
      rw [Bool.or_eq_false_iff, any_eq_false_iff, List.any_eq_false, List.mem_append, not_or,
        List.mem_flatMap, not_exists]
      simp only [Bool.not_eq_true, any_eq_false_iff, not_and]
    rw [nullifierRepeats, Bool.or_eq_false_iff, fresh]
    have shift : before.flatMap JsDescription.nullifiers ++ own ++ nf :: rest
        = before.flatMap JsDescription.nullifiers ++ (own ++ [nf]) ++ rest := by simp
    rw [shift]
    constructor
    · rintro ⟨new, later⟩
      refine (ih ?_).mp later
      rw [← List.append_assoc]
      exact List.concat_eq_append ▸ earlier.concat new
    · intro distinct
      have head : (before.flatMap JsDescription.nullifiers ++ (own ++ [nf])).Nodup :=
        distinct.of_append_left
      refine ⟨?_, (ih head).mpr distinct⟩
      rw [← List.append_assoc, List.nodup_append'] at head
      exact fun shared => head.2.2 shared List.mem_cons_self

theorem anyJsNullifierRepeats_iff {before joinsplits : List JsDescription}
    (earlier : (before.flatMap JsDescription.nullifiers).Nodup)
    : anyJsNullifierRepeats before joinsplits = false
        ↔ ((before ++ joinsplits).flatMap JsDescription.nullifiers).Nodup := by
  induction joinsplits generalizing before with
  | nil => simpa [anyJsNullifierRepeats] using earlier
  | cons js rest ih =>
    have own := @nullifierRepeats_iff before [] js.nullifiers (by simpa using earlier)
    rw [List.append_nil] at own
    have shift : before ++ js :: rest = before ++ [js] ++ rest := by simp
    have flat : (before ++ [js]).flatMap JsDescription.nullifiers
        = before.flatMap JsDescription.nullifiers ++ js.nullifiers := by simp
    rw [anyJsNullifierRepeats, Bool.or_eq_false_iff, own, shift]
    constructor
    · rintro ⟨distinct, later⟩
      exact (ih (by rwa [flat])).mp later
    · intro distinct
      have head := distinct
      rw [List.flatMap_append, flat] at head
      exact ⟨head.of_append_left, (ih (by rw [flat]; exact head.of_append_left)).mpr distinct⟩

theorem anyJsNullifierRepeats_eq (joinsplits : List JsDescription)
    : (!anyJsNullifierRepeats [] joinsplits)
        = decide (joinsplits.flatMap JsDescription.nullifiers).Nodup := by
  rw [Bool.eq_iff_iff, Bool.not_eq_true', decide_eq_true_eq]
  exact anyJsNullifierRepeats_iff List.nodup_nil

-- The loops refine the checks

theorem zero_inMoney : InMoney (0 : Int64).toInt := by
  rw [Int64.toInt_zero]
  exact ⟨by decide, by decide⟩

theorem RunningTotals.total_mem {start : Int} {terms : List Int}
    (totals : RunningTotals start terms) : InMoney (start + terms.sum) :=
  totals terms (List.prefix_refl terms)

theorem structural_loop (rules : SizeRules) (ctx : TxCheckContext) (tx : Transaction)
    : domainConsensusCheckTransactionStructural rules ctx tx
        = (Consensus.domainConsensusCheckTransactionStructural rules ctx tx).mapError
          .rejected := by
  simp only [domainConsensusCheckTransactionStructural,
    Consensus.domainConsensusCheckTransactionStructural, mapError_bind]
  apply bind_congr_ok
  intro _ _
  apply bind_congr_ok
  intro _ _
  apply bind_congr_ok
  intro _ _
  rw [checkVoutValues_loop _ zero_inMoney]
  apply bind_congr_ok
  intro valueOut outputs
  obtain ⟨-, totals, same⟩ := (checkVoutValues_eq_ok zero_inMoney).mp (mapError_eq_ok.mp outputs)
  have outRange : InMoney valueOut.toInt := same ▸ totals.total_mem
  rw [checkValueBalance_loop outRange]
  apply bind_congr_ok
  intro valueOut balance
  obtain ⟨-, high, totals, same⟩ := (checkValueBalance_eq_ok outRange).mp (mapError_eq_ok.mp balance)
  have balanceRange : InMoney valueOut.toInt := by
    rw [same]
    simpa using totals.total_mem
  rw [checkJoinsplitValues_loop _ balanceRange]
  apply bind_congr_ok
  intro _ joinsplits
  have amounts := ((checkJoinsplitValues_eq_ok balanceRange).mp (mapError_eq_ok.mp joinsplits)).1
  rw [checkInputTotals_loop (fun js member => (amounts js member).vpubNew) high]
  apply bind_congr_ok
  intro _ _
  rw [txStructuralCheckDuplicateInputsAndJsNullifiers,
    Consensus.txStructuralCheckDuplicateInputsAndJsNullifiers,
    txStructuralCheckDuplicateSpendNullifiers, Consensus.txStructuralCheckDuplicateSpendNullifiers,
    mapError_bind, mapError_require, mapError_require, mapError_require, anyPairEqual_eq,
    anyPairEqual_eq, anyJsNullifierRepeats_eq]

-- The rules

/-- What leaves the transparent side, in the order of the running total. -/
def outflows (tx : Transaction) : List Int :=
  tx.vout.map (·.value.toInt) ++ max 0 (-tx.valueBalance.toInt)
    :: tx.vJoinsplit.map (·.vpubOld.toInt)

/-- What the shielded pools pay in. -/
def inflows (tx : Transaction) : List Int :=
  tx.vJoinsplit.map (·.vpubNew.toInt) ++ [max 0 tx.valueBalance.toInt]

/-- The rules about duplicates, amounts, version, size and coinbase. -/
structure AmountRules (rules : SizeRules) (ctx : TxCheckContext) (tx : Transaction) : Prop where
  version : tx.overwintered = false → sproutMinTxVersion ≤ tx.version
  overwinter : tx.overwintered = true →
    overwinterMinTxVersion ≤ tx.version
    ∧ (tx.versionGroupId = overwinterVersionGroupId ∨ tx.versionGroupId = saplingVersionGroupId)
    ∧ tx.expiryHeight < txExpiryHeightThreshold
  size : rules.transactionSerializeSize tx ≤ maxTxSizeAfterSapling
    ∨ ctx = .block ∧ rules.transactionSerializeSize tx ≤ maxBlockSize
      ∧ rules.oversizeGrandfathered tx (rules.transactionSerializeSize tx) = true
  inputs : (tx.vin.map TxIn.prevout).Nodup
  sproutNullifiers : (tx.vJoinsplit.flatMap JsDescription.nullifiers).Nodup
  saplingNullifiers : (tx.vShieldedSpend.map SpendDescription.nullifier).Nodup
  outputs : ∀ out ∈ tx.vout, InMoney out.value.toInt
  joinsplits : ∀ js ∈ tx.vJoinsplit, JoinsplitAmounts js
  outTotals : RunningTotals 0 (outflows tx)
  inTotals : RunningTotals 0 (inflows tx)
  coinbase : transactionIsCoinbase tx = true →
    tx.vJoinsplit = [] ∧ tx.vShieldedSpend = [] ∧ tx.vShieldedOutput = []
    ∧ ∀ input ∈ tx.vin, 2 ≤ input.scriptSig.length ∧ input.scriptSig.length ≤ 100
  prevouts : transactionIsCoinbase tx = false → ∀ input ∈ tx.vin, input.prevout.isNull = false

/-- The rules with those about what must be there. -/
structure StructuralRules (rules : SizeRules) (ctx : TxCheckContext) (tx : Transaction) : Prop
    extends AmountRules rules ctx tx where
  hasInput : tx.vin ≠ [] ∨ tx.vJoinsplit ≠ [] ∨ tx.vShieldedSpend ≠ []
  hasOutput : tx.vout ≠ [] ∨ tx.vJoinsplit ≠ [] ∨ tx.vShieldedOutput ≠ []
  balance : tx.vShieldedSpend = [] → tx.vShieldedOutput = [] → tx.valueBalance = 0

section Rules

variable {rules : SizeRules} {ctx : TxCheckContext} {tx : Transaction}

theorem checkVersions_eq_ok
    : txStructuralCheckVersions tx = .ok ()
        ↔ (tx.overwintered = false → sproutMinTxVersion ≤ tx.version)
          ∧ (tx.overwintered = true →
            overwinterMinTxVersion ≤ tx.version
            ∧ (tx.versionGroupId = overwinterVersionGroupId
              ∨ tx.versionGroupId = saplingVersionGroupId)
            ∧ tx.expiryHeight < txExpiryHeightThreshold) := by
  rw [txStructuralCheckVersions]
  cases tx.overwintered with
  | false => simp [pure, Except.pure]
  | true => simp

theorem checkPresence_eq_ok
    : txStructuralCheckInputOutputPresence tx = .ok ()
        ↔ (tx.vin ≠ [] ∨ tx.vJoinsplit ≠ [] ∨ tx.vShieldedSpend ≠ [])
          ∧ (tx.vout ≠ [] ∨ tx.vJoinsplit ≠ [] ∨ tx.vShieldedOutput ≠ []) := by
  simp [txStructuralCheckInputOutputPresence, or_assoc]

theorem checkSerializedSize_eq_ok
    : txStructuralCheckSerializedSize rules ctx tx = .ok ()
        ↔ rules.transactionSerializeSize tx ≤ maxTxSizeAfterSapling
          ∨ ctx = .block ∧ rules.transactionSerializeSize tx ≤ maxBlockSize
            ∧ rules.oversizeGrandfathered tx (rules.transactionSerializeSize tx) = true := by
  simp [txStructuralCheckSerializedSize, and_assoc]

theorem checkCoinbaseRestrictions_eq_ok
    : txStructuralCheckCoinbaseRestrictions tx = .ok ()
        ↔ (transactionIsCoinbase tx = true →
            tx.vJoinsplit = [] ∧ tx.vShieldedSpend = [] ∧ tx.vShieldedOutput = []
            ∧ ∀ input ∈ tx.vin, 2 ≤ input.scriptSig.length ∧ input.scriptSig.length ≤ 100)
          ∧ (transactionIsCoinbase tx = false →
            ∀ input ∈ tx.vin, input.prevout.isNull = false) := by
  rw [txStructuralCheckCoinbaseRestrictions]
  cases transactionIsCoinbase tx with
  | false => simp
  | true => simp

theorem exists_int64 {value : Int} (range : InMoney value)
    : ∃ word : Int64, word.toInt = value := by
  rw [InMoney] at range
  exact ⟨Int64.ofInt value, Int64.toInt_ofInt_of_le (by omega) (by omega)⟩

theorem checkOutflows_eq_ok
    : (∃ outTotal, Consensus.txStructuralCheckVoutValues 0 (tx.vout.map TxOut.value) = .ok outTotal
        ∧ ∃ balanceTotal, Consensus.txStructuralCheckValueBalance tx outTotal = .ok balanceTotal
          ∧ ∃ total, Consensus.txStructuralCheckJoinsplitValues balanceTotal tx.vJoinsplit
            = .ok total)
        ↔ (∀ out ∈ tx.vout, InMoney out.value.toInt) ∧ (∀ js ∈ tx.vJoinsplit, JoinsplitAmounts js)
          ∧ RunningTotals 0 (outflows tx)
          ∧ (tx.vShieldedSpend = [] → tx.vShieldedOutput = [] → tx.valueBalance = 0)
          ∧ tx.valueBalance ≤ maxMoney := by
  have terms : (tx.vout.map TxOut.value).map Int64.toInt = tx.vout.map (·.value.toInt) := by
    rw [List.map_map]
    rfl
  rw [outflows, runningTotals_append, ← List.singleton_append, runningTotals_append,
    List.sum_singleton]
  constructor
  · rintro ⟨outTotal, outputs, balanceTotal, balance, total, joinsplits⟩
    obtain ⟨amounts, outTotals, outSame⟩ := (checkVoutValues_eq_ok zero_inMoney).mp outputs
    rw [terms, Int64.toInt_zero] at outTotals outSame
    have outRange : InMoney outTotal.toInt := outSame ▸ outTotals.total_mem
    obtain ⟨shielded, high, balanceTotals, balanceSame⟩ :=
      (checkValueBalance_eq_ok outRange).mp balance
    have balanceRange : InMoney balanceTotal.toInt := by
      rw [balanceSame]
      simpa using balanceTotals.total_mem
    obtain ⟨jsAmounts, jsTotals, -⟩ := (checkJoinsplitValues_eq_ok balanceRange).mp joinsplits
    rw [balanceSame, outSame] at jsTotals
    rw [outSame] at balanceTotals
    refine ⟨?_, jsAmounts, ⟨outTotals, balanceTotals, jsTotals⟩, shielded, high⟩
    intro out member
    exact amounts _ (List.mem_map_of_mem member)
  · rintro ⟨amounts, jsAmounts, ⟨outTotals, balanceTotals, jsTotals⟩, shielded, high⟩
    obtain ⟨outTotal, outSame⟩ := exists_int64 outTotals.total_mem
    obtain ⟨balanceTotal, balanceSame⟩ := exists_int64 jsTotals.start_mem
    obtain ⟨total, totalSame⟩ := exists_int64 jsTotals.total_mem
    have outRange : InMoney outTotal.toInt := outSame ▸ outTotals.total_mem
    have balanceRange : InMoney balanceTotal.toInt := balanceSame ▸ jsTotals.start_mem
    refine ⟨outTotal, ?_, balanceTotal, ?_, total, ?_⟩
    · rw [checkVoutValues_eq_ok zero_inMoney, terms, Int64.toInt_zero]
      refine ⟨?_, outTotals, outSame⟩
      intro v member
      obtain ⟨out, isOut, rfl⟩ := List.mem_map.mp member
      exact amounts out isOut
    · rw [checkValueBalance_eq_ok outRange, outSame]
      exact ⟨shielded, high, balanceTotals, balanceSame⟩
    · rw [checkJoinsplitValues_eq_ok balanceRange, balanceSame]
      exact ⟨jsAmounts, jsTotals, totalSame⟩

theorem balance_le_of_inTotals (totals : RunningTotals 0 (inflows tx))
    : tx.valueBalance ≤ maxMoney := by
  rw [inflows, runningTotals_append, runningTotals_singleton] at totals
  obtain ⟨-, sum, total⟩ := totals
  rw [InMoney] at sum total
  rw [Int64.le_iff_toInt_le]
  change tx.valueBalance.toInt ≤ 2100000000000000
  omega

theorem structural_iff
    : Consensus.domainConsensusCheckTransactionStructural rules ctx tx = .ok ()
        ↔ StructuralRules rules ctx tx := by
  simp only [Consensus.domainConsensusCheckTransactionStructural, bind_eq_ok]
  constructor
  · rintro ⟨_, versions, _, presence, _, size, outTotal, outputs, balanceTotal, balance, total,
      joinsplits, _, inputTotals, _, duplicates, _, spends, restrictions⟩
    obtain ⟨version, overwinter⟩ := checkVersions_eq_ok.mp versions
    obtain ⟨hasInput, hasOutput⟩ := checkPresence_eq_ok.mp presence
    obtain ⟨amounts, jsAmounts, outTotals, shielded, high⟩ :=
      checkOutflows_eq_ok.mp ⟨outTotal, outputs, balanceTotal, balance, total, joinsplits⟩
    simp only [Consensus.txStructuralCheckDuplicateInputsAndJsNullifiers, require_bind_eq_ok,
      require_eq_ok, decide_eq_true_eq] at duplicates
    simp only [Consensus.txStructuralCheckDuplicateSpendNullifiers, require_eq_ok,
      decide_eq_true_eq] at spends
    obtain ⟨coinbase, prevouts⟩ := checkCoinbaseRestrictions_eq_ok.mp restrictions
    exact {
      version, overwinter, hasInput, hasOutput, outTotals, coinbase, prevouts
      size := checkSerializedSize_eq_ok.mp size
      inputs := duplicates.1
      sproutNullifiers := duplicates.2
      saplingNullifiers := spends
      outputs := amounts
      joinsplits := jsAmounts
      inTotals := (checkInputTotals_eq_ok (fun js member => (jsAmounts js member).vpubNew)
        high).mp inputTotals
      balance := shielded }
  · intro kept
    have high := balance_le_of_inTotals kept.inTotals
    obtain ⟨outTotal, outputs, balanceTotal, balance, total, joinsplits⟩ := checkOutflows_eq_ok.mpr
      ⟨kept.outputs, kept.joinsplits, kept.outTotals, kept.balance, high⟩
    refine ⟨(), checkVersions_eq_ok.mpr ⟨kept.version, kept.overwinter⟩, (),
      checkPresence_eq_ok.mpr ⟨kept.hasInput, kept.hasOutput⟩, (),
      checkSerializedSize_eq_ok.mpr kept.size, outTotal, outputs, balanceTotal, balance, total,
      joinsplits, (), ?_, (), ?_, (), ?_,
      checkCoinbaseRestrictions_eq_ok.mpr ⟨kept.coinbase, kept.prevouts⟩⟩
    · exact (checkInputTotals_eq_ok (fun js member => (kept.joinsplits js member).vpubNew)
        high).mpr kept.inTotals
    · simp only [Consensus.txStructuralCheckDuplicateInputsAndJsNullifiers, require_bind_eq_ok,
        require_eq_ok, decide_eq_true_eq]
      exact ⟨kept.inputs, kept.sproutNullifiers⟩
    · simp only [Consensus.txStructuralCheckDuplicateSpendNullifiers, require_eq_ok,
        decide_eq_true_eq]
      exact kept.saplingNullifiers

end Rules

/-- The loops never leave the range of a word, and accept exactly what keeps the rules. -/
theorem structural_loop_iff_rules (rules : SizeRules) (ctx : TxCheckContext) (tx : Transaction)
    : domainConsensusCheckTransactionStructural rules ctx tx ≠ .error .overflow
      ∧ (domainConsensusCheckTransactionStructural rules ctx tx = .ok ()
          ↔ StructuralRules rules ctx tx) := by
  rw [structural_loop, mapError_eq_ok, structural_iff]
  refine ⟨?_, Iff.rfl⟩
  cases Consensus.domainConsensusCheckTransactionStructural rules ctx tx with
  | error reason => simp [Except.mapError]
  | ok _ => simp [Except.mapError]

/-- A transaction of nineteen bytes with one empty output and nothing else. -/
def inputlessTx : Transaction :=
  { vin := [], vout := [{ value := 0, scriptPubKey := [] }], hash := Uint256.fill 0 }

/-- Nothing about amounts, duplicates, version, size and coinbase is wrong with it. -/
theorem structural_loop_inputless
    : AmountRules ⟨fun _ => 19, fun _ _ => false⟩ .block inputlessTx
      ∧ domainConsensusCheckTransactionStructural ⟨fun _ => 19, fun _ _ => false⟩ .block inputlessTx
        = .error (.rejected .vinEmpty) := by
  have zero : InMoney 0 := ⟨by decide, by decide⟩
  refine ⟨?_, by decide⟩
  exact {
    version := fun _ => by decide
    overwinter := fun wintered => by cases wintered
    size := .inl (by decide)
    inputs := List.nodup_nil
    sproutNullifiers := List.nodup_nil
    saplingNullifiers := List.nodup_nil
    outputs := by
      intro out member
      rw [List.mem_singleton.mp member]
      exact zero
    joinsplits := fun js none => by cases none
    outTotals := by
      simp [outflows, inputlessTx, runningTotals_cons, runningTotals_nil, zero]
    inTotals := by
      simp [inflows, inputlessTx, runningTotals_cons, runningTotals_nil, zero]
    coinbase := fun coinbase => by cases coinbase
    prevouts := fun _ input none => by cases none }

end Z23.Consensus.SignedSums
