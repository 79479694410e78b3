import Z23.Lib.FoldM
import Z23.Primitives

/-!
The structural checks of a transaction, which look at nothing but the transaction, and what the
checked amounts imply for its value sums.
-/

namespace Z23.Consensus

open Z23.Lib.FoldM

-- Failures

inductive TxReject where
  | versionTooLow
  | overwinterVersionTooLow
  | versionGroupId
  | expiryHeightTooHigh
  | vinEmpty
  | voutEmpty
  | oversize
  | voutNegative
  | voutToolarge
  | voutTotalToolarge
  | valuebalanceNonzero
  | valuebalanceToolarge
  | vpubOldNegative
  | vpubNewNegative
  | vpubOldToolarge
  | vpubNewToolarge
  | vpubsBothNonzero
  | txintotalToolarge
  | inputsDuplicate
  | jsNullifiersDuplicate
  | spendNullifiersDuplicate
  | cbHasJoinsplits
  | cbHasSpendDesc
  | cbHasOutputDesc
  | cbLength
  | prevoutNull
deriving DecidableEq, Repr

def TxReject.text : TxReject → String
  | versionTooLow => "bad-txns-version-too-low"
  | overwinterVersionTooLow => "bad-tx-overwinter-version-too-low"
  | versionGroupId => "bad-tx-version-group-id"
  | expiryHeightTooHigh => "bad-tx-expiry-height-too-high"
  | vinEmpty => "bad-txns-vin-empty"
  | voutEmpty => "bad-txns-vout-empty"
  | oversize => "bad-txns-oversize"
  | voutNegative => "bad-txns-vout-negative"
  | voutToolarge => "bad-txns-vout-toolarge"
  | voutTotalToolarge => "bad-txns-txouttotal-toolarge"
  | valuebalanceNonzero => "bad-txns-valuebalance-nonzero"
  | valuebalanceToolarge => "bad-txns-valuebalance-toolarge"
  | vpubOldNegative => "bad-txns-vpub_old-negative"
  | vpubNewNegative => "bad-txns-vpub_new-negative"
  | vpubOldToolarge => "bad-txns-vpub_old-toolarge"
  | vpubNewToolarge => "bad-txns-vpub_new-toolarge"
  | vpubsBothNonzero => "bad-txns-vpubs-both-nonzero"
  | txintotalToolarge => "bad-txns-txintotal-toolarge"
  | inputsDuplicate => "bad-txns-inputs-duplicate"
  | jsNullifiersDuplicate => "bad-joinsplits-nullifiers-duplicate"
  | spendNullifiersDuplicate => "bad-spend-description-nullifiers-duplicate"
  | cbHasJoinsplits => "bad-cb-has-joinsplits"
  | cbHasSpendDesc => "bad-cb-has-spend-description"
  | cbHasOutputDesc => "bad-cb-has-output-description"
  | cbLength => "bad-cb-length"
  | prevoutNull => "bad-txns-prevout-null"

def TxReject.dos : TxReject → Nat
  | vinEmpty | voutEmpty | prevoutNull => 10
  | _ => 100

-- The checks

def sproutMinTxVersion : Int32 := 1

def overwinterMinTxVersion : Int32 := 3

def overwinterVersionGroupId : UInt32 := 0x03C48270

def saplingVersionGroupId : UInt32 := 0x892F2085

def txExpiryHeightThreshold : UInt32 := 500000000

def maxTxSizeAfterSapling : Nat := 102000

inductive TxCheckContext where
  | standalone
  | block
deriving DecidableEq, Repr

/-- Fails with a reason where a check does not pass. -/
def require {ε : Type} (passes : Bool) (reason : ε) : Except ε Unit :=
  if passes then .ok () else .error reason

/-- A check that is made under a flag only. -/
def requireIf {ε : Type} (enabled : Bool) (check : Except ε Unit) : Except ε Unit :=
  if enabled then check else .ok ()

def txStructuralCheckVersions (tx : Transaction) : Except TxReject Unit := do
  require (tx.overwintered || tx.version ≥ sproutMinTxVersion) .versionTooLow
  if tx.overwintered then
    require (tx.version ≥ overwinterMinTxVersion) .overwinterVersionTooLow
    require (tx.versionGroupId == overwinterVersionGroupId
      || tx.versionGroupId == saplingVersionGroupId) .versionGroupId
    require (tx.expiryHeight < txExpiryHeightThreshold) .expiryHeightTooHigh

def txStructuralCheckInputOutputPresence (tx : Transaction) : Except TxReject Unit := do
  require (!(tx.vin.isEmpty && tx.vJoinsplit.isEmpty && tx.vShieldedSpend.isEmpty)) .vinEmpty
  require (!(tx.vout.isEmpty && tx.vJoinsplit.isEmpty && tx.vShieldedOutput.isEmpty)) .voutEmpty

/-- The serialized size of a transaction and the table of excused oversize transactions. -/
structure SizeRules where
  transactionSerializeSize : Transaction → Nat
  oversizeGrandfathered : Transaction → Nat → Bool

def txStructuralCheckSerializedSize (rules : SizeRules) (ctx : TxCheckContext) (tx : Transaction)
    : Except TxReject Unit :=
  let txSize := rules.transactionSerializeSize tx
  require (txSize ≤ maxTxSizeAfterSapling
    || ctx == .block && txSize ≤ maxBlockSize && rules.oversizeGrandfathered tx txSize) .oversize

/-- The running total of the outputs. -/
def txStructuralCheckVoutValues (valueOut : Int64) : List Int64 → Except TxReject Int64
  | [] => .ok valueOut
  | value :: rest => do
    require (0 ≤ value) .voutNegative
    require (value ≤ maxMoney) .voutToolarge
    require (moneyRange (valueOut + value)) .voutTotalToolarge
    txStructuralCheckVoutValues (valueOut + value) rest

/-- A balance that is not positive is added to the output total. -/
def txStructuralCheckValueBalance (tx : Transaction) (valueOut : Int64)
    : Except TxReject Int64 := do
  require (!(tx.vShieldedSpend.isEmpty && tx.vShieldedOutput.isEmpty && tx.valueBalance != 0))
    .valuebalanceNonzero
  require (tx.valueBalance ≤ maxMoney && -maxMoney ≤ tx.valueBalance) .valuebalanceToolarge
  if tx.valueBalance ≤ 0 then
    require (moneyRange (valueOut + -tx.valueBalance)) .voutTotalToolarge
    .ok (valueOut + -tx.valueBalance)
  else .ok valueOut

def txStructuralCheckJoinsplitValues (valueOut : Int64)
    : List JsDescription → Except TxReject Int64
  | [] => .ok valueOut
  | js :: rest => do
    require (0 ≤ js.vpubOld) .vpubOldNegative
    require (0 ≤ js.vpubNew) .vpubNewNegative
    require (js.vpubOld ≤ maxMoney) .vpubOldToolarge
    require (js.vpubNew ≤ maxMoney) .vpubNewToolarge
    require (!(js.vpubNew != 0 && js.vpubOld != 0)) .vpubsBothNonzero
    require (moneyRange (valueOut + js.vpubOld)) .voutTotalToolarge
    txStructuralCheckJoinsplitValues (valueOut + js.vpubOld) rest

/-- The shielded input total: the joinsplits, then a balance that is not negative. -/
def txStructuralCheckInputTotals (tx : Transaction) : Except TxReject Unit := do
  match sumMoney 0 (tx.vJoinsplit.map JsDescription.vpubNew) with
  | none => .error .txintotalToolarge
  | some valueIn =>
    require (!(tx.valueBalance ≥ 0) || moneyRange (valueIn + tx.valueBalance)) .txintotalToolarge

def txStructuralCheckDuplicateInputsAndJsNullifiers (tx : Transaction)
    : Except TxReject Unit := do
  require (decide (tx.vin.map TxIn.prevout).Nodup) .inputsDuplicate
  require (decide (tx.vJoinsplit.flatMap JsDescription.nullifiers).Nodup) .jsNullifiersDuplicate

def txStructuralCheckDuplicateSpendNullifiers (tx : Transaction) : Except TxReject Unit :=
  require (decide (tx.vShieldedSpend.map SpendDescription.nullifier).Nodup)
    .spendNullifiersDuplicate

def txStructuralCheckCoinbaseRestrictions (tx : Transaction) : Except TxReject Unit := do
  if transactionIsCoinbase tx then
    require tx.vJoinsplit.isEmpty .cbHasJoinsplits
    require tx.vShieldedSpend.isEmpty .cbHasSpendDesc
    require tx.vShieldedOutput.isEmpty .cbHasOutputDesc
    require (tx.vin.all fun input =>
      2 ≤ input.scriptSig.length && input.scriptSig.length ≤ 100) .cbLength
  else
    require (tx.vin.all fun input => !input.prevout.isNull) .prevoutNull

def domainConsensusCheckTransactionStructural (rules : SizeRules) (ctx : TxCheckContext)
    (tx : Transaction) : Except TxReject Unit := do
  txStructuralCheckVersions tx
  txStructuralCheckInputOutputPresence tx
  txStructuralCheckSerializedSize rules ctx tx
  let valueOut ← txStructuralCheckVoutValues 0 (tx.vout.map TxOut.value)
  let valueOut ← txStructuralCheckValueBalance tx valueOut
  let _ ← txStructuralCheckJoinsplitValues valueOut tx.vJoinsplit
  txStructuralCheckInputTotals tx
  txStructuralCheckDuplicateInputsAndJsNullifiers tx
  txStructuralCheckDuplicateSpendNullifiers tx
  txStructuralCheckCoinbaseRestrictions tx

-- What a checked transaction has

section Require

variable {ε α : Type} {passes : Bool} {reason : ε}

@[simp]
theorem require_eq_ok {u : Unit} : require passes reason = .ok u ↔ passes = true := by
  cases passes <;> simp [require]

@[simp]
theorem require_bind_eq_ok {next : Unit → Except ε α} {result : α}
    : require passes reason >>= next = .ok result ↔ passes = true ∧ next () = .ok result := by
  cases passes <;> simp [require, Bind.bind, Except.bind]

end Require

theorem addMoney_of_range {total value : Int64} (nonneg : 0 ≤ value) (small : value ≤ maxMoney)
    (inRange : moneyRange (total + value) = true)
    : addMoney total value = some (total + value) := by
  have valueRange : moneyRange value = true := by simp [moneyRange, nonneg, small]
  simp [addMoney, valueRange, inRange]

theorem sumMoney_of_checkVoutValues {valueOut result : Int64} {values : List Int64}
    (checked : txStructuralCheckVoutValues valueOut values = .ok result)
    : sumMoney valueOut values = some result := by
  induction values generalizing valueOut with
  | nil =>
    cases checked
    rfl
  | cons value rest ih =>
    simp only [txStructuralCheckVoutValues, require_bind_eq_ok, decide_eq_true_eq] at checked
    obtain ⟨nonneg, small, total, checked⟩ := checked
    have added : addMoney valueOut value = some (valueOut + value) :=
      addMoney_of_range nonneg small total
    simp only [sumMoney, added, Option.bind_some]
    exact ih checked

theorem sumMoney_of_checkJoinsplitValues {valueOut result : Int64} {joinsplits : List JsDescription}
    (checked : txStructuralCheckJoinsplitValues valueOut joinsplits = .ok result)
    : sumMoney valueOut (joinsplits.map JsDescription.vpubOld) = some result := by
  induction joinsplits generalizing valueOut with
  | nil =>
    cases checked
    rfl
  | cons js rest ih =>
    simp only [txStructuralCheckJoinsplitValues, require_bind_eq_ok, decide_eq_true_eq]
      at checked
    obtain ⟨nonneg, -, small, -, -, total, checked⟩ := checked
    have added : addMoney valueOut js.vpubOld = some (valueOut + js.vpubOld) :=
      addMoney_of_range nonneg small total
    simp only [List.map_cons, sumMoney, added, Option.bind_some]
    exact ih checked

theorem addMoneyIf_of_checkValueBalance {tx : Transaction} {valueOut result : Int64}
    (checked : txStructuralCheckValueBalance tx valueOut = .ok result)
    : addMoneyIf (tx.valueBalance ≤ 0) valueOut (-tx.valueBalance) = some result
        ∧ (tx.vShieldedSpend = [] → tx.vShieldedOutput = [] → tx.valueBalance = 0) := by
  simp only [txStructuralCheckValueBalance, require_bind_eq_ok] at checked
  obtain ⟨zero, bounds, checked⟩ := checked
  refine ⟨?_, ?_⟩
  · split at checked
    · rename_i notPositive
      obtain ⟨total, checked⟩ := require_bind_eq_ok.mp checked
      cases checked
      have low : -2100000000000000 ≤ tx.valueBalance.toInt ∧ tx.valueBalance.toInt ≤ 0 := by
        simp only [Bool.and_eq_true, decide_eq_true_eq, Int64.le_iff_toInt_le] at bounds notPositive
        exact ⟨bounds.2, notPositive⟩
      have negated : (-tx.valueBalance).toInt = -tx.valueBalance.toInt := by
        rw [Int64.toInt_neg]
        exact Int.bmod_eq_of_le (by omega) (by omega)
      have range : moneyRange (-tx.valueBalance) = true := by
        rw [moneyRange_iff, negated]
        omega
      simp [addMoneyIf, notPositive, addMoney, range, total]
    · rename_i positive
      cases checked
      simp [addMoneyIf, positive]
  · intro noSpends noOutputs
    simpa [noSpends, noOutputs] using zero

/-- The facts that later rules take from the structural checks. -/
structure Checked (tx : Transaction) : Prop where
  valueOut : 0 ≤ (transactionGetValueOut tx).toInt
  distinct : (tx.vin.map TxIn.prevout).Nodup
  coinbase : transactionIsCoinbase tx = true → tx.vJoinsplit = [] ∧ tx.valueBalance = 0

theorem checked_of_structural {rules : SizeRules} {ctx : TxCheckContext} {tx : Transaction}
    (checked : domainConsensusCheckTransactionStructural rules ctx tx = .ok ()) : Checked tx := by
  simp only [domainConsensusCheckTransactionStructural, bind_eq_ok] at checked
  obtain ⟨_, _, _, _, _, _, outTotal, outputs, balanceTotal, balance, total, joinsplits,
    _, _, _, duplicates, _, _, restrictions⟩ := checked
  obtain ⟨balanceSum, noBalance⟩ := addMoneyIf_of_checkValueBalance balance
  refine { valueOut := ?_, distinct := ?_, coinbase := ?_ }
  · have sum : transactionGetValueOut tx = total := by
      simp [transactionGetValueOut, sumMoney_of_checkVoutValues outputs, balanceSum,
        sumMoney_of_checkJoinsplitValues joinsplits]
    have outRange := (sumMoney_eq_some zero_moneyRange (sumMoney_of_checkVoutValues outputs)).2.2
    have balanceRange := addMoneyIf_moneyRange outRange balanceSum
    have range := (sumMoney_eq_some balanceRange (sumMoney_of_checkJoinsplitValues joinsplits)).2.2
    rw [sum]
    exact (moneyRange_iff.mp range).1
  · simp only [txStructuralCheckDuplicateInputsAndJsNullifiers, require_bind_eq_ok,
      decide_eq_true_eq] at duplicates
    exact duplicates.1
  · intro isCoinbase
    simp only [txStructuralCheckCoinbaseRestrictions, isCoinbase, if_true, require_bind_eq_ok,
      List.isEmpty_iff] at restrictions
    exact ⟨restrictions.1, noBalance restrictions.2.1 restrictions.2.2.1⟩

end Z23.Consensus
