import Mathlib.Algebra.BigOperators.Group.List.Lemmas
import Mathlib.Algebra.Order.BigOperators.Group.List
import Z23.Consensus.TxStructural

/-!
The structural checks as loops over machine words: each signed sum of the source says when it does
not fit, and duplicates are looked for pair by pair. No sum ever fails, and a transaction passes
exactly if it keeps a list of rules about sets and exact sums.
-/

namespace Z23.Consensus.SignedSums

open Z23.Lib.FoldM

-- The loops

/-- What ends the checks early. -/
inductive TxStop where
  | overflow
  | rejected (reason : TxReject)
deriving DecidableEq, Repr

def addInt64 (a b : Int64) : Except TxStop Int64 :=
  if -9223372036854775808 ≤ a.toInt + b.toInt ∧ a.toInt + b.toInt ≤ 9223372036854775807
  then .ok (a + b) else .error .overflow

def negInt64 (a : Int64) : Except TxStop Int64 :=
  if a.toInt = -9223372036854775808 then .error .overflow else .ok (-a)

def txStructuralCheckVoutValues (valueOut : Int64) : List Int64 → Except TxStop Int64
  | [] => .ok valueOut
  | value :: rest => do
    require (0 ≤ value) (.rejected .voutNegative)
    require (value ≤ maxMoney) (.rejected .voutToolarge)
    let valueOut ← addInt64 valueOut value
    require (moneyRange valueOut) (.rejected .voutTotalToolarge)
    txStructuralCheckVoutValues valueOut rest

def txStructuralCheckValueBalance (tx : Transaction) (valueOut : Int64)
    : Except TxStop Int64 := do
  require (!(tx.vShieldedSpend.isEmpty && tx.vShieldedOutput.isEmpty && tx.valueBalance != 0))
    (.rejected .valuebalanceNonzero)
  require (tx.valueBalance ≤ maxMoney && -maxMoney ≤ tx.valueBalance)
    (.rejected .valuebalanceToolarge)
  if tx.valueBalance ≤ 0 then
    let negated ← negInt64 tx.valueBalance
    let valueOut ← addInt64 valueOut negated
    require (moneyRange valueOut) (.rejected .voutTotalToolarge)
    .ok valueOut
  else .ok valueOut

def txStructuralCheckJoinsplitValues (valueOut : Int64)
    : List JsDescription → Except TxStop Int64
  | [] => .ok valueOut
  | js :: rest => do
    require (0 ≤ js.vpubOld) (.rejected .vpubOldNegative)
    require (0 ≤ js.vpubNew) (.rejected .vpubNewNegative)
    require (js.vpubOld ≤ maxMoney) (.rejected .vpubOldToolarge)
    require (js.vpubNew ≤ maxMoney) (.rejected .vpubNewToolarge)
    require (!(js.vpubNew != 0 && js.vpubOld != 0)) (.rejected .vpubsBothNonzero)
    let valueOut ← addInt64 valueOut js.vpubOld
    require (moneyRange valueOut) (.rejected .voutTotalToolarge)
    txStructuralCheckJoinsplitValues valueOut rest

/-- The loop over the joinsplits adds before it looks at the amount. -/
def joinsplitInputTotal (valueIn : Int64) : List JsDescription → Except TxStop Int64
  | [] => .ok valueIn
  | js :: rest => do
    let valueIn ← addInt64 valueIn js.vpubNew
    require (moneyRange js.vpubNew && moneyRange valueIn) (.rejected .txintotalToolarge)
    joinsplitInputTotal valueIn rest

def txStructuralCheckInputTotals (tx : Transaction) : Except TxStop Unit := do
  let valueIn ← joinsplitInputTotal 0 tx.vJoinsplit
  if tx.valueBalance ≥ 0 then
    let valueIn ← addInt64 valueIn tx.valueBalance
    require (moneyRange valueIn) (.rejected .txintotalToolarge)

/-- Compares every element with those behind it. -/
def anyPairEqual {α : Type} [DecidableEq α] : List α → Bool
  | [] => false
  | x :: rest => rest.any (· = x) || anyPairEqual rest

/-- Compares each nullifier of a joinsplit with those of the joinsplits before and with the ones
before it in its own. -/
def nullifierRepeats (before : List JsDescription) : List Uint256 → List Uint256 → Bool
  | _, [] => false
  | own, nf :: rest =>
    before.any (fun js => js.nullifiers.any (· = nf)) || own.any (· = nf)
      || nullifierRepeats before (own ++ [nf]) rest

def anyJsNullifierRepeats (before : List JsDescription) : List JsDescription → Bool
  | [] => false
  | js :: rest =>
    nullifierRepeats before [] js.nullifiers || anyJsNullifierRepeats (before ++ [js]) rest

def txStructuralCheckDuplicateInputsAndJsNullifiers (tx : Transaction) : Except TxStop Unit := do
  require (!anyPairEqual (tx.vin.map TxIn.prevout)) (.rejected .inputsDuplicate)
  require (!anyJsNullifierRepeats [] tx.vJoinsplit) (.rejected .jsNullifiersDuplicate)

def txStructuralCheckDuplicateSpendNullifiers (tx : Transaction) : Except TxStop Unit :=
  require (!anyPairEqual (tx.vShieldedSpend.map SpendDescription.nullifier))
    (.rejected .spendNullifiersDuplicate)

def domainConsensusCheckTransactionStructural (rules : SizeRules) (ctx : TxCheckContext)
    (tx : Transaction) : Except TxStop Unit := do
  (txStructuralCheckVersions tx).mapError .rejected
  (txStructuralCheckInputOutputPresence tx).mapError .rejected
  (txStructuralCheckSerializedSize rules ctx tx).mapError .rejected
  let valueOut ← txStructuralCheckVoutValues 0 (tx.vout.map TxOut.value)
  let valueOut ← txStructuralCheckValueBalance tx valueOut
  let _ ← txStructuralCheckJoinsplitValues valueOut tx.vJoinsplit
  txStructuralCheckInputTotals tx
  txStructuralCheckDuplicateInputsAndJsNullifiers tx
  txStructuralCheckDuplicateSpendNullifiers tx
  (txStructuralCheckCoinbaseRestrictions tx).mapError .rejected

-- Exact sums

def InMoney (value : Int) : Prop := 0 ≤ value ∧ value ≤ 2100000000000000

/-- Every running total of the terms, counted from a start. -/
def RunningTotals (start : Int) (terms : List Int) : Prop :=
  ∀ first, first <+: terms → InMoney (start + first.sum)

section RunningTotals

variable {start : Int} {terms : List Int}

theorem runningTotals_nil : RunningTotals start [] ↔ InMoney start := by
  simp [RunningTotals]

theorem runningTotals_cons {term : Int}
    : RunningTotals start (term :: terms)
        ↔ InMoney start ∧ RunningTotals (start + term) terms := by
  constructor
  · intro totals
    refine ⟨by simpa using totals [] List.nil_prefix, ?_⟩
    intro first among
    have total := totals (term :: first) (List.prefix_cons_inj term |>.mpr among)
    rwa [List.sum_cons, ← Int.add_assoc] at total
  · rintro ⟨here, totals⟩ first among
    cases first with
    | nil => simpa using here
    | cons x first =>
      obtain ⟨rfl, behind⟩ := List.cons_prefix_cons.mp among
      rw [List.sum_cons, ← Int.add_assoc]
      exact totals first behind

theorem RunningTotals.start_mem (totals : RunningTotals start terms) : InMoney start := by
  simpa using totals [] List.nil_prefix

theorem runningTotals_append {more : List Int}
    : RunningTotals start (terms ++ more)
        ↔ RunningTotals start terms ∧ RunningTotals (start + terms.sum) more := by
  induction terms generalizing start with
  | nil =>
    rw [List.nil_append, List.sum_nil, Int.add_zero, runningTotals_nil]
    exact ⟨fun totals => ⟨totals.start_mem, totals⟩, fun both => both.2⟩
  | cons term terms ih =>
    rw [List.cons_append, runningTotals_cons, runningTotals_cons, ih, List.sum_cons, and_assoc,
      Int.add_assoc]

end RunningTotals

theorem inMoney_iff {value : Int64} : InMoney value.toInt ↔ 0 ≤ value ∧ value ≤ maxMoney := by
  rw [Int64.le_iff_toInt_le, Int64.le_iff_toInt_le]
  rfl

theorem toInt_add_of_inMoney {a b : Int64} (aRange : InMoney a.toInt) (bRange : InMoney b.toInt)
    : (a + b).toInt = a.toInt + b.toInt := by
  rw [InMoney] at aRange bRange
  have sum := toInt_add_cases a b
  omega

theorem addInt64_of_inMoney {a b : Int64} (aRange : InMoney a.toInt) (bRange : InMoney b.toInt)
    : addInt64 a b = .ok (a + b) := by
  rw [InMoney] at aRange bRange
  rw [addInt64]
  exact if_pos ⟨by omega, by omega⟩

theorem toInt_neg_of_le {value : Int64} (low : -maxMoney ≤ value) (high : value ≤ 0)
    : (-value).toInt = -value.toInt ∧ InMoney (-value.toInt) := by
  have bounds : -2100000000000000 ≤ value.toInt ∧ value.toInt ≤ 0 := by
    rw [Int64.le_iff_toInt_le] at low high
    exact ⟨low, high⟩
  refine ⟨?_, by omega, by omega⟩
  rw [Int64.toInt_neg]
  exact Int.bmod_eq_of_le (by omega) (by omega)

-- What the value checks say

theorem checkVoutValues_eq_ok {valueOut result : Int64} {values : List Int64}
    (range : InMoney valueOut.toInt)
    : Consensus.txStructuralCheckVoutValues valueOut values = .ok result
        ↔ (∀ v ∈ values, InMoney v.toInt)
          ∧ RunningTotals valueOut.toInt (values.map Int64.toInt)
          ∧ result.toInt = valueOut.toInt + (values.map Int64.toInt).sum := by
  induction values generalizing valueOut with
  | nil =>
    simp [Consensus.txStructuralCheckVoutValues, runningTotals_nil, range, Int64.toInt_inj, eq_comm]
  | cons value rest ih =>
    simp only [Consensus.txStructuralCheckVoutValues, require_bind_eq_ok, decide_eq_true_eq,
      List.forall_mem_cons, List.map_cons, runningTotals_cons, List.sum_cons, range, true_and]
    rw [← and_assoc, ← inMoney_iff]
    constructor
    · rintro ⟨valueRange, total, checked⟩
      have sum := toInt_add_of_inMoney range valueRange
      have totalRange : InMoney (valueOut + value).toInt := moneyRange_iff.mp total
      obtain ⟨amounts, totals, result⟩ := (ih totalRange).mp checked
      rw [sum] at totals result
      exact ⟨⟨valueRange, amounts⟩, totals, by rw [result, Int.add_assoc]⟩
    · rintro ⟨⟨valueRange, amounts⟩, totals, result⟩
      have sum := toInt_add_of_inMoney range valueRange
      have totalRange : InMoney (valueOut + value).toInt := by
        rw [sum]
        exact totals.start_mem
      refine ⟨valueRange, moneyRange_iff.mpr totalRange, (ih totalRange).mpr ⟨amounts, ?_, ?_⟩⟩
      · rwa [sum]
      · rw [sum, result, Int.add_assoc]

/-- The amounts of a joinsplit are in range, and one of them is zero. -/
structure JoinsplitAmounts (js : JsDescription) : Prop where
  vpubOld : InMoney js.vpubOld.toInt
  vpubNew : InMoney js.vpubNew.toInt
  oneWay : js.vpubOld = 0 ∨ js.vpubNew = 0

theorem joinsplitAmounts_iff {js : JsDescription}
    : JoinsplitAmounts js
        ↔ 0 ≤ js.vpubOld ∧ 0 ≤ js.vpubNew ∧ js.vpubOld ≤ maxMoney ∧ js.vpubNew ≤ maxMoney
          ∧ (!(js.vpubNew != 0 && js.vpubOld != 0)) = true := by
  have oneWay : (!(js.vpubNew != 0 && js.vpubOld != 0)) = true
      ↔ js.vpubOld = 0 ∨ js.vpubNew = 0 := by
    simp only [Bool.not_eq_true', Bool.and_eq_false_iff, bne_eq_false_iff_eq]
    exact or_comm
  rw [oneWay]
  constructor
  · rintro ⟨old, new, oneWay⟩
    rw [inMoney_iff] at old new
    exact ⟨old.1, new.1, old.2, new.2, oneWay⟩
  · rintro ⟨oldLow, newLow, oldHigh, newHigh, oneWay⟩
    exact ⟨inMoney_iff.mpr ⟨oldLow, oldHigh⟩, inMoney_iff.mpr ⟨newLow, newHigh⟩, oneWay⟩

theorem checkJoinsplitValues_eq_ok {valueOut result : Int64} {joinsplits : List JsDescription}
    (range : InMoney valueOut.toInt)
    : Consensus.txStructuralCheckJoinsplitValues valueOut joinsplits = .ok result
        ↔ (∀ js ∈ joinsplits, JoinsplitAmounts js)
          ∧ RunningTotals valueOut.toInt (joinsplits.map (·.vpubOld.toInt))
          ∧ result.toInt = valueOut.toInt + (joinsplits.map (·.vpubOld.toInt)).sum := by
  induction joinsplits generalizing valueOut with
  | nil =>
    simp [Consensus.txStructuralCheckJoinsplitValues, runningTotals_nil, range, Int64.toInt_inj,
      eq_comm]
  | cons js rest ih =>
    simp only [Consensus.txStructuralCheckJoinsplitValues, require_bind_eq_ok, decide_eq_true_eq,
      List.forall_mem_cons, List.map_cons, runningTotals_cons, List.sum_cons, range, true_and,
      joinsplitAmounts_iff, and_assoc]
    constructor
    · rintro ⟨oldLow, newLow, oldHigh, newHigh, oneWay, total, checked⟩
      have sum := toInt_add_of_inMoney range (inMoney_iff.mpr ⟨oldLow, oldHigh⟩)
      have totalRange : InMoney (valueOut + js.vpubOld).toInt := moneyRange_iff.mp total
      obtain ⟨amounts, totals, result⟩ := (ih totalRange).mp checked
      rw [sum] at totals result
      simp only [joinsplitAmounts_iff] at amounts
      exact ⟨oldLow, newLow, oldHigh, newHigh, oneWay, amounts, totals,
        by rw [result, Int.add_assoc]⟩
    · rintro ⟨oldLow, newLow, oldHigh, newHigh, oneWay, amounts, totals, result⟩
      have sum := toInt_add_of_inMoney range (inMoney_iff.mpr ⟨oldLow, oldHigh⟩)
      have totalRange : InMoney (valueOut + js.vpubOld).toInt := by
        rw [sum]
        exact totals.start_mem
      simp only [← joinsplitAmounts_iff] at amounts
      refine ⟨oldLow, newLow, oldHigh, newHigh, oneWay, moneyRange_iff.mpr totalRange,
        (ih totalRange).mpr ⟨amounts, ?_, ?_⟩⟩
      · rwa [sum]
      · rw [sum, result, Int.add_assoc]

theorem runningTotals_singleton {start term : Int}
    : RunningTotals start [term] ↔ InMoney start ∧ InMoney (start + term) := by
  rw [runningTotals_cons, runningTotals_nil]

theorem checkValueBalance_eq_ok {tx : Transaction} {valueOut result : Int64}
    (range : InMoney valueOut.toInt)
    : Consensus.txStructuralCheckValueBalance tx valueOut = .ok result
        ↔ (tx.vShieldedSpend = [] → tx.vShieldedOutput = [] → tx.valueBalance = 0)
          ∧ tx.valueBalance ≤ maxMoney
          ∧ RunningTotals valueOut.toInt [max 0 (-tx.valueBalance.toInt)]
          ∧ result.toInt = valueOut.toInt + max 0 (-tx.valueBalance.toInt) := by
  have shielded : (!(tx.vShieldedSpend.isEmpty && tx.vShieldedOutput.isEmpty
      && tx.valueBalance != 0)) = true
      ↔ (tx.vShieldedSpend = [] → tx.vShieldedOutput = [] → tx.valueBalance = 0) := by
    simp [or_iff_not_imp_left]
  simp only [Consensus.txStructuralCheckValueBalance, require_bind_eq_ok, shielded,
    Bool.and_eq_true, decide_eq_true_eq, runningTotals_singleton, range, true_and, and_assoc]
  apply and_congr_right
  intro _
  apply and_congr_right
  intro high
  by_cases outflow : tx.valueBalance ≤ 0
  · have nonpos : tx.valueBalance.toInt ≤ 0 := Int64.le_iff_toInt_le.mp outflow
    rw [max_eq_right (by omega), if_pos outflow, require_bind_eq_ok]
    constructor
    · rintro ⟨low, total, same⟩
      obtain ⟨negated, negRange⟩ := toInt_neg_of_le low outflow
      rw [← negated] at negRange ⊢
      rw [← toInt_add_of_inMoney range negRange, ← Except.ok.inj same]
      exact ⟨moneyRange_iff.mp total, rfl⟩
    · rintro ⟨total, same⟩
      have low : -maxMoney ≤ tx.valueBalance := by
        rw [Int64.le_iff_toInt_le]
        change -2100000000000000 ≤ tx.valueBalance.toInt
        rw [InMoney] at total range
        omega
      obtain ⟨negated, negRange⟩ := toInt_neg_of_le low outflow
      rw [← negated] at negRange total same
      rw [← toInt_add_of_inMoney range negRange] at total same
      exact ⟨low, moneyRange_iff.mpr total, by rw [Int64.toInt_inj.mp same]⟩
  · have positive : 0 < tx.valueBalance.toInt := by
      rw [Int64.le_iff_toInt_le] at outflow
      exact Int.not_le.mp outflow
    have low : -maxMoney ≤ tx.valueBalance := by
      rw [Int64.le_iff_toInt_le]
      change -2100000000000000 ≤ tx.valueBalance.toInt
      omega
    rw [max_eq_left (by omega), if_neg outflow, Int.add_zero]
    simp [low, range, Int64.toInt_inj, eq_comm]

theorem sumMoney_eq_some_iff {total result : Int64} {values : List Int64}
    : sumMoney total values = some result
        ↔ Consensus.txStructuralCheckVoutValues total values = .ok result := by
  refine ⟨?_, sumMoney_of_checkVoutValues⟩
  intro summed
  induction values generalizing total with
  | nil =>
    obtain rfl := Option.some.inj summed
    rfl
  | cons value rest ih =>
    obtain ⟨middle, added, restSum⟩ := Option.bind_eq_some_iff.mp summed
    rw [addMoney] at added
    split at added
    · rename_i inRange
      obtain rfl := Option.some.inj added
      rw [Bool.and_eq_true] at inRange
      have value := inMoney_iff.mp (moneyRange_iff.mp inRange.1)
      simp only [Consensus.txStructuralCheckVoutValues, require_bind_eq_ok, decide_eq_true_eq]
      exact ⟨value.1, value.2, inRange.2, ih restSum⟩
    · cases added

theorem checkInputTotals_eq_ok {tx : Transaction}
    (amounts : ∀ js ∈ tx.vJoinsplit, InMoney js.vpubNew.toInt) (high : tx.valueBalance ≤ maxMoney)
    : Consensus.txStructuralCheckInputTotals tx = .ok ()
        ↔ RunningTotals 0 (tx.vJoinsplit.map (·.vpubNew.toInt) ++ [max 0 tx.valueBalance.toInt]) := by
  have zero : InMoney (0 : Int64).toInt := by
    rw [Int64.toInt_zero]
    exact ⟨by decide, by decide⟩
  have terms : (tx.vJoinsplit.map JsDescription.vpubNew).map Int64.toInt
      = tx.vJoinsplit.map (·.vpubNew.toInt) := by
    rw [List.map_map]
    rfl
  have amountsIn : ∀ v ∈ tx.vJoinsplit.map JsDescription.vpubNew, InMoney v.toInt := by
    intro v member
    obtain ⟨js, isJs, rfl⟩ := List.mem_map.mp member
    exact amounts js isJs
  rw [Consensus.txStructuralCheckInputTotals, runningTotals_append, runningTotals_singleton]
  cases summed : sumMoney 0 (tx.vJoinsplit.map JsDescription.vpubNew) with
  | none =>
    simp only [reduceCtorEq, false_iff]
    rintro ⟨totals, last, -⟩
    -- The sum of the terms is an amount, so the loop would have come to it.
    have fits : (Int64.ofInt (0 + (tx.vJoinsplit.map (·.vpubNew.toInt)).sum)).toInt
        = 0 + (tx.vJoinsplit.map (·.vpubNew.toInt)).sum := by
      rw [InMoney] at last
      exact Int64.toInt_ofInt_of_le (by omega) (by omega)
    have checked : Consensus.txStructuralCheckVoutValues 0
        (tx.vJoinsplit.map JsDescription.vpubNew)
          = .ok (Int64.ofInt (0 + (tx.vJoinsplit.map (·.vpubNew.toInt)).sum)) := by
      rw [checkVoutValues_eq_ok zero, terms, Int64.toInt_zero]
      exact ⟨amountsIn, totals, fits⟩
    rw [sumMoney_eq_some_iff.mpr checked] at summed
    cases summed
  | some valueIn =>
    obtain ⟨-, totals, same⟩ := (checkVoutValues_eq_ok zero).mp (sumMoney_eq_some_iff.mp summed)
    rw [terms, Int64.toInt_zero] at totals same
    simp only [require_eq_ok, ← same, totals, true_and]
    have valueRange : InMoney valueIn.toInt := by
      rw [same]
      exact totals _ (List.prefix_refl _)
    simp only [valueRange, true_and]
    by_cases inflow : tx.valueBalance ≥ 0
    · have nonneg : 0 ≤ tx.valueBalance.toInt := Int64.le_iff_toInt_le.mp inflow
      have balance : InMoney tx.valueBalance.toInt := inMoney_iff.mpr ⟨inflow, high⟩
      rw [max_eq_right nonneg, ← toInt_add_of_inMoney valueRange balance]
      simp only [inflow, decide_true, Bool.not_true, Bool.false_or]
      exact moneyRange_iff
    · have negative : tx.valueBalance.toInt ≤ 0 := by
        rw [ge_iff_le, Int64.le_iff_toInt_le] at inflow
        exact Int.le_of_lt (Int.not_le.mp inflow)
      rw [max_eq_left negative, Int.add_zero]
      simp [inflow, valueRange]

end Z23.Consensus.SignedSums
