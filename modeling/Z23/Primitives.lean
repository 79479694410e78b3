import Mathlib.Algebra.BigOperators.Group.List.Basic
import Mathlib.Algebra.Order.BigOperators.Group.List
import Mathlib.Tactic.Linarith
import Z23.Lib.Bytes

/-!
Transactions, blocks and amounts as the node holds them in memory, with the value sums that
return the sentinel `-1` when a term or a partial sum leaves the money range.
-/

namespace Z23

-- Data model

/-- Models `struct uint256`: 32 bytes in internal order. -/
structure Uint256 where
  data : List UInt8
  size_data : data.length = 32
deriving DecidableEq, Repr

theorem Uint256.ext {a b : Uint256} (same : a.data = b.data) : a = b := by
  cases a
  cases b
  simp_all

def Uint256.fill (byte : UInt8) : Uint256 :=
  ⟨List.replicate 32 byte, List.length_replicate⟩

/-- The hash with the bytes of a number, least significant first. -/
def Uint256.ofNatLE (value : Nat) : Uint256 :=
  ⟨Lib.Bytes.bytesLE 32 value, Lib.Bytes.length_bytesLE 32 value⟩

def Uint256.isNull (h : Uint256) : Bool := h.data.all (· == 0)

@[ext]
structure Outpoint where
  hash : Uint256
  n : UInt32
deriving DecidableEq, Repr

def Outpoint.isNull (op : Outpoint) : Bool := op.hash.isNull && op.n == 0xffffffff

/-- Scripts are their first `size` bytes. -/
abbrev Script := List UInt8

def maxScriptSize : Nat := 10000

def opReturn : UInt8 := 0x6a

def scriptIsUnspendable (s : Script) : Bool :=
  s.head? == some opReturn || s.length > maxScriptSize

structure TxIn where
  prevout : Outpoint
  scriptSig : Script := []
  sequence : UInt32 := 0xffffffff
deriving DecidableEq, Repr

structure TxOut where
  value : Int64
  scriptPubKey : Script
deriving DecidableEq, Repr

def TxOut.null : TxOut := ⟨-1, []⟩

def TxOut.isNull (out : TxOut) : Bool := out.value == -1

structure SpendDescription where
  anchor : Uint256
  nullifier : Uint256
deriving DecidableEq, Repr

structure OutputDescription where
  cm : Uint256
deriving DecidableEq, Repr

structure JsDescription where
  vpubOld : Int64
  vpubNew : Int64
  anchor : Uint256
  nullifiers : List Uint256
  commitments : List Uint256
deriving DecidableEq, Repr

structure Transaction where
  overwintered : Bool := false
  version : Int32 := 1
  versionGroupId : UInt32 := 0
  vin : List TxIn
  vout : List TxOut
  lockTime : UInt32 := 0
  expiryHeight : UInt32 := 0
  valueBalance : Int64 := 0
  vShieldedSpend : List SpendDescription := []
  vShieldedOutput : List OutputDescription := []
  vJoinsplit : List JsDescription := []
  hash : Uint256
deriving DecidableEq, Repr

def transactionIsCoinbase (tx : Transaction) : Bool :=
  match tx.vin with
  | [input] => input.prevout.isNull
  | _ => false

/-- The outpoints that a transaction spends; a coinbase spends none. -/
def spentOutpoints (tx : Transaction) : List Outpoint :=
  if transactionIsCoinbase tx then [] else tx.vin.map TxIn.prevout

def maxBlockSize : Nat := 2000000

/-- A block with the value of `block_get_hash` on its header. -/
structure Block where
  hash : Uint256
  vtx : List Transaction
deriving DecidableEq, Repr

-- Amounts

def coin : Int64 := 100000000

def maxMoney : Int64 := 2100000000000000

def moneyRange (value : Int64) : Bool := 0 ≤ value && value ≤ maxMoney

theorem moneyRange_iff {value : Int64}
    : moneyRange value = true ↔ 0 ≤ value.toInt ∧ value.toInt ≤ 2100000000000000 := by
  simp [moneyRange, maxMoney, Int64.le_iff_toInt_le]

theorem toInt_add_cases (a b : Int64)
    : (a + b).toInt = a.toInt + b.toInt
        ∨ 2 ^ 63 ≤ a.toInt + b.toInt ∧ (a + b).toInt = a.toInt + b.toInt - 2 ^ 64
        ∨ a.toInt + b.toInt < -(2 ^ 63) ∧ (a + b).toInt = a.toInt + b.toInt + 2 ^ 64 := by
  have aLow := Int64.le_toInt a
  have aHigh := Int64.toInt_lt a
  have bLow := Int64.le_toInt b
  have bHigh := Int64.toInt_lt b
  rw [Int64.toInt_add, Int.bmod_def]
  split <;> omega

theorem toInt_sub_cases (a b : Int64)
    : (a - b).toInt = a.toInt - b.toInt
        ∨ 2 ^ 63 ≤ a.toInt - b.toInt ∧ (a - b).toInt = a.toInt - b.toInt - 2 ^ 64
        ∨ a.toInt - b.toInt < -(2 ^ 63) ∧ (a - b).toInt = a.toInt - b.toInt + 2 ^ 64 := by
  have aLow := Int64.le_toInt a
  have aHigh := Int64.toInt_lt a
  have bLow := Int64.le_toInt b
  have bHigh := Int64.toInt_lt b
  rw [Int64.toInt_sub, Int.bmod_def]
  split <;> omega

/--
One guarded step of a value sum: the term and the new total must be in the money range.
-/
def addMoney (total value : Int64) : Option Int64 :=
  let total := total + value
  if moneyRange value && moneyRange total then some total else none

/-- The guarded step for the value balance, taken on one sign of it only. -/
def addMoneyIf (counts : Bool) (total value : Int64) : Option Int64 :=
  if counts then addMoney total value else some total

/-- The loops over outputs and joinsplits of the value sums. -/
def sumMoney (total : Int64) : List Int64 → Option Int64
  | [] => some total
  | value :: rest => (addMoney total value).bind (fun total => sumMoney total rest)

/--
Models `transaction_get_value_out`; the value balance counts when it is not positive.
-/
def transactionGetValueOut (tx : Transaction) : Int64 :=
  let total := do
    let total ← sumMoney 0 (tx.vout.map TxOut.value)
    let total ← addMoneyIf (tx.valueBalance ≤ 0) total (-tx.valueBalance)
    sumMoney total (tx.vJoinsplit.map JsDescription.vpubOld)
  total.getD (-1)

def transactionGetShieldedValueIn (tx : Transaction) : Int64 :=
  let total := do
    let total ← addMoneyIf (tx.valueBalance ≥ 0) 0 tx.valueBalance
    sumMoney total (tx.vJoinsplit.map JsDescription.vpubNew)
  total.getD (-1)

-- Exact integer sums

def sumInt (values : List Int64) : Int := (values.map Int64.toInt).sum

@[simp]
theorem sumInt_nil : sumInt [] = 0 := rfl

@[simp]
theorem sumInt_cons (value : Int64) (rest : List Int64)
    : sumInt (value :: rest) = value.toInt + sumInt rest := rfl

@[simp]
theorem sumInt_append (xs ys : List Int64) : sumInt (xs ++ ys) = sumInt xs + sumInt ys := by
  simp [sumInt]

theorem sumInt_nonneg {values : List Int64} (nonneg : ∀ v ∈ values, 0 ≤ v.toInt)
    : 0 ≤ sumInt values := by
  apply List.sum_nonneg
  simpa using nonneg

def transparentOut (tx : Transaction) : Int := sumInt (tx.vout.map TxOut.value)

def sproutIn (tx : Transaction) : Int := sumInt (tx.vJoinsplit.map JsDescription.vpubOld)

def sproutOut (tx : Transaction) : Int := sumInt (tx.vJoinsplit.map JsDescription.vpubNew)

/-- The exact value leaving the transparent side: outputs and deposits into the pools. -/
def exactValueOut (tx : Transaction) : Int :=
  transparentOut tx + max 0 (-tx.valueBalance.toInt) + sproutIn tx

/-- The exact value that the shielded pools pay in. -/
def exactShieldedIn (tx : Transaction) : Int :=
  max 0 tx.valueBalance.toInt + sproutOut tx

/-- The pool inflow of one transaction, as `connect_block_shielded_values` counts it. -/
def poolInflow (tx : Transaction) : Int :=
  sproutIn tx - sproutOut tx - tx.valueBalance.toInt

/-- The net Sprout and Sapling inflow of a list of transactions. -/
def netPoolInflow (txs : List Transaction) : Int := (txs.map poolInflow).sum

section

variable {total : Int64} (range : moneyRange total = true)
include range

theorem addMoney_eq_some {value result : Int64} (added : addMoney total value = some result)
    : result.toInt = total.toInt + value.toInt ∧ 0 ≤ value.toInt
        ∧ moneyRange result = true := by
  rw [addMoney] at added
  split at added
  · rename_i inRange
    simp only [Bool.and_eq_true, moneyRange_iff] at inRange range
    obtain rfl := Option.some.inj added
    have exactSum := toInt_add_cases total value
    exact ⟨by omega, inRange.1.1, moneyRange_iff.mpr inRange.2⟩
  · simp at added

theorem sumMoney_eq_some {result : Int64} {values : List Int64}
    (summed : sumMoney total values = some result)
    : result.toInt = total.toInt + sumInt values ∧ (∀ v ∈ values, 0 ≤ v.toInt)
        ∧ moneyRange result = true := by
  induction values generalizing total with
  | nil =>
    obtain rfl := Option.some.inj summed
    exact ⟨by simp, by simp, range⟩
  | cons value rest ih =>
    obtain ⟨middle, added, restSum⟩ := Option.bind_eq_some_iff.mp summed
    obtain ⟨middleEq, valueNonneg, middleRange⟩ := addMoney_eq_some range added
    obtain ⟨resultEq, restNonneg, resultRange⟩ := ih middleRange restSum
    refine ⟨?_, ?_, resultRange⟩
    · rw [resultEq, middleEq, sumInt_cons]
      omega
    · intro v member
      rcases List.mem_cons.mp member with rfl | later
      · exact valueNonneg
      · exact restNonneg v later

theorem addMoneyIf_moneyRange {counts : Bool} {value result : Int64}
    (added : addMoneyIf counts total value = some result)
    : moneyRange result = true := by
  rw [addMoneyIf] at added
  split at added
  · exact (addMoney_eq_some range added).2.2
  · obtain rfl := Option.some.inj added
    exact range

end

theorem zero_moneyRange : moneyRange 0 = true := by decide

theorem getD_nonneg {sum : Option Int64} (nonneg : 0 ≤ (sum.getD (-1)).toInt)
    : ∃ total, sum = some total := by
  cases sum with
  | none =>
    rw [Option.getD_none] at nonneg
    exact absurd nonneg (by decide)
  | some total => exact ⟨total, rfl⟩

theorem transactionGetValueOut_exact {tx : Transaction}
    (nonneg : 0 ≤ (transactionGetValueOut tx).toInt)
    : (transactionGetValueOut tx).toInt = exactValueOut tx
        ∧ (∀ out ∈ tx.vout, 0 ≤ out.value.toInt)
        ∧ (transactionGetValueOut tx).toInt ≤ 2100000000000000 := by
  obtain ⟨result, computed⟩ := getD_nonneg nonneg
  have resultEq : transactionGetValueOut tx = result := by
    simp only [transactionGetValueOut, computed, Option.getD_some]
  obtain ⟨outTotal, outSum, rest⟩ := Option.bind_eq_some_iff.mp computed
  obtain ⟨balanceTotal, balanceSum, joinSum⟩ := Option.bind_eq_some_iff.mp rest
  obtain ⟨outEq, outNonneg, outRange⟩ := sumMoney_eq_some zero_moneyRange outSum
  have balanceEq : balanceTotal.toInt = outTotal.toInt + max 0 (-tx.valueBalance.toInt)
      ∧ moneyRange balanceTotal = true := by
    rw [addMoneyIf] at balanceSum
    split at balanceSum
    · rename_i notPositive
      obtain ⟨added, negNonneg, range⟩ := addMoney_eq_some outRange balanceSum
      have low : tx.valueBalance.toInt ≤ 0 := by
        simpa [Int64.le_iff_toInt_le] using notPositive
      have least := Int64.le_toInt tx.valueBalance
      have negEq : (-tx.valueBalance).toInt = -tx.valueBalance.toInt := by
        rw [Int64.toInt_neg] at negNonneg ⊢
        by_cases minimal : tx.valueBalance.toInt = -(2 ^ 63)
        · rw [minimal] at negNonneg
          exact absurd negNonneg (by decide)
        · exact Int.bmod_eq_of_le (by omega) (by omega)
      refine ⟨?_, range⟩
      rw [added, negEq, max_eq_right (by omega)]
    · rename_i positive
      have high : 0 < tx.valueBalance.toInt := by
        simpa [Int64.le_iff_toInt_le] using positive
      obtain rfl := Option.some.inj balanceSum
      exact ⟨by rw [max_eq_left (by omega)]; omega, outRange⟩
  obtain ⟨joinEq, _, joinRange⟩ := sumMoney_eq_some balanceEq.2 joinSum
  rw [resultEq]
  refine ⟨?_, ?_, (moneyRange_iff.mp joinRange).2⟩
  · rw [joinEq, balanceEq.1, outEq, exactValueOut, transparentOut, sproutIn]
    simp
  · intro out member
    exact outNonneg _ (List.mem_map_of_mem member)

theorem transactionGetShieldedValueIn_exact {tx : Transaction}
    (nonneg : 0 ≤ (transactionGetShieldedValueIn tx).toInt)
    : (transactionGetShieldedValueIn tx).toInt = exactShieldedIn tx
        ∧ (transactionGetShieldedValueIn tx).toInt ≤ 2100000000000000 := by
  obtain ⟨result, computed⟩ := getD_nonneg nonneg
  have resultEq : transactionGetShieldedValueIn tx = result := by
    simp only [transactionGetShieldedValueIn, computed, Option.getD_some]
  obtain ⟨balanceTotal, balanceSum, joinSum⟩ := Option.bind_eq_some_iff.mp computed
  have balanceEq : balanceTotal.toInt = max 0 tx.valueBalance.toInt
      ∧ moneyRange balanceTotal = true := by
    rw [addMoneyIf] at balanceSum
    split at balanceSum
    · obtain ⟨added, balanceNonneg, range⟩ := addMoney_eq_some zero_moneyRange balanceSum
      refine ⟨?_, range⟩
      rw [added, max_eq_right balanceNonneg]
      simp
    · rename_i negative
      have low : tx.valueBalance.toInt < 0 := by
        simpa [Int64.le_iff_toInt_le] using negative
      obtain rfl := Option.some.inj balanceSum
      exact ⟨by rw [max_eq_left (by omega)]; rfl, zero_moneyRange⟩
  obtain ⟨joinEq, _, joinRange⟩ := sumMoney_eq_some balanceEq.2 joinSum
  rw [resultEq]
  refine ⟨?_, (moneyRange_iff.mp joinRange).2⟩
  rw [joinEq, balanceEq.1, exactShieldedIn, sproutOut]

theorem poolInflow_eq (tx : Transaction)
    : poolInflow tx = exactValueOut tx - transparentOut tx - exactShieldedIn tx := by
  have split : tx.valueBalance.toInt
      = max 0 tx.valueBalance.toInt - max 0 (-tx.valueBalance.toInt) := by
    omega
  rw [poolInflow, exactValueOut, exactShieldedIn]
  omega

theorem netPoolInflow_eq (txs : List Transaction)
    : netPoolInflow txs
        = (txs.map exactValueOut).sum - (txs.map transparentOut).sum
          - (txs.map exactShieldedIn).sum := by
  induction txs with
  | nil => rfl
  | cons tx txs ih =>
    simp only [netPoolInflow, List.map_cons, List.sum_cons] at ih ⊢
    rw [ih, poolInflow_eq]
    omega

/--
Conservation over one block. When the fees and outputs of the ordinary transactions are covered
by what they spend, and the coinbase pays out at most fees and subsidy, then the created value
plus the pool inflow exceeds the spent value by at most the subsidy.
-/
theorem created_add_inflow_le {coinbase : Transaction} {rest : List Transaction}
    {created spent fees subsidy : Int}
    (covered : fees + (rest.map exactValueOut).sum
      ≤ spent + (rest.map exactShieldedIn).sum)
    (ceiling : exactValueOut coinbase ≤ fees + subsidy)
    (noUnshield : 0 ≤ exactShieldedIn coinbase)
    (createdLe : created ≤ ((coinbase :: rest).map transparentOut).sum)
    : created + netPoolInflow (coinbase :: rest) ≤ spent + subsidy := by
  rw [netPoolInflow_eq]
  simp only [List.map_cons, List.sum_cons] at createdLe ⊢
  omega

end Z23
