import Mathlib.Algebra.BigOperators.Intervals
import Mathlib.Algebra.BigOperators.Ring.Finset
import Mathlib.Algebra.Order.BigOperators.Group.Finset
import Mathlib.Data.Int.ConditionallyCompleteOrder
import Mathlib.Tactic.Ring
import Z23.Consensus.Subsidy

/-!
The money that the main network ever pays out. The subsidy is constant up to the Buttercup switch
and halves at regular heights after it.
-/

namespace Z23.Consensus

open Finset

-- Halving sums

/--
What a schedule of halvings can still pay at a step: the rest of the epoch, and once more a whole
epoch for all that follow.
-/
def halvingRest (amount epoch step : Nat) : Nat :=
  (epoch - step % epoch + epoch) * (amount / 2 ^ (step / epoch))

theorem halvingRest_step (amount step : Nat) {epoch : Nat} (positive : 0 < epoch)
    : amount / 2 ^ (step / epoch) + halvingRest amount epoch (step + 1)
        ≤ halvingRest amount epoch step := by
  have inside : step % epoch < epoch := Nat.mod_lt step positive
  have split : epoch * (step / epoch) + step % epoch = step := Nat.div_add_mod step epoch
  unfold halvingRest
  by_cases last : step % epoch + 1 = epoch
  · have whole : step + 1 = epoch * (step / epoch + 1) := by
      rw [Nat.mul_add, Nat.mul_one]
      omega
    have next : (step + 1) / epoch = step / epoch + 1 := by
      rw [whole, Nat.mul_div_cancel_left _ positive]
    have start : (step + 1) % epoch = 0 := by
      rw [whole, Nat.mul_mod_right]
    have halved : 2 * (amount / 2 ^ (step / epoch + 1)) ≤ amount / 2 ^ (step / epoch) := by
      rw [Nat.pow_succ, ← Nat.div_div_eq_div_mul]
      omega
    have left : epoch - step % epoch = 1 := by omega
    rw [next, start, left, Nat.sub_zero]
    calc amount / 2 ^ (step / epoch) + (epoch + epoch) * (amount / 2 ^ (step / epoch + 1))
        = amount / 2 ^ (step / epoch) + epoch * (2 * (amount / 2 ^ (step / epoch + 1))) := by ring
      _ ≤ amount / 2 ^ (step / epoch) + epoch * (amount / 2 ^ (step / epoch)) :=
          Nat.add_le_add_left (Nat.mul_le_mul_left _ halved) _
      _ = (1 + epoch) * (amount / 2 ^ (step / epoch)) := by ring
  · have one : 1 % epoch = 1 := Nat.mod_eq_of_lt (by omega)
    have next : (step + 1) / epoch = step / epoch := by
      rw [Nat.add_div positive, one, if_neg (by omega), Nat.div_eq_of_lt (by omega : 1 < epoch)]
      omega
    have later : (step + 1) % epoch = step % epoch + 1 := by
      rw [Nat.add_mod, one, Nat.mod_eq_of_lt (by omega)]
    have count : epoch - step % epoch = epoch - (step % epoch + 1) + 1 := by omega
    rw [next, later, count]
    apply le_of_eq
    ring

theorem sum_halvings_le (amount steps : Nat) {epoch : Nat} (positive : 0 < epoch)
    : ∑ step ∈ range steps, amount / 2 ^ (step / epoch) ≤ 2 * epoch * amount := by
  have spent : ∑ step ∈ range steps, amount / 2 ^ (step / epoch) + halvingRest amount epoch steps
      ≤ 2 * epoch * amount := by
    induction steps with
    | zero =>
      unfold halvingRest
      simp only [range_zero, sum_empty, Nat.zero_mod, Nat.zero_div, pow_zero, Nat.div_one]
      apply le_of_eq
      rw [Nat.sub_zero]
      ring
    | succ steps ih =>
      have paid := halvingRest_step amount steps positive
      rw [sum_range_succ]
      omega
  omega

-- The main network

/-- The hash of the genesis block, least significant byte first. -/
def mainGenesis : Uint256 :=
  ⟨[0x02, 0x06, 0x26, 0x01, 0x43, 0x83, 0x8b, 0x5f, 0xf5, 0x2d, 0xc2, 0xeb, 0x7b, 0x4b, 0x80,
    0x99, 0xd4, 0xe4, 0xc9, 0x9d, 0xc3, 0xef, 0x19, 0x79, 0x42, 0x89, 0xa2, 0xcd, 0x4c, 0x10,
    0x07, 0x00], rfl⟩

def preButtercupHalvingInterval : Int := 840000

def postButtercupHalvingInterval : Int :=
  preButtercupHalvingInterval * buttercupPowTargetSpacingRatio

def mainParams : ConsensusParams where
  hashGenesisBlock := mainGenesis
  fCoinbaseMustBeProtected := true
  nSubsidySlowStartInterval := 2
  nPreButtercupSubsidyHalvingInterval := preButtercupHalvingInterval
  nPostButtercupSubsidyHalvingInterval := postButtercupHalvingInterval
  buttercupHeight := 707000

/-- The subsidy of the main network from the Buttercup switch on. -/
def lateSubsidy (step : Nat) : Nat := 78125000 / 2 ^ (step / 1680000)

theorem mainParams_buttercupActive (height : Int)
    : buttercupActive mainParams height = decide (707000 ≤ height) := by
  unfold buttercupActive consensusUpgradeState
  have activation : mainParams.buttercupHeight = 707000 := rfl
  rw [activation, if_neg (by decide)]
  by_cases active : 707000 ≤ height
  · rw [if_pos active, decide_eq_true active]
    rfl
  · rw [if_neg active, decide_eq_false active]
    rfl

/-- Before the switch no halving is due, and the slow start ends with the first block. -/
theorem getBlockSubsidy_early {height : Int} (first : 1 ≤ height) (early : height < 707000)
    : getBlockSubsidy height mainParams = 1250000000 := by
  have inactive : buttercupActive mainParams height = false := by
    rw [mainParams_buttercupActive]
    exact decide_eq_false (by omega)
  have slow : mainParams.nSubsidySlowStartInterval = 2 := rfl
  have pre : mainParams.nPreButtercupSubsidyHalvingInterval = 840000 := rfl
  have half : (2 : Int).tdiv 2 = 1 := by decide
  have zero : (height - 1).tdiv 840000 = 0 := Int.tdiv_eq_zero_of_lt (by omega) (by omega)
  unfold getBlockSubsidy domainConsensusBlockSubsidy consensusHalving
    consensusSubsidySlowStartShift
  simp only [inactive, slow, half, pre, zero, if_neg (show ¬height < 0 by omega),
    if_neg (show ¬height < 1 by omega)]
  by_cases second : height < 2
  · obtain rfl : height = 1 := by omega
    decide
  · simp only [if_neg second, Bool.false_eq_true, if_false]
    decide

/-- The numerator of the halving index is negative at the switch only, where it truncates to
zero. -/
theorem consensusHalving_late {height : Int} (late : 707000 ≤ height)
    : consensusHalving mainParams height
        = (((height - 707001).toNat / 1680000 : Nat) : Int) + 3 := by
  have active : buttercupActive mainParams height = true := by
    rw [mainParams_buttercupActive]
    exact decide_eq_true late
  have index : (height - 1 - 707000).tdiv 1680000
      = (((height - 707001).toNat / 1680000 : Nat) : Int) := by
    by_cases switch : height = 707000
    · rw [switch]
      decide
    · have positive : 0 ≤ height - 707001 := by omega
      have shifted : height - 1 - 707000 = height - 707001 := by omega
      rw [shifted, Int.tdiv_eq_ediv_of_nonneg positive, Int.natCast_ediv,
        Int.toNat_of_nonneg positive]
      rfl
  unfold consensusHalving
  rw [active, if_pos rfl]
  exact congrArg (· + 3) index

theorem getBlockSubsidy_late {height : Int} (late : 707000 ≤ height)
    : getBlockSubsidy height mainParams = lateSubsidy (height - 707001).toNat := by
  have active : buttercupActive mainParams height = true := by
    rw [mainParams_buttercupActive]
    exact decide_eq_true late
  have slow : mainParams.nSubsidySlowStartInterval = 2 := rfl
  have half : (2 : Int).tdiv 2 = 1 := by decide
  have reward : fullSubsidy.tdiv buttercupPowTargetSpacingRatio = 625000000 := by decide
  unfold getBlockSubsidy domainConsensusBlockSubsidy lateSubsidy
  simp only [active, slow, half, reward, consensusHalving_late late,
    if_neg (show ¬height < 0 by omega), if_neg (show ¬height < 1 by omega),
    if_neg (show ¬height < 2 by omega), if_true]
  generalize (height - 707001).toNat / 1680000 = halvings
  -- The guard of 64 halvings cuts off what the shift already makes zero.
  split
  · rename_i many
    have large : 78125000 < 2 ^ halvings := by
      calc 78125000 < 2 ^ 61 := by decide
        _ ≤ 2 ^ halvings := Nat.pow_le_pow_right (by decide) (by omega)
    rw [Option.getD_some, Nat.div_eq_of_lt large]
    rfl
  · have exponent : ((halvings : Int) + 3).toNat = 3 + halvings := by omega
    have shifted : (625000000 : Nat) / 2 ^ (3 + halvings) = 78125000 / 2 ^ halvings := by
      rw [Nat.pow_add, ← Nat.div_div_eq_div_mul]
    rw [Option.getD_some, exponent, ← shifted, Int.natCast_ediv, Int.natCast_pow]
    rfl

theorem lateSubsidy_le (step : Nat) : lateSubsidy step ≤ 78125000 := Nat.div_le_self _ _

theorem lateSubsidy_antitone : Antitone lateSubsidy := by
  intro a b before
  exact Nat.div_le_div_left
    (Nat.pow_le_pow_right (by decide) (Nat.div_le_div_right before)) (Nat.two_pow_pos _)

theorem getBlockSubsidy_antitone
    : AntitoneOn (fun height => getBlockSubsidy height mainParams) (Set.Ici 1) := by
  intro a first b later before
  have firstLe : 1 ≤ a := first
  have laterLe : 1 ≤ b := later
  simp only
  by_cases early : b < 707000
  · rw [getBlockSubsidy_early laterLe early, getBlockSubsidy_early firstLe (by omega)]
  · rw [getBlockSubsidy_late (by omega : 707000 ≤ b)]
    by_cases previous : a < 707000
    · have small := lateSubsidy_le (b - 707001).toNat
      rw [getBlockSubsidy_early firstLe previous]
      omega
    · rw [getBlockSubsidy_late (by omega : 707000 ≤ a)]
      exact Int.ofNat_le.mpr (lateSubsidy_antitone (by omega))

-- The supply

/-- The subsidies of the first blocks, those before a height. -/
def supplyBefore (height : Nat) : Int := ∑ h ∈ range height, getBlockSubsidy h mainParams

theorem supplyBefore_early {height : Nat} (early : height ≤ 707000)
    : supplyBefore height ≤ 707000 * 1250000000 := by
  have each : ∀ h ∈ range height, getBlockSubsidy h mainParams ≤ 1250000000 := by
    intro h _
    exact (getBlockSubsidy_bounds h mainParams).2
  calc supplyBefore height ≤ ∑ _h ∈ range height, (1250000000 : Int) := sum_le_sum each
    _ = height * 1250000000 := by rw [sum_const, card_range, nsmul_eq_mul]
    _ ≤ 707000 * 1250000000 := by omega

theorem supplyBefore_late (steps : Nat)
    : supplyBefore (707001 + steps)
        = supplyBefore 707000 + 78125000 + (∑ step ∈ range steps, lateSubsidy step : Nat) := by
  have switch : getBlockSubsidy (707000 : Nat) mainParams = 78125000 := by
    rw [getBlockSubsidy_late (by decide)]
    rfl
  have later : ∀ step ∈ range steps,
      getBlockSubsidy (707001 + step : Nat) mainParams = lateSubsidy step := by
    intro step _
    have moved : (((707001 + step : Nat) : Int) - 707001).toNat = step := by omega
    rw [getBlockSubsidy_late (by omega), moved]
  unfold supplyBefore
  rw [sum_range_add, sum_congr rfl later, sum_range_succ, switch, Nat.cast_sum]

theorem supplyBefore_le (height : Nat) : supplyBefore height ≤ maxMoney.toInt := by
  have cap : maxMoney.toInt = 2100000000000000 := by decide
  rw [cap]
  by_cases early : height ≤ 707000
  · have bound := supplyBefore_early early
    omega
  · obtain ⟨steps, rfl⟩ : ∃ steps, height = 707001 + steps := ⟨height - 707001, by omega⟩
    have before := supplyBefore_early (le_refl 707000)
    have after : ∑ step ∈ range steps, lateSubsidy step ≤ 2 * 1680000 * 78125000 :=
      sum_halvings_le 78125000 steps (by decide)
    rw [supplyBefore_late]
    omega

/--
The supply cap of the main network: no height has paid out more than the maximal amount of money,
and the subsidy is never negative and never increases after the first block.
-/
theorem mainParams_supplyCap
    : (∀ height : Nat, ∑ h ∈ range (height + 1), getBlockSubsidy h mainParams ≤ maxMoney.toInt)
      ∧ (∀ height : Int, 0 ≤ getBlockSubsidy height mainParams)
      ∧ AntitoneOn (fun height => getBlockSubsidy height mainParams) (Set.Ici 1) :=
  ⟨fun height => supplyBefore_le (height + 1),
    fun height => (getBlockSubsidy_bounds height mainParams).1, getBlockSubsidy_antitone⟩

end Z23.Consensus
