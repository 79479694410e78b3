import Z23.Primitives

/-!
Consensus parameters and the block subsidy: slow start, halvings and the Buttercup change of
block spacing.
-/

namespace Z23.Consensus

/-- The sentinel `NETWORK_UPGRADE_NO_ACTIVATION`. -/
def networkUpgradeNoActivation : Int := -1

/--
The fields of `struct consensus_params` that the modelled rules read. `buttercupHeight`
is `vUpgrades[UPGRADE_BUTTERCUP].nActivationHeight`.
-/
structure ConsensusParams where
  hashGenesisBlock : Uint256
  fCoinbaseMustBeProtected : Bool
  nSubsidySlowStartInterval : Int
  nPreButtercupSubsidyHalvingInterval : Int
  nPostButtercupSubsidyHalvingInterval : Int
  buttercupHeight : Int
deriving DecidableEq, Repr

def buttercupPowTargetSpacingRatio : Int := 150 / 75

inductive UpgradeState where
  | disabled
  | pending
  | active
deriving DecidableEq, Repr

def consensusUpgradeState (nHeight activation : Int) : UpgradeState :=
  if activation = networkUpgradeNoActivation then .disabled
  else if nHeight ≥ activation then .active
  else .pending

def buttercupActive (params : ConsensusParams) (nHeight : Int) : Bool :=
  consensusUpgradeState nHeight params.buttercupHeight == .active

/-- C division of `int` values truncates towards zero. -/
def consensusSubsidySlowStartShift (params : ConsensusParams) : Int :=
  params.nSubsidySlowStartInterval.tdiv 2

def consensusHalving (params : ConsensusParams) (nHeight : Int) : Int :=
  let shift := consensusSubsidySlowStartShift params
  if buttercupActive params nHeight then
    (nHeight - shift - params.buttercupHeight).tdiv
      params.nPostButtercupSubsidyHalvingInterval + 3
  else
    (nHeight - shift).tdiv params.nPreButtercupSubsidyHalvingInterval

/-- The full reward, `12.5 * COIN`. -/
def fullSubsidy : Int := 1250000000

/--
Models `domain_consensus_block_subsidy`; a negative height is its only reachable error.
-/
def domainConsensusBlockSubsidy (nHeight : Int) (params : ConsensusParams) : Option Int :=
  let interval := params.nSubsidySlowStartInterval
  if nHeight < 0 then none
  else if nHeight < interval.tdiv 2 then some (fullSubsidy.tdiv interval * nHeight)
  else if nHeight < interval then some (fullSubsidy.tdiv interval * (nHeight + 1))
  else
    let halvings := consensusHalving params nHeight
    if halvings ≥ 64 then some 0
    else if buttercupActive params nHeight then
      some (fullSubsidy.tdiv buttercupPowTargetSpacingRatio / 2 ^ halvings.toNat)
    else some (fullSubsidy / 2 ^ halvings.toNat)

/--
Models `get_block_subsidy`: the legacy wrapper pays nothing where the domain function
fails.
-/
def getBlockSubsidy (nHeight : Int) (params : ConsensusParams) : Int :=
  (domainConsensusBlockSubsidy nHeight params).getD 0

private theorem fullSubsidy_nonneg : 0 ≤ fullSubsidy := by decide

private theorem slowStart_bounds {interval blocks : Int} (low : 0 ≤ blocks)
    (high : blocks ≤ interval)
    : 0 ≤ fullSubsidy.tdiv interval * blocks
        ∧ fullSubsidy.tdiv interval * blocks ≤ fullSubsidy := by
  have intervalNonneg : 0 ≤ interval := le_trans low high
  have ratioNonneg : 0 ≤ fullSubsidy.tdiv interval :=
    Int.tdiv_nonneg fullSubsidy_nonneg intervalNonneg
  refine ⟨mul_nonneg ratioNonneg low, ?_⟩
  calc fullSubsidy.tdiv interval * blocks
      ≤ fullSubsidy.tdiv interval * interval := mul_le_mul_of_nonneg_left high ratioNonneg
    _ ≤ fullSubsidy := by
        rw [Int.tdiv_eq_ediv_of_nonneg fullSubsidy_nonneg]
        rcases intervalNonneg.eq_or_lt with zero | positive
        · rw [← zero, mul_zero]
          exact fullSubsidy_nonneg
        · exact Int.ediv_mul_le _ positive.ne'

private theorem halved_bounds {amount : Int} (halvings : Nat) (nonneg : 0 ≤ amount)
    : 0 ≤ amount / 2 ^ halvings ∧ amount / 2 ^ halvings ≤ amount :=
  ⟨Int.ediv_nonneg nonneg (by positivity), Int.ediv_le_self _ nonneg⟩

/--
Every subsidy is an amount between zero and 12.5 coins, so the additions and comparisons made
with it are exact in 64 bits.
-/
theorem getBlockSubsidy_bounds (nHeight : Int) (params : ConsensusParams)
    : 0 ≤ getBlockSubsidy nHeight params ∧ getBlockSubsidy nHeight params ≤ fullSubsidy := by
  have zeroBounds : (0 : Int) ≤ 0 ∧ (0 : Int) ≤ fullSubsidy := ⟨le_refl _, by decide⟩
  unfold getBlockSubsidy domainConsensusBlockSubsidy
  by_cases negative : nHeight < 0
  · simpa only [negative, if_true, Option.getD_none] using zeroBounds
  · by_cases firstHalf : nHeight < params.nSubsidySlowStartInterval.tdiv 2
    · have halfBelow : params.nSubsidySlowStartInterval.tdiv 2
          ≤ max 0 params.nSubsidySlowStartInterval := by
        rcases Int.le_total 0 params.nSubsidySlowStartInterval with nonneg | nonpos
        · rw [Int.tdiv_eq_ediv_of_nonneg nonneg]
          omega
        · have opposite : 0 ≤ (-params.nSubsidySlowStartInterval).tdiv 2 :=
            Int.tdiv_nonneg (by omega) (by decide)
          rw [Int.neg_tdiv] at opposite
          omega
      have below : nHeight ≤ params.nSubsidySlowStartInterval := by omega
      simpa only [negative, firstHalf, if_true, if_false, Option.getD_some] using
        slowStart_bounds (Int.not_lt.mp negative) below
    · by_cases secondHalf : nHeight < params.nSubsidySlowStartInterval
      · simpa only [negative, firstHalf, secondHalf, if_true, if_false, Option.getD_some] using
          slowStart_bounds (Int.add_nonneg (Int.not_lt.mp negative) (by decide)) secondHalf
      · simp only [negative, firstHalf, secondHalf, if_false]
        split
        · exact zeroBounds
        · split
          · have halfBounds : 0 ≤ fullSubsidy.tdiv buttercupPowTargetSpacingRatio
                ∧ fullSubsidy.tdiv buttercupPowTargetSpacingRatio ≤ fullSubsidy := by
              decide
            have halved := halved_bounds (consensusHalving params nHeight).toNat halfBounds.1
            exact ⟨halved.1, le_trans halved.2 halfBounds.2⟩
          · exact halved_bounds _ fullSubsidy_nonneg

end Z23.Consensus
