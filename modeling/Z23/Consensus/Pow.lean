import Mathlib.Data.Int.ConditionallyCompleteOrder
import Mathlib.Data.List.Sort
import Z23.Consensus.Compact
import Z23.Consensus.Subsidy

/-!
The difficulty of the next block: the average target of a window of blocks, scaled by the time that
the window took, damped and clamped, and capped at the easiest target. The arithmetic is that of
256-bit integers, the quotient by the expected time is taken first, and the result goes through the
compact encoding.
-/

namespace Z23.Consensus

open ArithUint256
open Z23.Lib.LeadingBits

-- Parameters

/-- The fields of `struct consensus_params` that the difficulty depends on. `diffadjHeight` and
`buttercupHeight` are activation heights of `vUpgrades`. -/
structure PowParams where
  powLimit : Uint256
  nPowAllowMinDifficultyBlocksAfterHeight : Int
  nPowAllowMinDifficultyEnabled : Bool
  scaleDifficultyAtUpgradeFork : Bool
  nPowAveragingWindow : Int
  nPowMaxAdjustDown : Int
  nPowMaxAdjustUp : Int
  nPreButtercupPowTargetSpacing : Int
  nPostButtercupPowTargetSpacing : Int
  diffadjHeight : Int
  buttercupHeight : Int

/-- The main network's easiest target, 2^243 - 1, least significant byte first. -/
def mainPowLimit : Uint256 := ⟨List.replicate 30 0xff ++ [0x07, 0x00], rfl⟩

def mainPowParams : PowParams where
  powLimit := mainPowLimit
  nPowAllowMinDifficultyBlocksAfterHeight := -1
  nPowAllowMinDifficultyEnabled := false
  scaleDifficultyAtUpgradeFork := true
  nPowAveragingWindow := 17
  nPowMaxAdjustDown := 32
  nPowMaxAdjustUp := 16
  nPreButtercupPowTargetSpacing := 150
  nPostButtercupPowTargetSpacing := 75
  diffadjHeight := 585322
  buttercupHeight := 707000

def consensusPowTargetSpacing (params : PowParams) (nHeight : Int) : Int :=
  if consensusUpgradeState nHeight params.buttercupHeight == .active then
    params.nPostButtercupPowTargetSpacing
  else params.nPreButtercupPowTargetSpacing

def consensusAveragingWindowTimespan (params : PowParams) (nHeight : Int) : Int :=
  params.nPowAveragingWindow * consensusPowTargetSpacing params nHeight

def consensusMinActualTimespan (params : PowParams) (nHeight : Int) : Int :=
  (consensusAveragingWindowTimespan params nHeight * (100 - params.nPowMaxAdjustUp)).tdiv 100

def consensusMaxActualTimespan (params : PowParams) (nHeight : Int) : Int :=
  (consensusAveragingWindowTimespan params nHeight * (100 + params.nPowMaxAdjustDown)).tdiv 100

-- The code

/-- The fields of `struct block_index` that the difficulty depends on. A chain is the list of a
block and its predecessors. -/
structure PowIndex where
  nHeight : Int
  nTime : UInt32
  nBits : UInt32
deriving DecidableEq, Repr

def medianTimeSpan : Nat := 11

/-- The median of the times of a block and its predecessors. -/
def blockIndexGetMedianTimePast (chain : List PowIndex) : Int :=
  let pmedian := (chain.take medianTimeSpan).map fun index => (index.nTime.toNat : Int)
  (pmedian.insertionSort (· ≤ ·)).getD (pmedian.length / 2) 0

/-- Models `domain_consensus_increase_difficulty_by`; a zero multiplier leaves the bits. -/
def increaseDifficultyBy (nBits : UInt32) (multiplier : Nat) (params : PowParams) : Option UInt32 :=
  if multiplier = 0 then some nBits
  else
    let target := (arithUint256SetCompact nBits).target.div (setU64 multiplier)
    let powLimit := uint256ToArith params.powLimit
    let target := if target.compare powLimit > 0 then powLimit else target
    arithUint256GetCompact target false

/-- The time that the window took, drawn towards the expected time and kept within its bounds. -/
def dampedTimespan (params : PowParams) (nextHeight actual : Int) : Int :=
  let avgTimespan := consensusAveragingWindowTimespan params nextHeight
  let minTimespan := consensusMinActualTimespan params nextHeight
  let maxTimespan := consensusMaxActualTimespan params nextHeight
  let nActualTimespan := avgTimespan + (actual - avgTimespan).tdiv 4
  let nActualTimespan := if nActualTimespan < minTimespan then minTimespan else nActualTimespan
  if nActualTimespan > maxTimespan then maxTimespan else nActualTimespan

def calculateNextWorkRequired (bnAvg : ArithUint256) (lastBlockTime firstBlockTime : Int)
    (params : PowParams) (nextHeight : Int) : Option UInt32 :=
  let avgTimespan := consensusAveragingWindowTimespan params nextHeight
  let nActualTimespan := dampedTimespan params nextHeight (lastBlockTime - firstBlockTime)
  let bnPowLimit := uint256ToArith params.powLimit
  let bnNew := bnAvg.div (setU64 avgTimespan.toNat)
  let bnNew := bnNew.mul (setU64 nActualTimespan.toNat)
  let bnNew := if bnNew.compare bnPowLimit > 0 then bnPowLimit else bnNew
  arithUint256GetCompact bnNew false

def powInUpgradeDifficultyWindow (params : PowParams) (nHeight : Int) : Bool :=
  params.scaleDifficultyAtUpgradeFork
    && ((nHeight ≥ params.diffadjHeight
        && nHeight < params.diffadjHeight + params.nPowAveragingWindow)
      || (nHeight ≥ params.buttercupHeight
        && nHeight < params.buttercupHeight + params.nPowAveragingWindow))

/-- How many spacings after its predecessor the block is, if there is a block. -/
def laterThan (pindexLast : PowIndex) (blockTime : Option UInt32) (delay : Int) : Bool :=
  match blockTime with
  | none => false
  | some time => (time.toNat : Int) > pindexLast.nTime.toNat + delay

/-- The target of the ramp, when the block is late enough for it. -/
def powUpgradeForkRampWork (pindexLast : PowIndex) (blockTime : Option UInt32)
    (params : PowParams) (nHeight : Int) (nProofOfWorkLimit : UInt32) : Option (Option UInt32) :=
  let spacing := consensusPowTargetSpacing params nHeight
  if laterThan pindexLast blockTime (spacing * 12) then some (some nProofOfWorkLimit)
  else if laterThan pindexLast blockTime (spacing * 6) then
    some (increaseDifficultyBy nProofOfWorkLimit 128 params)
  else if laterThan pindexLast blockTime (spacing * 2) then
    some (increaseDifficultyBy nProofOfWorkLimit 256 params)
  else none

def powMinDifficultyBlocksAllowLimit (pindexLast : PowIndex) (blockTime : Option UInt32)
    (params : PowParams) : Bool :=
  params.nPowAllowMinDifficultyEnabled
    && pindexLast.nHeight ≥ params.nPowAllowMinDifficultyBlocksAfterHeight
    && laterThan pindexLast blockTime
      (consensusPowTargetSpacing params (pindexLast.nHeight + 1) * 6)

/-- The loop over the window: the sum so far, and the chain before the blocks that were added. -/
def sumTargets : Nat → ArithUint256 → List PowIndex → ArithUint256 × List PowIndex
  | 0, bnTot, chain => (bnTot, chain)
  | _ + 1, bnTot, [] => (bnTot, [])
  | turns + 1, bnTot, index :: chain =>
    sumTargets turns (bnTot.add (arithUint256SetCompact index.nBits).target) chain

/-- Models `GetNextWorkRequired`; a failed assertion of the encoding gives nothing. -/
def getNextWorkRequired (chain : List PowIndex) (blockTime : Option UInt32) (params : PowParams)
    : Option UInt32 := do
  let powLimit := uint256ToArith params.powLimit
  let nProofOfWorkLimit ← arithUint256GetCompact powLimit false
  match chain with
  | [] => some nProofOfWorkLimit
  | pindexLast :: _ =>
    let nHeight := pindexLast.nHeight + 1
    let ramp :=
      if powInUpgradeDifficultyWindow params nHeight then
        powUpgradeForkRampWork pindexLast blockTime params nHeight nProofOfWorkLimit
      else none
    match ramp with
    | some scaled => scaled
    | none =>
      if powMinDifficultyBlocksAllowLimit pindexLast blockTime params then
        some nProofOfWorkLimit
      else if params.nPowAveragingWindow ≤ 0 then some nProofOfWorkLimit
      else
        let (bnTot, pindexFirst) :=
          sumTargets params.nPowAveragingWindow.toNat setZero chain
        match pindexFirst with
        | [] => some nProofOfWorkLimit
        | _ :: _ =>
          let bnAvg := bnTot.div (setU64 params.nPowAveragingWindow.toNat)
          calculateNextWorkRequired bnAvg (blockIndexGetMedianTimePast chain)
            (blockIndexGetMedianTimePast pindexFirst) params nHeight

-- The main network

/-- The target that a compact word decodes to. -/
def targetOf (nBits : UInt32) : Nat := (arithUint256SetCompact nBits).target.toNat

/-- The easiest target of the main network. -/
def mainLimit : Nat := 2 ^ 243 - 1

theorem toNat_mainPowLimit : (uint256ToArith mainPowLimit).toNat = mainLimit := by decide +kernel

theorem main_timespans (nHeight : Int)
    : (consensusAveragingWindowTimespan mainPowParams nHeight = 2550
        ∧ consensusMinActualTimespan mainPowParams nHeight = 2142
        ∧ consensusMaxActualTimespan mainPowParams nHeight = 3366)
      ∨ (consensusAveragingWindowTimespan mainPowParams nHeight = 1275
        ∧ consensusMinActualTimespan mainPowParams nHeight = 1071
        ∧ consensusMaxActualTimespan mainPowParams nHeight = 1683) := by
  rw [consensusMinActualTimespan, consensusMaxActualTimespan, consensusAveragingWindowTimespan,
    consensusPowTargetSpacing]
  split
  · exact .inr ⟨rfl, rfl, rfl⟩
  · exact .inl ⟨rfl, rfl, rfl⟩

theorem dampedTimespan_eq (params : PowParams) (nHeight actual : Int)
    : dampedTimespan params nHeight actual
      = min (max (consensusAveragingWindowTimespan params nHeight
            + (actual - consensusAveragingWindowTimespan params nHeight).tdiv 4)
          (consensusMinActualTimespan params nHeight))
        (consensusMaxActualTimespan params nHeight) := by
  rw [dampedTimespan]
  split <;> split <;> omega

theorem dampedTimespan_bounds (nHeight actual : Int)
    : consensusMinActualTimespan mainPowParams nHeight
        ≤ dampedTimespan mainPowParams nHeight actual
      ∧ dampedTimespan mainPowParams nHeight actual
        ≤ consensusMaxActualTimespan mainPowParams nHeight := by
  have spans := main_timespans nHeight
  rw [dampedTimespan_eq]
  omega

theorem dampedTimespan_mono (params : PowParams) (nHeight : Int) {shorter longer : Int}
    (less : shorter ≤ longer)
    : dampedTimespan params nHeight shorter ≤ dampedTimespan params nHeight longer := by
  have drawn := Int.tdiv_le_tdiv (by decide : (0 : Int) < 4)
    (Int.sub_le_sub_right less (consensusAveragingWindowTimespan params nHeight))
  rw [dampedTimespan_eq, dampedTimespan_eq]
  apply min_le_min_right
  apply max_le_max_right
  exact Int.add_le_add_left drawn _

/-- What the compact encoding keeps of a target. -/
def compactRounded (target : Nat) : Nat := cleared lostBits target

theorem toNat_capped (target limit : ArithUint256)
    : (if target.compare limit > 0 then limit else target).toNat
      = min target.toNat limit.toNat := by
  have above := compare_pos_iff target limit
  split
  · rename_i capped
    exact (Nat.min_eq_right (Nat.le_of_lt (above.mp capped))).symm
  · rename_i below
    exact (Nat.min_eq_left (Nat.le_of_not_lt (mt above.mpr below))).symm

theorem targetOf_code (a : ArithUint256)
    : targetOf (UInt32.ofNat (compactCode a.toNat)) = compactRounded a.toNat := decoded_eq a

/-- The expected time of the window before a height, in seconds. -/
def expectedTimespan (nHeight : Int) : Nat :=
  (consensusAveragingWindowTimespan mainPowParams nHeight).toNat

def minTimespan (nHeight : Int) : Nat := (consensusMinActualTimespan mainPowParams nHeight).toNat

def maxTimespan (nHeight : Int) : Nat := (consensusMaxActualTimespan mainPowParams nHeight).toNat

/-- The time that the target is scaled by. -/
def clampedTimespan (nHeight actual : Int) : Nat :=
  (dampedTimespan mainPowParams nHeight actual).toNat

/-- The quotient of the average by the expected time, times the clamped time. -/
def scaledTarget (average : Nat) (nHeight actual : Int) : Nat :=
  average / expectedTimespan nHeight * clampedTimespan nHeight actual

theorem timespan_order (nHeight actual : Int)
    : 0 < minTimespan nHeight ∧ minTimespan nHeight ≤ clampedTimespan nHeight actual
      ∧ clampedTimespan nHeight actual ≤ maxTimespan nHeight
      ∧ minTimespan nHeight ≤ expectedTimespan nHeight
      ∧ maxTimespan nHeight ≤ 2 * expectedTimespan nHeight
      ∧ expectedTimespan nHeight ≤ 2550 := by
  have spans := main_timespans nHeight
  obtain ⟨above, below⟩ := dampedTimespan_bounds nHeight actual
  rw [minTimespan, clampedTimespan, maxTimespan, expectedTimespan]
  omega

theorem scaledTarget_le (average : Nat) (nHeight actual : Int)
    : scaledTarget average nHeight actual ≤ 2 * average := by
  obtain ⟨-, -, below, -, double, -⟩ := timespan_order nHeight actual
  have quotient := Nat.div_mul_le_self average (expectedTimespan nHeight)
  calc scaledTarget average nHeight actual
      ≤ average / expectedTimespan nHeight * (2 * expectedTimespan nHeight) :=
        Nat.mul_le_mul_left _ (Nat.le_trans below double)
    _ = 2 * (average / expectedTimespan nHeight * expectedTimespan nHeight) := by
        rw [Nat.mul_left_comm]
    _ ≤ 2 * average := Nat.mul_le_mul_left 2 quotient

theorem toNat_product {bnAvg : ArithUint256} (small : bnAvg.toNat ≤ mainLimit)
    (nHeight actual : Int)
    : ((bnAvg.div (setU64 (expectedTimespan nHeight))).mul
        (setU64 (clampedTimespan nHeight actual))).toNat
      = scaledTarget bnAvg.toNat nHeight actual := by
  obtain ⟨-, -, below, -, double, few⟩ := timespan_order nHeight actual
  have product := scaledTarget_le bnAvg.toNat nHeight actual
  rw [mainLimit] at small
  rw [toNat_mul, toNat_div, toNat_setU64 (by omega), toNat_setU64 (by omega)]
  exact Nat.mod_eq_of_lt (by rw [scaledTarget] at product; omega)

theorem calculateNextWorkRequired_eq {bnAvg : ArithUint256} (small : bnAvg.toNat ≤ mainLimit)
    (lastTime firstTime nHeight : Int)
    : ∃ compact, calculateNextWorkRequired bnAvg lastTime firstTime mainPowParams nHeight
          = some compact
        ∧ targetOf compact
          = compactRounded
              (min (scaledTarget bnAvg.toNat nHeight (lastTime - firstTime)) mainLimit) := by
  refine ⟨_, getCompact_eq _, ?_⟩
  rw [targetOf_code, toNat_capped]
  refine congrArg compactRounded ?_
  refine congrArg₂ min (toNat_product small nHeight (lastTime - firstTime)) toNat_mainPowLimit

-- The window

def windowLength : Nat := 17

/-- The sum of the targets of a window. -/
def windowTotal (chain : List PowIndex) : Nat :=
  ((chain.take windowLength).map fun index => targetOf index.nBits).sum

def windowAverage (chain : List PowIndex) : Nat := windowTotal chain / windowLength

theorem sumTargets_rest (turns : Nat) (total : ArithUint256) (chain : List PowIndex)
    : (sumTargets turns total chain).2 = chain.drop turns := by
  induction turns generalizing total chain with
  | zero => rfl
  | succ turns ih =>
    cases chain with
    | nil => rfl
    | cons index chain => exact ih _ chain

theorem sumTargets_total {turns : Nat} {total : ArithUint256} {chain : List PowIndex}
    (small : ∀ index ∈ chain, targetOf index.nBits ≤ mainLimit)
    (room : total.toNat + turns * mainLimit < 2 ^ 256)
    : (sumTargets turns total chain).1.toNat
      = total.toNat + ((chain.take turns).map fun index => targetOf index.nBits).sum := by
  induction turns generalizing total chain with
  | zero => rfl
  | succ turns ih =>
    cases chain with
    | nil => rfl
    | cons index chain =>
      have head := small index List.mem_cons_self
      have added : (total.add (arithUint256SetCompact index.nBits).target).toNat
          = total.toNat + targetOf index.nBits := by
        rw [toNat_add]
        refine Nat.mod_eq_of_lt ?_
        rw [targetOf] at head
        rw [Nat.succ_mul] at room
        omega
      have next := ih (List.forall_mem_cons.mp small).2
        (by rw [added, Nat.succ_mul] at *; omega :
          (total.add (arithUint256SetCompact index.nBits).target).toNat + turns * mainLimit
            < 2 ^ 256)
      rw [sumTargets, next, added, List.take_succ_cons, List.map_cons, List.sum_cons, Nat.add_assoc]

section

variable {chain : List PowIndex} (small : ∀ index ∈ chain, targetOf index.nBits ≤ mainLimit)
include small

theorem windowTotal_le : windowTotal chain ≤ windowLength * mainLimit := by
  have each : ∀ target ∈ (chain.take windowLength).map fun index => targetOf index.nBits,
      target ≤ mainLimit := by
    intro target member
    obtain ⟨index, inside, rfl⟩ := List.mem_map.mp member
    exact small index (List.mem_of_mem_take inside)
  have bound := List.sum_le_card_nsmul _ _ each
  rw [List.length_map] at bound
  exact Nat.le_trans bound (Nat.mul_le_mul_right _ (List.length_take_le _ _))

theorem windowAverage_le : windowAverage chain ≤ mainLimit := by
  rw [windowAverage]
  exact Nat.div_le_of_le_mul (windowTotal_le small)

theorem toNat_average : (sumTargets windowLength setZero chain).1.toNat = windowTotal chain
      ∧ ((sumTargets windowLength setZero chain).1.div (setU64 windowLength)).toNat
        = windowAverage chain := by
  have total := @sumTargets_total windowLength setZero chain small (by
    rw [toNat_setZero, mainLimit, windowLength]
    decide)
  rw [toNat_setZero, Nat.zero_add] at total
  refine ⟨total, ?_⟩
  rw [toNat_div, total, toNat_setU64 (by decide)]
  rfl

end

-- The next target

/-- The block is not late enough for the ramp after an upgrade, or there is none at its height. -/
def OutsideRamp (chain : List PowIndex) (blockTime : Option UInt32) : Prop :=
  ∀ last rest, chain = last :: rest →
    powInUpgradeDifficultyWindow mainPowParams (last.nHeight + 1) = false
    ∨ laterThan last blockTime
      (consensusPowTargetSpacing mainPowParams (last.nHeight + 1) * 2) = false

theorem laterThan_mono {last : PowIndex} {blockTime : Option UInt32} {delay longer : Int}
    (less : delay ≤ longer) (punctual : laterThan last blockTime delay = false)
    : laterThan last blockTime longer = false := by
  cases blockTime with
  | none => rfl
  | some time =>
    rw [laterThan, decide_eq_false_iff_not] at punctual ⊢
    omega

theorem powUpgradeForkRampWork_none {last : PowIndex} {blockTime : Option UInt32}
    (limit : UInt32) {nHeight : Int} (punctual : laterThan last blockTime
      (consensusPowTargetSpacing mainPowParams nHeight * 2) = false)
    : powUpgradeForkRampWork last blockTime mainPowParams nHeight limit = none := by
  have spacing : 0 ≤ consensusPowTargetSpacing mainPowParams nHeight := by
    rw [consensusPowTargetSpacing]
    split
    · decide
    · decide
  have six := laterThan_mono
    (by omega : _ ≤ consensusPowTargetSpacing mainPowParams nHeight * 6) punctual
  have twelve := laterThan_mono
    (by omega : _ ≤ consensusPowTargetSpacing mainPowParams nHeight * 12) punctual
  rw [powUpgradeForkRampWork]
  simp only [punctual, six, twelve, Bool.false_eq_true, if_false]

/-- The time from the median before the window to the median of the tip. -/
def measuredTimespan (chain : List PowIndex) : Int :=
  blockIndexGetMedianTimePast chain - blockIndexGetMedianTimePast (chain.drop windowLength)

/-- The height of the next block. -/
def nextHeight (chain : List PowIndex) : Int :=
  match chain with
  | [] => 0
  | last :: _ => last.nHeight + 1

theorem getNextWorkRequired_outside {last : PowIndex} {rest : List PowIndex}
    {blockTime : Option UInt32} (outside : OutsideRamp (last :: rest) blockTime)
    : getNextWorkRequired (last :: rest) blockTime mainPowParams
      = if rest.length < windowLength then
          arithUint256GetCompact (uint256ToArith mainPowLimit) false
        else
          calculateNextWorkRequired
            ((sumTargets windowLength setZero (last :: rest)).1.div (setU64 windowLength))
            (blockIndexGetMedianTimePast (last :: rest))
            (blockIndexGetMedianTimePast ((last :: rest).drop windowLength)) mainPowParams
            (last.nHeight + 1) := by
  have limit : arithUint256GetCompact (uint256ToArith mainPowParams.powLimit) false
      = some (UInt32.ofNat (compactCode (uint256ToArith mainPowLimit).toNat)) := getCompact_eq _
  have ramp : (if powInUpgradeDifficultyWindow mainPowParams (last.nHeight + 1) then
      powUpgradeForkRampWork last blockTime mainPowParams (last.nHeight + 1)
        (UInt32.ofNat (compactCode (uint256ToArith mainPowLimit).toNat))
      else none) = none := by
    rcases outside last rest rfl with none | punctual
    · rw [none]
      rfl
    · rw [powUpgradeForkRampWork_none _ punctual]
      exact ite_self none
  have first := sumTargets_rest windowLength setZero (last :: rest)
  rw [getNextWorkRequired, limit]
  simp only [Option.bind_eq_bind, Option.bind_some]
  rw [ramp]
  have allow : powMinDifficultyBlocksAllowLimit last blockTime mainPowParams = false := rfl
  have positive : ¬ mainPowParams.nPowAveragingWindow ≤ 0 := by decide
  have window : mainPowParams.nPowAveragingWindow.toNat = windowLength := rfl
  simp only [allow, Bool.false_eq_true, if_false, if_neg positive, window, first]
  split
  · rename_i ended
    have short : rest.length < windowLength := List.drop_eq_nil_iff.mp ended
    rw [if_pos short]
    exact limit.symm
  · rename_i begun
    have long : ¬ rest.length < windowLength := by
      intro short
      rw [List.drop_eq_nil_of_le short] at begun
      cases begun
    rw [if_neg long]

theorem mainLimit_target {compact : UInt32}
    (limit : arithUint256GetCompact (uint256ToArith mainPowLimit) false = some compact)
    : targetOf compact = compactRounded mainLimit := by
  rw [getCompact_eq] at limit
  rw [← Option.some.inj limit, targetOf_code, toNat_mainPowLimit]

/-- The next target of a chain: the easiest one as long as the chain does not reach beyond the
window, and otherwise the scaled average of the window. -/
def nextTarget (chain : List PowIndex) : Nat :=
  if chain.length ≤ windowLength then mainLimit
  else min (scaledTarget (windowAverage chain) (nextHeight chain) (measuredTimespan chain)) mainLimit

theorem getNextWorkRequired_target {chain : List PowIndex} {blockTime : Option UInt32}
    (small : ∀ index ∈ chain, targetOf index.nBits ≤ mainLimit)
    (outside : OutsideRamp chain blockTime)
    : ∃ compact, getNextWorkRequired chain blockTime mainPowParams = some compact
        ∧ targetOf compact = compactRounded (nextTarget chain) := by
  have limit := getCompact_eq (uint256ToArith mainPowLimit)
  cases chain with
  | nil => exact ⟨_, limit, mainLimit_target limit⟩
  | cons last rest =>
    rw [getNextWorkRequired_outside outside, nextTarget]
    by_cases short : rest.length < windowLength
    · rw [if_pos short, if_pos (show (last :: rest).length ≤ windowLength from short)]
      exact ⟨_, limit, mainLimit_target limit⟩
    · rw [if_neg short, if_neg (show ¬ (last :: rest).length ≤ windowLength from short)]
      obtain ⟨-, average⟩ := toNat_average small
      obtain ⟨compact, done, target⟩ := @calculateNextWorkRequired_eq
        ((sumTargets windowLength setZero (last :: rest)).1.div (setU64 windowLength))
        (average ▸ windowAverage_le small) (blockIndexGetMedianTimePast (last :: rest))
        (blockIndexGetMedianTimePast ((last :: rest).drop windowLength)) (last.nHeight + 1)
      rw [average] at target
      exact ⟨compact, done, target⟩

-- Retargeting stays in bounds

theorem compactRounded_pos (target : Nat) : 0 < compactRounded target ↔ 0 < target := by
  rw [← Nat.size_pos, compactRounded, size_cleared lostBits_keeps, Nat.size_pos]

theorem scaledTarget_pos (average : Nat) (nHeight actual : Int)
    : 0 < min (scaledTarget average nHeight actual) mainLimit
      ↔ expectedTimespan nHeight ≤ average := by
  obtain ⟨positive, above, -, order, -, -⟩ := timespan_order nHeight actual
  have limit : 0 < mainLimit := by decide
  have clamped : 0 < clampedTimespan nHeight actual := Nat.lt_of_lt_of_le positive above
  rw [lt_min_iff, and_iff_left limit, scaledTarget]
  constructor
  · intro product
    exact (Nat.div_pos_iff.mp (Nat.pos_of_mul_pos_right product)).2
  · intro large
    exact Nat.mul_pos (Nat.div_pos large (Nat.lt_of_lt_of_le positive order)) clamped

/-- The product that the code computes in 256 bits. -/
def windowProduct (chain : List PowIndex) : ArithUint256 :=
  (((sumTargets windowLength setZero chain).1.div (setU64 windowLength)).div
      (setU64 (expectedTimespan (nextHeight chain)))).mul
    (setU64 (clampedTimespan (nextHeight chain) (measuredTimespan chain)))

/-- What the next target of a chain is: never above the limit, exact in 256 bits, and between the
average scaled by the two bounds of the time where the window is full. -/
structure Retargeted (chain : List PowIndex) (compact : UInt32) : Prop where
  limited : targetOf compact ≤ mainLimit
  total : (sumTargets windowLength setZero chain).1.toNat = windowTotal chain
  product
    : (windowProduct chain).toNat
        = scaledTarget (windowAverage chain) (nextHeight chain) (measuredTimespan chain)
  short
    : chain.length ≤ windowLength →
        targetOf compact = compactRounded mainLimit ∧ 0 < targetOf compact
  positive
    : windowLength < chain.length →
        (0 < targetOf compact ↔ expectedTimespan (nextHeight chain) ≤ windowAverage chain)
  lower
    : windowLength < chain.length →
        compactRounded
            (windowAverage chain / expectedTimespan (nextHeight chain)
              * minTimespan (nextHeight chain))
          ≤ targetOf compact
  upper
    : windowLength < chain.length →
        targetOf compact
          ≤ windowAverage chain / expectedTimespan (nextHeight chain)
              * maxTimespan (nextHeight chain)

theorem retargeted_of_target {chain : List PowIndex} {compact : UInt32}
    (small : ∀ index ∈ chain, targetOf index.nBits ≤ mainLimit)
    (target : targetOf compact = compactRounded (nextTarget chain)) : Retargeted chain compact := by
  obtain ⟨total, average⟩ := toNat_average small
  obtain ⟨positive, above, below, order, -, -⟩ :=
    timespan_order (nextHeight chain) (measuredTimespan chain)
  have averageSmall := windowAverage_le small
  have long : windowLength < chain.length → nextTarget chain
      = min (scaledTarget (windowAverage chain) (nextHeight chain) (measuredTimespan chain))
          mainLimit := fun reaches => if_neg (Nat.not_le.mpr reaches)
  refine {
    limited := ?_
    total := total
    product := ?_
    short := ?_
    positive := ?_
    lower := ?_
    upper := ?_ }
  · rw [target]
    refine Nat.le_trans (cleared_le _ _) ?_
    rw [nextTarget]
    split
    · exact Nat.le_refl _
    · exact Nat.min_le_right _ _
  · rw [windowProduct, toNat_product (average ▸ averageSmall), average]
  · intro short
    rw [target, nextTarget, if_pos short]
    exact ⟨rfl, (compactRounded_pos _).mpr (by decide)⟩
  · intro reaches
    rw [target, compactRounded_pos, long reaches]
    exact scaledTarget_pos _ _ _
  · intro reaches
    rw [target, long reaches]
    refine cleared_mono lostBits_keeps (le_min ?_ ?_)
    · exact Nat.mul_le_mul_left _ above
    · exact Nat.le_trans (Nat.mul_le_mul_left _ order)
        (Nat.le_trans (Nat.div_mul_le_self _ _) averageSmall)
  · intro reaches
    rw [target, long reaches]
    exact Nat.le_trans (cleared_le _ _)
      (Nat.le_trans (Nat.min_le_left _ _) (Nat.mul_le_mul_left _ below))

theorem nextTarget_mono {chain other : List PowIndex}
    (bits : chain.map PowIndex.nBits = other.map PowIndex.nBits)
    (height : nextHeight chain = nextHeight other)
    (longer : measuredTimespan chain ≤ measuredTimespan other)
    : nextTarget chain ≤ nextTarget other := by
  have length : chain.length = other.length := by
    have same := congrArg List.length bits
    rwa [List.length_map, List.length_map] at same
  have average : windowAverage chain = windowAverage other := by
    have targets : ∀ list : List PowIndex,
        (list.take windowLength).map (fun index => targetOf index.nBits)
          = ((list.map PowIndex.nBits).take windowLength).map targetOf := by
      intro list
      rw [← List.map_take, List.map_map]
      rfl
    rw [windowAverage, windowAverage, windowTotal, windowTotal, targets, targets, bits]
  have times : clampedTimespan (nextHeight other) (measuredTimespan chain)
      ≤ clampedTimespan (nextHeight other) (measuredTimespan other) :=
    Int.toNat_le_toNat (dampedTimespan_mono mainPowParams _ longer)
  rw [nextTarget, nextTarget, length, average, height]
  split
  · exact Nat.le_refl _
  · exact min_le_min_right _ (Nat.mul_le_mul_left _ times)

/-- Outside the ramp the next target stays in bounds, is exact in 256 bits and does not fall when the
measured time grows. -/
theorem getNextWorkRequired_bounds
    : (∀ chain blockTime, (∀ index ∈ chain, targetOf index.nBits ≤ mainLimit) →
        OutsideRamp chain blockTime →
        ∃ compact, getNextWorkRequired chain blockTime mainPowParams = some compact
          ∧ Retargeted chain compact)
      ∧ (∀ chain other blockTime otherTime first second,
          (∀ index ∈ chain, targetOf index.nBits ≤ mainLimit) →
          chain.map PowIndex.nBits = other.map PowIndex.nBits →
          nextHeight chain = nextHeight other →
          OutsideRamp chain blockTime → OutsideRamp other otherTime →
          getNextWorkRequired chain blockTime mainPowParams = some first →
          getNextWorkRequired other otherTime mainPowParams = some second →
          measuredTimespan chain ≤ measuredTimespan other → targetOf first ≤ targetOf second) := by
  constructor
  · intro chain blockTime small outside
    obtain ⟨compact, done, target⟩ := getNextWorkRequired_target small outside
    exact ⟨compact, done, retargeted_of_target small target⟩
  · intro chain other blockTime otherTime first second small bits height outside otherOutside done
      otherDone longer
    have otherSmall : ∀ index ∈ other, targetOf index.nBits ≤ mainLimit := by
      intro index member
      have inside : index.nBits ∈ chain.map PowIndex.nBits := bits ▸ List.mem_map_of_mem member
      obtain ⟨same, found, equal⟩ := List.mem_map.mp inside
      rw [← equal]
      exact small same found
    obtain ⟨compact, ran, target⟩ := getNextWorkRequired_target small outside
    obtain ⟨otherCompact, otherRan, otherTarget⟩ :=
      getNextWorkRequired_target otherSmall otherOutside
    rw [done] at ran
    rw [otherDone] at otherRan
    rw [Option.some.inj ran, Option.some.inj otherRan, target, otherTarget]
    exact cleared_mono lostBits_keeps (nextTarget_mono bits height longer)

/-- Eighteen blocks at the regular spacing, all with the same bits. -/
def regularChain (nBits : UInt32) : List PowIndex :=
  (List.range 18).map fun i : Nat => ⟨100000 - i, 1500000000 - 150 * UInt32.ofNat i, nBits⟩

theorem regularChain_outside (nBits : UInt32) : OutsideRamp (regularChain nBits) none :=
  fun _ _ _ => .inr rfl

theorem getNextWorkRequired_bounds_regular
    : (∀ index ∈ regularChain 0x1f07ffff, targetOf index.nBits ≤ mainLimit)
      ∧ OutsideRamp (regularChain 0x1f07ffff) none
      ∧ ∃ compact, getNextWorkRequired (regularChain 0x1f07ffff) none mainPowParams = some compact
          ∧ 0 < targetOf compact ∧ targetOf compact ≤ mainLimit := by
  have small : ∀ index ∈ regularChain 0x1f07ffff, targetOf index.nBits ≤ mainLimit := by
    decide +kernel
  obtain ⟨compact, done, bounds⟩ := getNextWorkRequired_bounds.1 _ none small
    (regularChain_outside _)
  have average : expectedTimespan (nextHeight (regularChain 0x1f07ffff))
      ≤ windowAverage (regularChain 0x1f07ffff) := by decide +kernel
  exact ⟨small, regularChain_outside _, compact, done,
    (bounds.positive (by decide)).mpr average, bounds.limited⟩

/-- Targets of one average to less than the expected time, and the quotient is nothing. -/
theorem getNextWorkRequired_vanishes
    : (∀ index ∈ regularChain 0x01010000, 0 < targetOf index.nBits
        ∧ targetOf index.nBits ≤ mainLimit)
      ∧ OutsideRamp (regularChain 0x01010000) none
      ∧ getNextWorkRequired (regularChain 0x01010000) none mainPowParams = some 0
      ∧ targetOf 0 = 0 := by
  refine ⟨?_, regularChain_outside _, ?_, ?_⟩
  · decide +kernel
  · decide +kernel
  · decide +kernel

end Z23.Consensus
