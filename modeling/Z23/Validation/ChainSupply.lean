import Z23.Consensus.SupplyCap
import Z23.Validation.ConnectBlockConservation

/-!
The money of a whole chain: blocks connected one after the other pay out no more than their
subsidies, and on the main network no more than the maximal amount of money.
-/

namespace Z23.Validation

open Z23.Consensus
open Z23.Lib.FoldM

/-- A block with its entry in the index and what the node knows when it connects it. -/
structure ChainBlock where
  env : ConnectEnv
  block : FullBlock
  pindex : BlockIndex

def connectChainBlock (view : ConnectView) (b : ChainBlock) : Except BlockReject ConnectView :=
  connectBlock b.env b.block b.pindex view false

/-- Connect blocks in order; the first that is rejected ends the run. -/
def connectChain (chain : List ChainBlock) (view : ConnectView) : Except BlockReject ConnectView :=
  chain.foldlM connectChainBlock view

def ChainBlock.height (b : ChainBlock) : Int := b.pindex.nHeight.toInt

def ChainBlock.subsidy (b : ChainBlock) : Int := getBlockSubsidy b.height b.env.params

/-- The heights count up from the block after the genesis block. -/
def FromGenesis (chain : List ChainBlock) : Prop :=
  chain.map ChainBlock.height = (List.range chain.length).map fun i => ((i + 1 : Nat) : Int)

def ChainBlock.isGenesis (b : ChainBlock) : Bool := Validation.isGenesis b.env b.block b.pindex

/-- What the blocks move into the shielded pools, less what they take out of them. -/
def chainPoolInflow (chain : List ChainBlock) : Int :=
  (chain.map fun b => netPoolInflow b.block.vtx).sum

variable {chain : List ChainBlock} {view view' : ConnectView}

theorem connectChainBlock_conserves {b : ChainBlock} (valid : ValidView view.coins)
    (later : b.isGenesis = false) (accepted : connectChainBlock view b = .ok view')
    : totalValue view'.coins + netPoolInflow b.block.vtx ≤ totalValue view.coins + b.subsidy := by
  obtain ⟨st, coinbase, rest, connected, same⟩ := connectBlock_ok accepted later
  rw [same]
  exact connected.conserved valid

theorem connectChain_conserves (valid : ValidView view.coins)
    (later : ∀ b ∈ chain, b.isGenesis = false) (accepted : connectChain chain view = .ok view')
    : totalValue view'.coins + chainPoolInflow chain
        ≤ totalValue view.coins + (chain.map ChainBlock.subsidy).sum := by
  rw [connectChain] at accepted
  induction chain generalizing view with
  | nil =>
    rw [foldlM_nil_ok] at accepted
    simp [accepted, chainPoolInflow]
  | cons b rest ih =>
    obtain ⟨middle, step, others⟩ := foldlM_cons_ok.mp accepted
    obtain ⟨laterBlock, laterRest⟩ := List.forall_mem_cons.mp later
    have paid := connectChainBlock_conserves valid laterBlock step
    have tail := ih (connectBlock_validView valid step laterBlock) laterRest others
    simp only [chainPoolInflow, List.map_cons, List.sum_cons] at tail ⊢
    omega

theorem sum_subsidy_le (params : ∀ b ∈ chain, b.env.params = mainParams)
    (heights : FromGenesis chain)
    : (chain.map ChainBlock.subsidy).sum ≤ maxMoney.toInt := by
  have byHeight : chain.map ChainBlock.subsidy
      = (List.range chain.length).map fun i => getBlockSubsidy ((i + 1 : Nat) : Int) mainParams := by
    have atMain : chain.map ChainBlock.subsidy
        = (chain.map ChainBlock.height).map fun h => getBlockSubsidy h mainParams := by
      rw [List.map_map]
      exact List.map_congr_left fun b member => by rw [ChainBlock.subsidy, params b member]; rfl
    rw [FromGenesis] at heights
    rw [atMain, heights, List.map_map]
    rfl
  have first := (getBlockSubsidy_bounds ((0 : Nat) : Int) mainParams).1
  have bound := supplyBefore_le (chain.length + 1)
  rw [supplyBefore, Finset.sum_range_succ'] at bound
  have sum : (chain.map ChainBlock.subsidy).sum
      = ∑ i ∈ Finset.range chain.length, getBlockSubsidy ((i + 1 : Nat) : Int) mainParams := by
    rw [byHeight]
    rfl
  omega

/--
However the blocks of a chain of the main network are filled, the outputs it leaves and the pools
hold no more than the maximal amount of money.
-/
theorem connectChain_supplyCap (params : ∀ b ∈ chain, b.env.params = mainParams)
    (heights : FromGenesis chain) (later : ∀ b ∈ chain, b.isGenesis = false) (hashBlock : Uint256)
    (accepted : connectChain chain ⟨∅, hashBlock⟩ = .ok view')
    : totalValue view'.coins + chainPoolInflow chain ≤ maxMoney.toInt := by
  have start : ValidView (⟨∅, hashBlock⟩ : ConnectView).coins := emptyView_valid
  have conserved := connectChain_conserves start later accepted
  have paid := sum_subsidy_le params heights
  have nothing : totalValue (⟨∅, hashBlock⟩ : ConnectView).coins = 0 := rfl
  omega

/-- The block of a height whose only transaction pays the subsidy out. -/
def sampleChainBlock (height : UInt8) : ChainBlock :=
  let payout := { samplePayout with
    vin := [{ prevout := ⟨.fill 0, 0xffffffff⟩, scriptSig := [0x50 + height, 0] }]
    hash := .fill height }
  let block := sampleFullBlock [payout]
  { env := { sampleEnv with params := mainParams }
    block := { block with
      hash := .fill (height + 9)
      header := { block.header with hashPrevBlock := .fill (height + 8) } }
    pindex := ⟨none, .ofNat height.toNat, some ⟨some 1000, some 0⟩⟩ }

theorem connectChain_supplyCap_two
    : ∃ view', connectChain [sampleChainBlock 1, sampleChainBlock 2] emptyView = .ok view'
        ∧ totalValue view'.coins + chainPoolInflow [sampleChainBlock 1, sampleChainBlock 2]
          ≤ maxMoney.toInt := by
  have connects : (connectChain [sampleChainBlock 1, sampleChainBlock 2] emptyView).toOption.isSome
      = true := by decide +kernel
  cases accepted : connectChain [sampleChainBlock 1, sampleChainBlock 2] emptyView with
  | error reason =>
    rw [accepted] at connects
    cases connects
  | ok view' =>
    refine ⟨view', rfl, connectChain_supplyCap ?_ ?_ ?_ (.fill 0) accepted⟩
    · simp [sampleChainBlock]
    · unfold FromGenesis
      decide
    · decide

end Z23.Validation
