import Z23.Chain.MmbSound
import Z23.Consensus.BlockProof

/-!
Sampled proofs of a header history. A challenge names the root of a belt and a seed, the seed names
the indices to sample, and a response carries a leaf with an inclusion proof for each of them. The
check compares the index and the height that a sample states with the sampled index, and the proof
with the root, but nothing compares the index with the path of the proof.
-/

namespace Z23.Net.FlyClient

open Z23.Chain.MountainBelt Z23.Lib.Mountains Z23.Consensus

-- Sampled indices

def fcNumSamples : Nat := 50

def fcMaxSamples : Nat := 64

section

-- The index that the digest of an input maps to, in floating point and before the clip.
variable (weigh : List UInt8 → Nat → Nat)

def fcWeightedIndex (input : List UInt8) (chainLength : Nat) : Nat :=
  let idx := weigh input chainLength
  if chainLength ≤ idx then chainLength - 1 else idx

def fcIndexTaken (indices : List Nat) (idx : Nat) : Bool := indices.any (· == idx)

def fcProbeLoop (idx : Nat) (indices : List Nat) (chainLength : Nat) : Nat → Nat → Nat
  | 0, _ => idx
  | steps + 1, probe =>
    if !fcIndexTaken indices probe then probe
    else
      fcProbeLoop idx indices chainLength steps (if chainLength ≤ probe + 1 then 0 else probe + 1)

def fcProbeFreeIndex (idx : Nat) (indices : List Nat) (chainLength : Nat) : Nat :=
  fcProbeLoop idx indices chainLength chainLength idx

/-- The counters left to try; the flag says that the last index is a duplicate. -/
def fcRetryLoop (hashInput : List UInt8) (indices : List Nat) (chainLength : Nat)
    : List UInt8 → Nat → Nat × Bool
  | [], idx => (idx, true)
  | r :: counters, _ =>
    let idx := fcWeightedIndex weigh (hashInput ++ [r]) chainLength
    if !fcIndexTaken indices idx then (idx, false)
    else fcRetryLoop hashInput indices chainLength counters idx

def fcRetryDuplicateIndex (hashInput : List UInt8) (idx : Nat) (indices : List Nat)
    (chainLength : Nat) : Nat :=
  let tried := fcRetryLoop weigh hashInput indices chainLength
    ((List.range 255).map fun r => UInt8.ofNat (r + 1)) idx
  if tried.2 then fcProbeFreeIndex tried.1 indices chainLength else tried.1

def fcGenerateIndices (seed : Uint256) (chainLength : Nat) : List Nat :=
  if chainLength = 0 then []
  else
    let count := min (min fcNumSamples chainLength) fcMaxSamples
    (List.range count).foldl (fun indices i =>
      let hashInput := seed.data ++ Lib.Bytes.bytesLE 4 i
      let idx := fcWeightedIndex weigh hashInput chainLength
      if fcIndexTaken indices idx && decide (count < chainLength) then
        indices ++ [fcRetryDuplicateIndex weigh hashInput idx indices chainLength]
      else indices ++ [idx]) []

end

-- Responses

structure FcChallenge (W : Type) where
  seed : Uint256
  chainLength : Nat
  mmbRoot : W

structure FcSample (W : Type) where
  leaf : MmbLeaf
  proof : MmbProof W

/-- The samples in use. -/
structure FcResponse (W : Type) where
  samples : List (FcSample W)

/-- The stated hash meets the stated target. -/
def fcCheckPow (blockHash : Uint256) (nBits : UInt32) : Bool :=
  let compact := arithUint256SetCompact nBits
  if compact.negative || compact.target.isZero || compact.overflow then false
  else decide ((ArithUint256.uint256ToArith blockHash).compare compact.target ≤ 0)

section

variable {W : Type} [DecidableEq W] (sha3 : MmbInput W → W)

def fcVerifySample (sample : FcSample W) (mmbRoot : W) : Bool :=
  if mmbHashLeaf sha3 sample.leaf ≠ sample.proof.leafHash then false
  else mmbVerify sha3 sample.proof mmbRoot

/-- The turn of the loop over the samples counts the sample. -/
def fcSampleValid (mmbRoot : W) (expected : Nat) (sample : FcSample W) : Bool :=
  if sample.proof.leafIndex ≠ expected then false
  else if sample.leaf.height ≠ UInt32.ofNat expected then false
  else if !fcVerifySample sha3 sample mmbRoot then false
  else fcCheckPow sample.leaf.blockHash sample.leaf.nBits

def fcVerifyResponse (weigh : List UInt8 → Nat → Nat) (resp : FcResponse W)
    (challenge : FcChallenge W) : Bool :=
  if resp.samples.length = 0 then false
  else
    let expectedIndices := fcGenerateIndices weigh challenge.seed challenge.chainLength
    if resp.samples.length ≠ expectedIndices.length then false
    else
      let validCount := (expectedIndices.zip resp.samples).countP fun (expected, sample) =>
        fcSampleValid sha3 challenge.mmbRoot expected sample
      validCount == resp.samples.length

end

variable {W : Type} [DecidableEq W] {sha3 : MmbInput W → W} {weigh : List UInt8 → Nat → Nat}

/-- What a counted sample states. -/
structure Valid (sha3 : MmbInput W → W) (mmbRoot : W) (expected : Nat) (sample : FcSample W)
    : Prop where
  index : sample.proof.leafIndex = expected
  height : sample.leaf.height = UInt32.ofNat expected
  hash : mmbHashLeaf sha3 sample.leaf = sample.proof.leafHash
  verified : mmbVerify sha3 sample.proof mmbRoot = true
  pow : fcCheckPow sample.leaf.blockHash sample.leaf.nBits = true

theorem sampleValid_iff {mmbRoot : W} {expected : Nat} {sample : FcSample W}
    : fcSampleValid sha3 mmbRoot expected sample = true ↔ Valid sha3 mmbRoot expected sample := by
  unfold fcSampleValid fcVerifySample
  constructor
  · intro valid
    split at valid
    · cases valid
    · rename_i index
      split at valid
      · cases valid
      · rename_i height
        split at valid
        · cases valid
        · rename_i hash
          split at valid
          · cases valid
          · rename_i proves
            rw [Bool.not_eq_true, Bool.not_eq_false'] at proves
            exact ⟨not_not.mp index, not_not.mp height, not_not.mp hash, proves, valid⟩
  · intro valid
    rw [if_neg (not_not.mpr valid.index), if_neg (not_not.mpr valid.height),
      if_neg (not_not.mpr valid.hash), valid.verified, valid.pow]
    rfl

theorem verifyResponse_iff {resp : FcResponse W} {challenge : FcChallenge W}
    : fcVerifyResponse sha3 weigh resp challenge = true
      ↔ resp.samples ≠ []
        ∧ List.Forall₂ (Valid sha3 challenge.mmbRoot)
          (fcGenerateIndices weigh challenge.seed challenge.chainLength) resp.samples := by
  unfold fcVerifyResponse
  simp only
  generalize fcGenerateIndices weigh challenge.seed challenge.chainLength = indices
  rw [List.forall₂_iff_zip]
  by_cases none : resp.samples = []
  · simp [none]
  · rw [if_neg (mt List.length_eq_zero_iff.mp none)]
    by_cases count : resp.samples.length = indices.length
    · have size : resp.samples.length = (indices.zip resp.samples).length := by
        rw [List.length_zip, count, Nat.min_self]
      have counts : (indices.zip resp.samples).countP
            (fun (expected, sample) => fcSampleValid sha3 challenge.mmbRoot expected sample)
            = resp.samples.length
          ↔ ∀ pair ∈ indices.zip resp.samples,
            fcSampleValid sha3 challenge.mmbRoot pair.1 pair.2 = true := by
        rw [size, List.countP_eq_length]
      rw [if_neg (not_not.mpr count), beq_iff_eq, counts]
      constructor
      · intro all
        refine ⟨none, count.symm, ?_⟩
        intro expected sample member
        exact sampleValid_iff.mp (all _ member)
      · rintro ⟨-, -, all⟩ ⟨expected, sample⟩ member
        exact sampleValid_iff.mpr (all member)
    · rw [if_pos count]
      constructor
      · intro accepted
        cases accepted
      · rintro ⟨-, same, -⟩
        exact absurd same.symm count

theorem forall₂_exists {α β : Type} {R : α → β → Prop} {as : List α} {bs : List β} {b : β}
    (all : List.Forall₂ R as bs) (member : b ∈ bs) : ∃ a ∈ as, R a b := by
  induction all with
  | nil => cases member
  | cons related rest ih =>
    rcases List.mem_cons.mp member with rfl | later
    · exact ⟨_, List.mem_cons_self, related⟩
    · obtain ⟨a, inside, found⟩ := ih later
      exact ⟨a, List.mem_cons_of_mem _ inside, found⟩

variable {chainLength : Nat} {seed : Uint256}

theorem exists_response {index : Nat} {mmbRoot : W} {sample : FcSample W}
    (member : index ∈ fcGenerateIndices weigh seed chainLength)
    (valid : Valid sha3 mmbRoot index sample)
    (others : ∀ other ∈ fcGenerateIndices weigh seed chainLength,
      ∃ sample, Valid sha3 mmbRoot other sample)
    : ∃ resp, fcVerifyResponse sha3 weigh resp ⟨seed, chainLength, mmbRoot⟩ = true
      ∧ sample ∈ resp.samples := by
  classical
  have chosen : ∀ other, ∃ sample', (other ∈ fcGenerateIndices weigh seed chainLength →
      Valid sha3 mmbRoot other sample') ∧ (other = index → sample' = sample) := by
    intro other
    by_cases same : other = index
    · exact ⟨sample, fun _ => same ▸ valid, fun _ => rfl⟩
    · by_cases listed : other ∈ fcGenerateIndices weigh seed chainLength
      · obtain ⟨sample', valid'⟩ := others other listed
        exact ⟨sample', fun _ => valid', fun equal => absurd equal same⟩
      · exact ⟨sample, fun inside => absurd inside listed, fun equal => absurd equal same⟩
  choose answer answers picks using chosen
  refine ⟨⟨(fcGenerateIndices weigh seed chainLength).map answer⟩, ?_, ?_⟩
  · rw [verifyResponse_iff]
    refine ⟨mt List.map_eq_nil_iff.mp (List.ne_nil_of_mem member), ?_⟩
    rw [List.forall₂_map_right_iff, List.forall₂_same]
    intro other listed
    exact answers other listed
  · exact List.mem_map.mpr ⟨index, member, picks index rfl⟩

-- What a response is bound to

/-- Every sample of an accepted response is the leaf at its index, and its height is the index. -/
def Bound (weigh : List UInt8 → Nat → Nat) (leaves : List MmbLeaf) (seed : Uint256)
    (chainLength : Nat) : Prop :=
  ∀ (W : Type) [DecidableEq W] (sha3 : MmbInput W → W) (zero : W), Function.Injective sha3 →
    ∀ (m : Mmb W) (resp : FcResponse W), mmbAppendAll sha3 (mmbInit zero) leaves = some m →
      fcVerifyResponse sha3 weigh resp ⟨seed, chainLength, (mmbRoot sha3 zero m).1⟩ = true →
        ∀ sample ∈ resp.samples, leaves[sample.proof.leafIndex]? = some sample.leaf
          ∧ sample.leaf.height.toNat = sample.proof.leafIndex

/-- The places that the 24 bits of a path reach. -/
def Reachable (n position : Nat) : Prop :=
  ∃ hs place h bits, beltHeights n = some hs ∧ hs[place]? = some h ∧ bits < 2 ^ 24
    ∧ position = mountainStart hs place + bits % 2 ^ h

/-- A leaf of the sequence that a valid sample for an index can present. -/
structure Presentable (leaves : List MmbLeaf) (index position : Nat) (leaf : MmbLeaf) : Prop where
  found : leaves[position]? = some leaf
  reachable : Reachable leaves.length position
  height : leaf.height = UInt32.ofNat index
  pow : fcCheckPow leaf.blockHash leaf.nBits = true

/--
For some index no leaf can be presented, or for every index the leaf at the index is the only one;
and there are leaves unless there are no indices.
-/
structure Placed (leaves : List MmbLeaf) (indices : List Nat) : Prop where
  nonempty : leaves ≠ [] ∨ indices = []
  only : (∃ index ∈ indices, ∀ position leaf, ¬ Presentable leaves index position leaf)
    ∨ ∀ index ∈ indices, ∀ position leaf, Presentable leaves index position leaf →
        leaves[index]? = some leaf ∧ index < 2 ^ 32

theorem unpackLrBits_lt (mmbSize : Nat) : unpackLrBits mmbSize < 2 ^ 24 :=
  Nat.lt_of_le_of_lt Nat.and_le_right (by decide)

theorem unpackLrBits_shift {bits : Nat} (small : bits < 2 ^ 24)
    : unpackLrBits (bits <<< 40) = bits := by
  have mask : bits &&& 0xFFFFFF = bits % 2 ^ 24 := Nat.and_two_pow_sub_one_eq_mod bits 24
  rw [unpackLrBits, Nat.shiftLeft_shiftRight, mask, Nat.mod_eq_of_lt small]

variable {leaves : List MmbLeaf}

theorem Valid.presentable (inj : Function.Injective sha3) {zero : W} {m : Mmb W} {index : Nat}
    {sample : FcSample W} (nonempty : leaves ≠ [])
    (appended : mmbAppendAll sha3 (mmbInit zero) leaves = some m)
    (valid : Valid sha3 (mmbRoot sha3 zero m).1 index sample)
    : ∃ position, Presentable leaves index position sample.leaf := by
  obtain ⟨place, mountain, found⟩ := verify_leaf inj nonempty appended valid.verified valid.hash
  exact ⟨_,
    { found := found
      reachable := ⟨_, _, _, _, heights_of_appended appended, mountain, unpackLrBits_lt _, rfl⟩
      height := valid.height
      pow := valid.pow }⟩

theorem Presentable.valid {zero : W} {m : Mmb W} {index position : Nat} {leaf : MmbLeaf}
    (presentable : Presentable leaves index position leaf)
    (appended : mmbAppendAll sha3 (mmbInit zero) leaves = some m)
    : ∃ proof, Valid sha3 (mmbRoot sha3 zero m).1 index ⟨leaf, proof⟩ := by
  obtain ⟨hs, place, h, bits, heights, mountain, small, rfl⟩ := presentable.reachable
  obtain rfl : hs = m.heights := Option.some.inj (heights.symm.trans (heights_of_appended appended))
  obtain ⟨siblings, verified⟩ := verify_of_leaf appended mountain presentable.found
  exact ⟨⟨index, mmbHashLeaf sha3 leaf, siblings, m.peaks, bits <<< 40⟩,
    { index := rfl
      height := presentable.height
      hash := rfl
      verified := verified index _ (unpackLrBits_shift small)
      pow := presentable.pow }⟩

theorem Placed.bound (placed : Placed leaves (fcGenerateIndices weigh seed chainLength))
    : Bound weigh leaves seed chainLength := by
  intro W _ sha3 zero inj m resp appended accepted sample member
  obtain ⟨sampled, all⟩ := verifyResponse_iff.mp accepted
  simp only at all
  generalize fcGenerateIndices weigh seed chainLength = indices at placed all
  have nonempty : leaves ≠ [] := by
    rcases placed.nonempty with nonempty | none
    · exact nonempty
    · rw [none, List.forall₂_nil_left_iff] at all
      exact absurd all sampled
  obtain ⟨index, listed, valid⟩ := forall₂_exists all member
  rcases placed.only with ⟨missing, expected, never⟩ | only
  · obtain ⟨answer, -, answers⟩ := forall₂_exists all.flip expected
    obtain ⟨position, presentable⟩ := answers.presentable inj nonempty appended
    exact absurd presentable (never position answer.leaf)
  · obtain ⟨position, presentable⟩ := valid.presentable inj nonempty appended
    obtain ⟨here, small⟩ := only index listed position sample.leaf presentable
    rw [valid.index]
    refine ⟨here, ?_⟩
    rw [valid.height, UInt32.toNat_ofNat_of_lt' small]

-- Unbound responses

/-- A leaf with a height whose hash meets its target. -/
def easyLeaf (height : UInt32) : MmbLeaf :=
  ⟨.fill 0, height, 0, 0x01010000, .fill 0, .fill 0, .fill 0⟩

theorem easyLeaf_pow (height : UInt32)
    : fcCheckPow (easyLeaf height).blockHash (easyLeaf height).nBits = true := by
  change fcCheckPow (.fill 0) 0x01010000 = true
  decide

/-- Leaves on a spine: each of them is a right child. -/
def spine (sha3 : MmbInput W → W) (zero : W) : List MmbLeaf → W
  | [] => zero
  | leaf :: rest => mmbHashInternal sha3 (spine sha3 zero rest) (mmbHashLeaf sha3 leaf)

omit [DecidableEq W] in
theorem climb_spine {zero : W} {leaves : List MmbLeaf} {leaf : MmbLeaf} (member : leaf ∈ leaves)
    : ∃ siblings, siblings ≠ []
      ∧ climb (mmbHashInternal sha3) 1 0 (mmbHashLeaf sha3 leaf) siblings
        = spine sha3 zero leaves := by
  induction leaves with
  | nil => cases member
  | cons first rest ih =>
    rcases List.mem_cons.mp member with rfl | later
    · exact ⟨[spine sha3 zero rest], List.cons_ne_nil _ _, rfl⟩
    · obtain ⟨siblings, path, climbs⟩ := ih later
      refine ⟨siblings ++ [mmbHashLeaf sha3 first], by simp, ?_⟩
      have left : (1 : Nat).testBit (0 + siblings.length) = false := by
        have positive := List.length_pos_of_ne_nil path
        rw [Nat.zero_add, show (1 : Nat) = 2 ^ 0 from rfl, Nat.testBit_two_pow_of_ne (by omega)]
      rw [climb_append, left, if_neg (by decide), climbs]
      rfl

/-- The root of no leaves is a constant, which nothing keeps from being the hash of a pair. -/
theorem Bound.nonempty (bound : Bound weigh leaves seed chainLength)
    : leaves ≠ [] ∨ fcGenerateIndices weigh seed chainLength = [] := by
  by_contra neither
  obtain ⟨none, indices⟩ := not_or.mp neither
  obtain rfl := not_not.mp none
  let leafOf : Nat → MmbLeaf := fun index => easyLeaf (UInt32.ofNat index)
  let root := spine Digest.hash .nil ((fcGenerateIndices weigh seed chainLength).map leafOf)
  have valid : ∀ index ∈ fcGenerateIndices weigh seed chainLength,
      ∃ sample, Valid Digest.hash root index sample := by
    intro index member
    obtain ⟨siblings, -, climbs⟩ :=
      @climb_spine Digest Digest.hash .nil _ _ (List.mem_map_of_mem (f := leafOf) member)
    refine ⟨⟨leafOf index, ⟨index, mmbHashLeaf Digest.hash (leafOf index), siblings, [root],
      1 <<< 40⟩⟩, rfl, rfl, rfl, ?_, easyLeaf_pow _⟩
    have bit : unpackLrBits (1 <<< 40) = 1 := unpackLrBits_shift (by decide)
    rw [verify_iff]
    simp only [bit]
    exact ⟨List.mem_singleton.mpr climbs, rfl⟩
  obtain ⟨index, member⟩ := List.exists_mem_of_ne_nil _ indices
  obtain ⟨sample, sampleValid⟩ := valid index member
  obtain ⟨resp, accepted, inside⟩ := exists_response member sampleValid valid
  obtain ⟨found, -⟩ := bound Digest Digest.hash root Digest.hash_injective (mmbInit root) resp rfl
    accepted sample inside
  cases found

theorem Bound.only {index position : Nat} {leaf : MmbLeaf}
    (bound : Bound weigh leaves seed chainLength)
    (every : ∀ other ∈ fcGenerateIndices weigh seed chainLength,
      ∃ position leaf, Presentable leaves other position leaf)
    (member : index ∈ fcGenerateIndices weigh seed chainLength)
    (presentable : Presentable leaves index position leaf)
    : leaves[index]? = some leaf ∧ index < 2 ^ 32 := by
  obtain ⟨hs, place, h, bits, heights, -⟩ := presentable.reachable
  obtain ⟨m, appended⟩ := @appendHashes_isSome Digest Digest.hash .zero
    (leaves.map (mmbHashLeaf Digest.hash)) ⟨hs, by rw [List.length_map]; exact heights⟩
  obtain ⟨proof, valid⟩ := presentable.valid appended
  have others : ∀ other ∈ fcGenerateIndices weigh seed chainLength,
      ∃ sample, Valid Digest.hash (mmbRoot Digest.hash .zero m).1 other sample := by
    intro other listed
    obtain ⟨position, leaf, presentable⟩ := every other listed
    obtain ⟨proof, valid⟩ := presentable.valid appended
    exact ⟨_, valid⟩
  obtain ⟨resp, accepted, inside⟩ := exists_response member valid others
  obtain ⟨found, height⟩ :=
    bound Digest Digest.hash .zero Digest.hash_injective m resp appended accepted _ inside
  have same : proof.leafIndex = index := valid.index
  rw [same] at found height
  exact ⟨found, height ▸ leaf.height.toNat_lt⟩

/--
Accepted responses are bound to the sequence exactly where no leaf can be presented for an index,
or only the leaf at the index can.
-/
theorem verifyResponse_bound_iff (weigh : List UInt8 → Nat → Nat) (leaves : List MmbLeaf)
    (seed : Uint256) (chainLength : Nat)
    : Bound weigh leaves seed chainLength
      ↔ Placed leaves (fcGenerateIndices weigh seed chainLength) := by
  constructor
  · intro bound
    refine ⟨bound.nonempty, ?_⟩
    by_cases every : ∀ other ∈ fcGenerateIndices weigh seed chainLength,
        ∃ position leaf, Presentable leaves other position leaf
    · exact .inr fun index member position leaf => bound.only every member
    · push Not at every
      exact .inl every
  · intro placed
    exact placed.bound

/--
Two leaves with each other's height: both indices are zero, and the leaf of height zero at the
second place passes for the first.
-/
theorem verifyResponse_unbound_two
    : Function.Injective Digest.hash ∧ ∃ m resp,
      mmbAppendAll Digest.hash (mmbInit .zero) [easyLeaf 1, easyLeaf 0] = some m
      ∧ fcVerifyResponse Digest.hash (fun _ _ => 0) resp
          ⟨.fill 0, 2, (mmbRoot Digest.hash .zero m).1⟩ = true
      ∧ ∃ sample ∈ resp.samples, sample.proof.leafIndex = 0 ∧ sample.leaf = easyLeaf 0
        ∧ [easyLeaf 1, easyLeaf 0][sample.proof.leafIndex]? ≠ some sample.leaf := by
  let first := mmbHashLeaf Digest.hash (easyLeaf 1)
  let second := mmbHashLeaf Digest.hash (easyLeaf 0)
  let top := mmbHashInternal Digest.hash first second
  let sample : FcSample Digest := ⟨easyLeaf 0, ⟨0, second, [first], [top], 2 ||| 1 <<< 40⟩⟩
  exact ⟨Digest.hash_injective, ⟨2, [⟨top, 1⟩], .zero, true⟩, ⟨[sample, sample]⟩, by decide,
    by decide, sample, List.mem_cons_self, rfl, rfl, by decide⟩

end Z23.Net.FlyClient
