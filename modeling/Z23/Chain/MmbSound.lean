import Z23.Chain.MmbProof

/-!
What an accepted inclusion proof shows. The verifier reads the path, not the index of the leaf, and
takes any node of the belt for a leaf; so a proof is bound to its index only where the length and
the bits of its path can address nothing else.
-/

namespace Z23.Chain.MountainBelt

open Z23.Lib.Mountains

variable {W : Type} {sha3 : MmbInput W → W}

-- Domains

theorem hashInternal_pairInjective (inj : Function.Injective sha3)
    : PairInjective (mmbHashInternal sha3) := by
  intro a b c d same
  have inputs := inj same
  cases inputs
  exact ⟨rfl, rfl⟩

theorem hashLeaf_ne_internal (inj : Function.Injective sha3) (leaf : MmbLeaf) (a b : W)
    : mmbHashLeaf sha3 leaf ≠ mmbHashInternal sha3 a b := by
  intro same
  have inputs := inj same
  cases inputs

theorem perfect_ne_root (inj : Function.Injective sha3) {h : Nat} {p : W} {block : List W}
    (perfect : Perfect (mmbHashInternal sha3) h block p)
    (inside : ∀ x ∈ block, ∃ leaf, x = mmbHashLeaf sha3 leaf) (peaks : List W)
    : p ≠ sha3 (.root peaks) := by
  intro same
  cases perfect with
  | leaf x =>
    obtain ⟨leaf, hash⟩ := inside _ (List.mem_singleton_self _)
    have inputs := inj (hash.symm.trans same)
    cases inputs
  | pair left right =>
    have inputs := inj same
    cases inputs

theorem climb_of_ne_nil {bits : Nat} {x : W} {siblings : List W} (nonempty : siblings ≠ [])
    : ∃ a b, climb (mmbHashInternal sha3) bits 0 x siblings = mmbHashInternal sha3 a b := by
  rw [← List.dropLast_concat_getLast nonempty, climb_append]
  split
  · exact ⟨_, _, rfl⟩
  · exact ⟨_, _, rfl⟩

/-- A path that is longer than its mountain is high would start below a leaf. -/
theorem climb_too_long (inj : PairInjective (mmbHashInternal sha3)) {h bits : Nat} {x : W}
    {block siblings : List W} (long : h < siblings.length)
    (perfect : Perfect (mmbHashInternal sha3) h block
      (climb (mmbHashInternal sha3) bits 0 x siblings))
    : ∃ a b, mmbHashInternal sha3 a b ∈ block := by
  induction h generalizing siblings block with
  | zero =>
    have nonempty : siblings ≠ [] := List.ne_nil_of_length_pos long
    obtain ⟨a, b, pair⟩ := @climb_of_ne_nil W sha3 bits x siblings nonempty
    rw [Perfect.zero_iff, pair] at perfect
    exact ⟨a, b, by rw [perfect]; exact List.mem_singleton_self _⟩
  | succ h ih =>
    have nonempty : siblings ≠ [] := List.ne_nil_of_length_pos (by omega)
    obtain ⟨lower, s, rfl⟩ : ∃ lower s, siblings = lower ++ [s] :=
      ⟨_, _, (List.dropLast_concat_getLast nonempty).symm⟩
    have shorter : h < lower.length := by simpa using long
    obtain ⟨left, right, a, b, rfl, same, below, above⟩ := Perfect.succ_iff.mp perfect
    rw [climb_append] at same
    split at same
    · obtain ⟨-, rfl⟩ := inj _ _ _ _ same
      obtain ⟨c, d, member⟩ := ih shorter above
      exact ⟨c, d, List.mem_append_right _ member⟩
    · obtain ⟨rfl, -⟩ := inj _ _ _ _ same
      obtain ⟨c, d, member⟩ := ih shorter below
      exact ⟨c, d, List.mem_append_left _ member⟩

-- What the verifier accepts

theorem verify_iff [DecidableEq W] (proof : MmbProof W) (root : W)
    : mmbVerify sha3 proof root = true
      ↔ climb (mmbHashInternal sha3) (unpackLrBits proof.mmbSize) 0 proof.leafHash proof.siblings
          ∈ proof.peaks ∧ bagPeaks sha3 proof.peaks = root := by
  unfold mmbVerify
  simp only
  generalize climb (mmbHashInternal sha3) (unpackLrBits proof.mmbSize) 0 proof.leafHash
    proof.siblings = current
  have found : proof.peaks.any (· == current) = true ↔ current ∈ proof.peaks := by
    rw [List.any_eq_true]
    simp only [beq_iff_eq, exists_eq_right]
  by_cases none : proof.peaks = []
  · simp [none]
  · rw [if_neg none, ← found]
    cases proof.peaks.any (· == current) with
    | false => simp
    | true => simp

theorem bagPeaks_inj (inj : Function.Injective sha3) {ps qs : List W}
    (plain : ∀ q ∈ qs, ∀ peaks, q ≠ sha3 (.root peaks)) (first : ps ≠ []) (second : qs ≠ [])
    (same : bagPeaks sha3 ps = bagPeaks sha3 qs)
    : ps = qs ∨ ∃ peaks, ps = [sha3 (.root peaks)] ∧ 2 ≤ qs.length := by
  match ps, qs, first, second with
  | [p], [q], _, _ => exact .inl (congrArg (fun peak => [peak]) same)
  | [p], q :: q' :: rest, _, _ =>
    exact .inr ⟨q :: q' :: rest, congrArg (fun peak => [peak]) same, by simp⟩
  | p :: p' :: rest, [q], _, _ => exact absurd same.symm (plain q (List.mem_singleton_self q) _)
  | p :: p' :: rest, q :: q' :: rest', _, _ =>
    have inputs := inj same
    injection inputs with lists
    exact .inl lists

/-- The first leaf of a mountain, from the place of the mountain from the right. -/
def mountainStart (hs : List Nat) (place : Nat) : Nat := ((hs.drop (place + 1)).map (2 ^ ·)).sum

/-- A mountain of a belt: its place, its block of leaf hashes and the leaves before it. -/
structure MountainAt (sha3 : MmbInput W → W) (hs : List Nat) (hashes : List W) (peak : W)
    (place h : Nat) (pre block post : List W) : Prop where
  height : hs[place]? = some h
  blocks : hashes = pre ++ block ++ post
  start : pre.length = mountainStart hs place
  perfect : Perfect (mmbHashInternal sha3) h block peak

theorem Covers.mountainAt {m : Mmb W} {hashes : List W} {peak : W}
    (covers : Covers sha3 m.mountains hashes) (member : peak ∈ m.peaks)
    : ∃ place h pre block post, MountainAt sha3 m.heights hashes peak place h pre block post := by
  rw [Mmb.peaks, List.mem_reverse, List.mem_iff_getElem?] at member
  obtain ⟨place, found⟩ := member
  obtain ⟨mountain, here, same⟩ : ∃ mountain, m.mountains[place]? = some mountain
      ∧ mountain.peak = peak := by
    rwa [List.getElem?_map, Option.map_eq_some_iff] at found
  have height : m.heights[place]? = some mountain.height := by
    rw [Mmb.heights, List.getElem?_map, here]
    rfl
  obtain ⟨p, pre, block, post, peakHere, blocks, perfect, start⟩ := Range.mem_split covers height
  obtain rfl : peak = p := Option.some.inj (found.symm.trans peakHere)
  exact ⟨place, mountain.height, pre, block, post, height, blocks, start, perfect⟩

variable {leaves : List MmbLeaf}

theorem MountainAt.high (inj : Function.Injective sha3) {hs : List Nat} {bits place h : Nat} {x : W}
    {siblings pre block post : List W}
    (mountain : MountainAt sha3 hs (leaves.map (mmbHashLeaf sha3))
      (climb (mmbHashInternal sha3) bits 0 x siblings) place h pre block post)
    : siblings.length ≤ h := by
  by_contra long
  obtain ⟨a, b, inside⟩ := climb_too_long (hashInternal_pairInjective inj)
    (Nat.lt_of_not_le long) mountain.perfect
  have hashed : mmbHashInternal sha3 a b ∈ leaves.map (mmbHashLeaf sha3) := by
    rw [mountain.blocks]
    simp [inside]
  obtain ⟨leaf, -, same⟩ := List.mem_map.mp hashed
  exact hashLeaf_ne_internal inj leaf a b same

variable {proof : MmbProof W}

/--
An accepted proof climbs to the peak of a mountain, or it has no path and presents the root itself,
which bags two peaks or more.
-/
theorem verify_climbs [DecidableEq W] (inj : Function.Injective sha3) {zero : W} {m : Mmb W}
    (nonempty : leaves ≠ []) (appended : mmbAppendAll sha3 (mmbInit zero) leaves = some m)
    (verified : mmbVerify sha3 proof (mmbRoot sha3 zero m).1 = true)
    : (∃ place h pre block post, MountainAt sha3 m.heights (leaves.map (mmbHashLeaf sha3))
          (climb (mmbHashInternal sha3) (unpackLrBits proof.mmbSize) 0 proof.leafHash
            proof.siblings) place h pre block post)
      ∨ (proof.siblings = [] ∧ 2 ≤ m.heights.length
        ∧ ∃ peaks, proof.leafHash = sha3 (.root peaks)) := by
  have built := appendHashes_built appended
  have standing : m.mountains ≠ [] := by
    intro none
    have total := built.covers.sum
    rw [none, List.length_map] at total
    exact nonempty (List.length_eq_zero_iff.mp total.symm)
  have listed : m.peaks ≠ [] := by
    rw [Mmb.peaks, Ne, List.reverse_eq_nil_iff, List.map_eq_nil_iff]
    exact standing
  have count : m.peaks.length = m.heights.length := by
    rw [Mmb.peaks, Mmb.heights, List.length_reverse, List.length_map, List.length_map]
  have plain : ∀ q ∈ m.peaks, ∀ peaks, q ≠ sha3 (.root peaks) := by
    intro q member
    obtain ⟨place, h, pre, block, post, mountain⟩ := built.covers.mountainAt member
    apply perfect_ne_root inj mountain.perfect
    intro x inside
    have hashed : x ∈ leaves.map (mmbHashLeaf sha3) := by
      rw [mountain.blocks]
      simp [inside]
    obtain ⟨leaf, -, rfl⟩ := List.mem_map.mp hashed
    exact ⟨leaf, rfl⟩
  rw [built.root standing, verify_iff] at verified
  obtain ⟨member, root⟩ := verified
  rcases bagPeaks_inj inj plain (List.ne_nil_of_mem member) listed root with
    same | ⟨peaks, single, several⟩
  · rw [same] at member
    exact .inl (built.covers.mountainAt member)
  · rw [single, List.mem_singleton] at member
    have noPath : proof.siblings = [] := by
      by_contra path
      obtain ⟨a, b, pair⟩ :=
        @climb_of_ne_nil W sha3 (unpackLrBits proof.mmbSize) proof.leafHash _ path
      have inputs := inj (pair.symm.trans member)
      cases inputs
    refine .inr ⟨noPath, by omega, peaks, ?_⟩
    rw [noPath] at member
    exact member

theorem verify_of_peak [DecidableEq W] {zero : W} {hashes : List W} {m : Mmb W}
    (built : Built sha3 m hashes) (peaks : proof.peaks = m.peaks)
    (member : climb (mmbHashInternal sha3) (unpackLrBits proof.mmbSize) 0 proof.leafHash
      proof.siblings ∈ m.peaks)
    : mmbVerify sha3 proof (mmbRoot sha3 zero m).1 = true := by
  have standing : m.mountains ≠ [] := by
    intro none
    rw [Mmb.peaks, none] at member
    cases member
  rw [built.root standing, verify_iff, peaks]
  exact ⟨member, rfl⟩

-- Soundness

/--
Every accepted proof with a path length, a packed size and an index has the leaf hash at the index,
for every injective hash and all sequences of a number of leaves.
-/
def SoundFor (n pathLength mmbSize leafIndex : Nat) : Prop :=
  ∀ (W : Type) [DecidableEq W] (sha3 : MmbInput W → W) (zero : W), Function.Injective sha3 →
    ∀ (leaves : List MmbLeaf) (m : Mmb W) (proof : MmbProof W), leaves.length = n →
      mmbAppendAll sha3 (mmbInit zero) leaves = some m → proof.siblings.length = pathLength →
      proof.mmbSize = mmbSize → proof.leafIndex = leafIndex →
      mmbVerify sha3 proof (mmbRoot sha3 zero m).1 = true →
        leaves[leafIndex]?.map (mmbHashLeaf sha3) = some proof.leafHash

/--
The path can address nothing but the leaf at the index: each mountain that is high enough for the
path is as high as the path is long, and the path ends in it at the index.
-/
structure Addresses (n pathLength mmbSize leafIndex : Nat) : Prop where
  nonempty : 0 < n
  only : ∀ hs, beltHeights n = some hs → ∀ place h, hs[place]? = some h → pathLength ≤ h →
    h = pathLength
    ∧ leafIndex = mountainStart hs place + unpackLrBits mmbSize % 2 ^ pathLength

theorem getElem?_block {α : Type} (pre before after post : List α) (x : α)
    : (pre ++ (before ++ [x] ++ after) ++ post)[pre.length + before.length]? = some x := by
  simp only [List.append_assoc]
  rw [List.getElem?_append_right (Nat.le_add_right _ _), Nat.add_sub_cancel_left,
    List.getElem?_append_right (Nat.le_refl _), Nat.sub_self]
  rfl

theorem mountainStart_lt {hs : List Nat} (several : 2 ≤ hs.length)
    : mountainStart hs 1 < mountainStart hs 0 := by
  match hs, several with
  | _ :: h :: rest, _ =>
    change (rest.map (2 ^ ·)).sum < 2 ^ h + (rest.map (2 ^ ·)).sum
    have positive : 0 < 2 ^ h := Nat.two_pow_pos h
    omega

theorem heights_of_appended {zero : W} {m : Mmb W}
    (appended : mmbAppendAll sha3 (mmbInit zero) leaves = some m)
    : beltHeights leaves.length = some m.heights := by
  have heights := @appendHashes_heights W sha3 zero (leaves.map (mmbHashLeaf sha3))
  rw [show mmbAppendHashes sha3 (mmbInit zero) _ = some m from appended, List.length_map] at heights
  exact heights.symm

variable {pathLength n : Nat}

theorem Addresses.sound {mmbSize leafIndex : Nat}
    (addresses : Addresses n pathLength mmbSize leafIndex)
    : SoundFor n pathLength mmbSize leafIndex := by
  intro W _ sha3 zero inj leaves m proof count appended path size index verified
  have heights := heights_of_appended appended
  rw [count] at heights
  have nonempty : leaves ≠ [] := List.ne_nil_of_length_pos (by rw [count]; exact addresses.nonempty)
  rcases verify_climbs inj nonempty appended verified with
    ⟨place, h, pre, block, post, mountain⟩ | ⟨noPath, several, -⟩
  · have high := mountain.high inj
    obtain ⟨rfl, place⟩ := addresses.only _ heights place h mountain.height (by omega)
    have perfect := mountain.perfect
    rw [← Nat.zero_add h] at perfect
    obtain ⟨before, leaf, after, parts, start, single⟩ :=
      climb_sound (hashInternal_pairInjective inj) path perfect
    rw [Perfect.zero_iff] at single
    rw [Nat.pow_zero, Nat.mul_one, size] at start
    rw [← List.getElem?_map, mountain.blocks, parts, single, place, ← start, ← mountain.start]
    exact getElem?_block pre before after post proof.leafHash
  · obtain ⟨first, second, heightsPair⟩ : ∃ first second, m.heights[0]? = some first
        ∧ m.heights[1]? = some second :=
      ⟨_, _, List.getElem?_eq_getElem (by omega), List.getElem?_eq_getElem (by omega)⟩
    have noLength : pathLength = 0 := by
      rw [← path, noPath]
      rfl
    obtain ⟨-, left⟩ := addresses.only _ heights 0 first heightsPair.1 (by omega)
    obtain ⟨-, right⟩ := addresses.only _ heights 1 second heightsPair.2 (by omega)
    have order := mountainStart_lt several
    omega

theorem verify_leaf [DecidableEq W] (inj : Function.Injective sha3) {zero : W} {m : Mmb W}
    {leaf : MmbLeaf} (nonempty : leaves ≠ [])
    (appended : mmbAppendAll sha3 (mmbInit zero) leaves = some m)
    (verified : mmbVerify sha3 proof (mmbRoot sha3 zero m).1 = true)
    (hash : mmbHashLeaf sha3 leaf = proof.leafHash)
    : ∃ place, m.heights[place]? = some proof.siblings.length
      ∧ leaves[mountainStart m.heights place
          + unpackLrBits proof.mmbSize % 2 ^ proof.siblings.length]? = some leaf := by
  have pairs := hashInternal_pairInjective inj
  rcases verify_climbs inj nonempty appended verified with
    ⟨place, h, pre, block, post, mountain⟩ | ⟨-, -, peaks, root⟩
  · have high := mountain.high inj
    obtain ⟨r, rfl⟩ : ∃ r, h = r + proof.siblings.length := ⟨h - proof.siblings.length, by omega⟩
    obtain ⟨before, node, after, parts, start, below⟩ := climb_sound pairs rfl mountain.perfect
    cases r with
    | succ r =>
      obtain ⟨left, right, a, b, -, same, -, -⟩ := Perfect.succ_iff.mp below
      exact absurd (hash.trans same) (hashLeaf_ne_internal inj leaf a b)
    | zero =>
      rw [Perfect.zero_iff] at below
      rw [Nat.pow_zero, Nat.mul_one] at start
      refine ⟨place, by rw [mountain.height, Nat.zero_add], ?_⟩
      have hashed : (leaves.map (mmbHashLeaf sha3))[mountainStart m.heights place
          + unpackLrBits proof.mmbSize % 2 ^ proof.siblings.length]?
            = some proof.leafHash := by
        rw [mountain.blocks, parts, below, ← start, ← mountain.start]
        exact getElem?_block pre before after post proof.leafHash
      rw [List.getElem?_map] at hashed
      obtain ⟨found, here, same⟩ := Option.map_eq_some_iff.mp hashed
      have inputs := inj (same.trans hash.symm)
      injection inputs with equal
      rw [here, equal]
  · have inputs := inj (hash.trans root)
    cases inputs

theorem verify_of_leaf [DecidableEq W] {zero : W} {m : Mmb W} {leaf : MmbLeaf} {place h bits : Nat}
    (appended : mmbAppendAll sha3 (mmbInit zero) leaves = some m)
    (mountain : m.heights[place]? = some h)
    (found : leaves[mountainStart m.heights place + bits % 2 ^ h]? = some leaf)
    : ∃ siblings : List W, ∀ leafIndex mmbSize, unpackLrBits mmbSize = bits →
        mmbVerify sha3 ⟨leafIndex, mmbHashLeaf sha3 leaf, siblings, m.peaks, mmbSize⟩
          (mmbRoot sha3 zero m).1 = true := by
  have built := appendHashes_built appended
  obtain ⟨peak, pre, block, post, here, blocks, perfect, start⟩ :=
    Range.mem_split built.covers mountain
  rw [← Nat.zero_add h] at perfect
  obtain ⟨x, siblings, before, node, after, -, climbs, rfl, offset, below⟩ :=
    climb_complete bits perfect
  rw [Perfect.zero_iff] at below
  rw [Nat.pow_zero, Nat.mul_one] at offset
  have begins : mountainStart m.heights place = pre.length := start.symm
  have hashed : (leaves.map (mmbHashLeaf sha3))[mountainStart m.heights place + bits % 2 ^ h]?
      = some x := by
    rw [blocks, below, ← offset, begins]
    exact getElem?_block pre before after post x
  rw [List.getElem?_map, found] at hashed
  obtain rfl : mmbHashLeaf sha3 leaf = x := Option.some.inj hashed
  have member : peak ∈ m.peaks := by
    rw [Mmb.peaks, List.mem_reverse]
    exact List.mem_of_getElem? here
  refine ⟨siblings, ?_⟩
  intro leafIndex mmbSize unpacked
  apply verify_of_peak built rfl
  rw [unpacked, climbs]
  exact member

/-- The leaves that differ at one place only. -/
def markedLeaves (n target : Nat) : List MmbLeaf :=
  (List.range n).map fun i => heightLeaf (if i = target then 1 else 0)

theorem markedLeaves_getElem? {target i : Nat} {leaf : MmbLeaf}
    (found : (markedLeaves n target)[i]? = some leaf)
    : leaf = heightLeaf (if i = target then 1 else 0) := by
  rw [markedLeaves, List.getElem?_map] at found
  obtain ⟨j, place, rfl⟩ := Option.map_eq_some_iff.mp found
  obtain ⟨-, rfl⟩ := List.getElem?_eq_some_iff.mp place
  rw [List.getElem_range]

theorem SoundFor.nonempty {mmbSize leafIndex : Nat}
    (sound : SoundFor n pathLength mmbSize leafIndex) : 0 < n := by
  by_contra none
  obtain rfl : n = 0 := by omega
  -- The root of no leaves is the zero hash, which may stand as a peak.
  have siblings : (List.replicate pathLength Digest.nil).length = pathLength :=
    List.length_replicate
  have accepts := sound Digest Digest.hash
    (climb (mmbHashInternal Digest.hash) (unpackLrBits mmbSize) 0 .nil
      (List.replicate pathLength .nil))
    Digest.hash_injective [] (mmbInit _)
    ⟨leafIndex, .nil, List.replicate pathLength .nil, [climb (mmbHashInternal Digest.hash)
      (unpackLrBits mmbSize) 0 .nil (List.replicate pathLength .nil)], mmbSize⟩
    rfl rfl siblings rfl rfl
    (by rw [verify_iff]; exact ⟨List.mem_singleton_self _, rfl⟩)
  cases accepts

theorem SoundFor.only {mmbSize leafIndex place h : Nat} {hs : List Nat}
    (sound : SoundFor n pathLength mmbSize leafIndex) (heights : beltHeights n = some hs)
    (mountain : hs[place]? = some h) (high : pathLength ≤ h)
    : h = pathLength
      ∧ leafIndex = mountainStart hs place + unpackLrBits mmbSize % 2 ^ pathLength := by
  obtain ⟨r, rfl⟩ : ∃ r, h = r + pathLength := ⟨h - pathLength, by omega⟩
  generalize targetIs : mountainStart hs place + unpackLrBits mmbSize % 2 ^ pathLength = target
  have count : (markedLeaves n target).length = n := by
    rw [markedLeaves, List.length_map, List.length_range]
  obtain ⟨m, appended⟩ := @appendHashes_isSome Digest Digest.hash .zero
    ((markedLeaves n target).map (mmbHashLeaf Digest.hash))
    ⟨hs, by rw [List.length_map, count]; exact heights⟩
  have built := appendHashes_built appended
  have same := heights_of_appended appended
  rw [count, heights] at same
  obtain rfl := Option.some.inj same
  obtain ⟨peak, pre, block, post, here, blocks, perfect, start⟩ :=
    Range.mem_split built.covers mountain
  obtain ⟨x, siblings, before, node, after, path, climbs, rfl, offset, below⟩ :=
    climb_complete (unpackLrBits mmbSize) perfect
  have member : peak ∈ m.peaks := by
    rw [Mmb.peaks, List.mem_reverse]
    exact List.mem_of_getElem? here
  have accepts := sound Digest Digest.hash .zero Digest.hash_injective _ m
    ⟨leafIndex, x, siblings, m.peaks, mmbSize⟩ count appended path rfl rfl
    (verify_of_peak built rfl (by rw [climbs]; exact member))
  obtain ⟨leaf, found, hash⟩ := Option.map_eq_some_iff.mp accepts
  cases r with
  | succ r =>
    obtain ⟨left, right, a, b, -, rfl, -, -⟩ := Perfect.succ_iff.mp below
    exact absurd hash (hashLeaf_ne_internal Digest.hash_injective leaf a b)
  | zero =>
    refine ⟨Nat.zero_add _, ?_⟩
    rw [Perfect.zero_iff] at below
    rw [Nat.pow_zero, Nat.mul_one] at offset
    have begins : mountainStart m.heights place = pre.length := start.symm
    have hashed : ((markedLeaves n target).map (mmbHashLeaf Digest.hash))[target]? = some x := by
      rw [blocks, below, ← targetIs, ← offset, begins]
      exact getElem?_block pre before after post x
    rw [List.getElem?_map] at hashed
    obtain ⟨marked, targetFound, targetHash⟩ := Option.map_eq_some_iff.mp hashed
    have equal : leaf = marked := by
      have inputs := Digest.hash_injective (hash.trans targetHash.symm)
      injection inputs
    rw [markedLeaves_getElem? found, markedLeaves_getElem? targetFound, if_pos rfl] at equal
    by_contra differs
    rw [if_neg differs] at equal
    cases equal

/-- The verifier is sound exactly for the paths that address nothing but the leaf at the index. -/
theorem verify_sound_iff (n pathLength mmbSize leafIndex : Nat)
    : SoundFor n pathLength mmbSize leafIndex ↔ Addresses n pathLength mmbSize leafIndex := by
  constructor
  · intro sound
    refine ⟨sound.nonempty, ?_⟩
    intro hs heights place h mountain high
    exact sound.only heights mountain high
  · intro addresses
    exact addresses.sound

/--
Two leaves: their pair passes as a leaf without a path, and the right path of the second leaf
passes for the index of the first one.
-/
theorem verify_unsound_two
    : Function.Injective Digest.hash ∧ ∃ m interior misplaced,
      mmbAppendAll Digest.hash (mmbInit .zero) [heightLeaf 0, heightLeaf 1] = some m
      ∧ mmbVerify Digest.hash interior (mmbRoot Digest.hash .zero m).1 = true
      ∧ interior.leafHash ∉ [heightLeaf 0, heightLeaf 1].map (mmbHashLeaf Digest.hash)
      ∧ mmbVerify Digest.hash misplaced (mmbRoot Digest.hash .zero m).1 = true
      ∧ misplaced.leafIndex = 0
      ∧ [heightLeaf 0, heightLeaf 1][misplaced.leafIndex]?.map (mmbHashLeaf Digest.hash)
          ≠ some misplaced.leafHash := by
  let first := mmbHashLeaf Digest.hash (heightLeaf 0)
  let second := mmbHashLeaf Digest.hash (heightLeaf 1)
  let top := mmbHashInternal Digest.hash first second
  exact ⟨Digest.hash_injective, ⟨2, [⟨top, 1⟩], .zero, true⟩, ⟨0, top, [], [top], 2⟩,
    ⟨0, second, [first], [top], 2 ||| 1 <<< 40⟩, by decide, by decide, by decide, by decide, rfl,
    by decide⟩

end Z23.Chain.MountainBelt
