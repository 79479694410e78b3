import Z23.Chain.Mmb

/-!
Inclusion proofs of the belt. The prover replays the appends and records a sibling whenever the
mountain of its leaf takes part in a merge; the verifier climbs from the leaf to a peak.
-/

namespace Z23.Chain.MountainBelt

open Z23.Lib.Mountains

-- Prover and verifier

/-- The siblings and the peaks are those in use; the size packs the leaf count and the path. -/
structure MmbProof (W : Type) where
  leafIndex : Nat
  leafHash : W
  siblings : List W
  peaks : List W
  mmbSize : Nat
deriving DecidableEq

/-- The stack of mountains, the place of the target in it from the left, and its path so far. -/
structure Replay (W : Type) where
  stack : List (Mountain W)
  targetSp : Int
  siblings : List W
  lrBits : Nat

section

variable {W : Type} (sha3 : MmbInput W → W)

/-- A merge of two stack entries with their places. -/
def recordTargetMergeSibling (a b : Mountain W) (left right : Nat) (s : Replay W) : Replay W :=
  if s.targetSp = right then
    { s with
      siblings := s.siblings ++ [a.peak]
      lrBits := s.lrBits ||| (1 <<< s.siblings.length)
      targetSp := left }
  else if s.targetSp = left then { s with siblings := s.siblings ++ [b.peak] }
  else s

def mergeRightmostPair (s : Replay W) : Replay W :=
  match s.stack with
  | b :: a :: rest =>
    if a.height = b.height then
      { recordTargetMergeSibling a b rest.length (rest.length + 1) s with
        stack := mergePair sha3 a b :: rest }
    else s
  | _ => s

/-- A place on the right of the pair moves down with its mountain. -/
def shiftTarget (right : Nat) (s : Replay W) : Replay W :=
  { s with targetSp := if s.targetSp > right then s.targetSp - 1 else s.targetSp }

/-- The scan to the left, from a part of the stack on; what is right of it stays. -/
def mergeDeferredPair (s : Replay W) : List (Mountain W) → Replay W
  | b :: a :: rest =>
    if a.height = b.height then
      let s := recordTargetMergeSibling a b rest.length (rest.length + 1) s
      { shiftTarget (rest.length + 1) s with stack := mergePair sha3 a b :: rest }
    else
      let s := mergeDeferredPair s (a :: rest)
      { s with stack := b :: s.stack }
  | stack => { s with stack := stack }

/-- One leaf of the replay. -/
def replayLeaf (leafIndex i : Nat) (s : Replay W) (leafHash : W) : Replay W :=
  let s := { s with
    stack := ⟨leafHash, 0⟩ :: s.stack
    targetSp := if i = leafIndex then s.stack.length else s.targetSp }
  let s := mergeRightmostPair sha3 s
  mergeDeferredPair sha3 s s.stack

def replayLoop (leafIndex : Nat) : Nat → Replay W → List W → Replay W
  | _, s, [] => s
  | i, s, leafHash :: rest =>
    replayLoop leafIndex (i + 1) (replayLeaf sha3 leafIndex i s leafHash) rest

def replayStart : Replay W := ⟨[], -1, [], 0⟩

def packSize (numLeaves lrBits : Nat) : Nat :=
  (numLeaves &&& 0xFFFFFFFFFF) ||| ((lrBits &&& 0xFFFFFF) <<< 40)

def mmbProve (allLeafHashes : List W) (leafIndex : Nat) : Option (MmbProof W) :=
  allLeafHashes[leafIndex]?.map fun leafHash =>
    let s := replayLoop sha3 leafIndex 0 replayStart allLeafHashes
    { leafIndex := leafIndex
      leafHash := leafHash
      siblings := s.siblings
      peaks := (s.stack.map Mountain.peak).reverse
      mmbSize := packSize allLeafHashes.length s.lrBits }

def unpackLrBits (mmbSize : Nat) : Nat := (mmbSize >>> 40) &&& 0xFFFFFF

def mmbVerify [DecidableEq W] (proof : MmbProof W) (expectedRoot : W) : Bool :=
  if proof.peaks = [] then false
  else
    let current := climb (mmbHashInternal sha3) (unpackLrBits proof.mmbSize) 0 proof.leafHash
      proof.siblings
    if !proof.peaks.any (· == current) then false
    else bagPeaks sha3 proof.peaks == expectedRoot

end

variable {W : Type} {sha3 : MmbInput W → W}

-- The stack of the replay

variable {s : Replay W}

theorem mergeRightmostPair_stack {merged : List (Mountain W)} {n : Nat}
    (merges : mergeRightmost sha3 s.stack = some (merged, n))
    : (mergeRightmostPair sha3 s).stack = merged := by
  unfold mergeRightmostPair
  match stack : s.stack with
  | [] =>
    rw [stack] at merges
    cases merges
    exact stack
  | [m] =>
    rw [stack] at merges
    cases merges
    exact stack
  | b :: a :: rest =>
    rw [stack, mergeRightmost] at merges
    simp only
    split at merges
    · rename_i even
      rw [if_pos even]
      split at merges
      · cases merges
      · cases merges
        rfl
    · rename_i uneven
      rw [if_neg uneven]
      cases merges
      exact stack

theorem mergeDeferredPair_stack (s : Replay W) {stack merged : List (Mountain W)} {n : Nat}
    (merges : mergeDeferred sha3 stack = some (merged, n))
    : (mergeDeferredPair sha3 s stack).stack = merged := by
  induction stack generalizing merged n with
  | nil =>
    cases merges
    rfl
  | cons b tail ih =>
    cases tail with
    | nil =>
      cases merges
      rfl
    | cons a rest =>
      rw [mergeDeferred] at merges
      rw [mergeDeferredPair]
      split at merges
      · rename_i even
        rw [if_pos even]
        split at merges
        · cases merges
        · cases merges
          rfl
      · rename_i uneven
        obtain ⟨⟨inner, count⟩, tailMerges, same⟩ := Option.map_eq_some_iff.mp merges
        cases same
        rw [if_neg uneven]
        exact congrArg (b :: ·) (ih tailMerges)

variable {leafHash : W} {leafIndex i : Nat}

theorem replayLeaf_stack {m next : Mmb W} (same : s.stack = m.mountains)
    (accepts : accepted (mmbAppendHash sha3 m leafHash) = some next)
    : (replayLeaf sha3 leafIndex i s leafHash).stack = next.mountains := by
  obtain ⟨first, appended⟩ := accepted_appendHash accepts
  obtain ⟨count, rightmost⟩ := appended.rightmost
  obtain ⟨later, deferred⟩ := appended.deferred
  unfold replayLeaf
  simp only
  apply mergeDeferredPair_stack
  rw [mergeRightmostPair_stack (by rw [same]; exact rightmost)]
  exact deferred

theorem replayLoop_stack {leafIndex i : Nat} {s : Replay W} {m final : Mmb W} {hashes : List W}
    (same : s.stack = m.mountains) (appended : mmbAppendHashes sha3 m hashes = some final)
    : (replayLoop sha3 leafIndex i s hashes).stack = final.mountains := by
  induction hashes generalizing i s m with
  | nil =>
    cases appended
    exact same
  | cons leafHash rest ih =>
    obtain ⟨next, step, more⟩ := Option.bind_eq_some_iff.mp appended
    exact ih (replayLeaf_stack same step) more

-- The path of the target

/-- The mountain of the target: the path so far climbs from the leaf to its peak. -/
structure OnPath (sha3 : MmbInput W → W) (leafHash : W) (siblings : List W) (lrBits : Nat)
    (m : Mountain W) : Prop where
  height : m.height = siblings.length
  climbs : climb (mmbHashInternal sha3) lrBits 0 leafHash siblings = m.peak
  small : lrBits < 2 ^ siblings.length

theorem climb_congr {bits bits' : Nat} {x : W} {siblings : List W} {node : W → W → W}
    (same : ∀ level, level < i + siblings.length → bits.testBit level = bits'.testBit level)
    : climb node bits i x siblings = climb node bits' i x siblings := by
  induction siblings generalizing i x with
  | nil => rfl
  | cons s siblings ih =>
    rw [List.length_cons] at same
    rw [climb, climb, same i (by omega), ih (fun level below => same level (by omega))]

theorem OnPath.right {leafHash : W} {siblings : List W} {lrBits : Nat} {a b : Mountain W}
    (path : OnPath sha3 leafHash siblings lrBits b) (even : a.height = b.height)
    : OnPath sha3 leafHash (siblings ++ [a.peak]) (lrBits ||| (1 <<< siblings.length))
        (mergePair sha3 a b) := by
  have shifted : (1 : Nat) <<< siblings.length = 2 ^ siblings.length := Nat.one_shiftLeft _
  have lower : climb (mmbHashInternal sha3) (lrBits ||| 2 ^ siblings.length) 0 leafHash siblings
      = climb (mmbHashInternal sha3) lrBits 0 leafHash siblings := by
    apply climb_congr
    intro level below
    rw [Nat.testBit_or, Nat.testBit_two_pow_of_ne (by omega), Bool.or_false]
  refine ⟨?_, ?_, ?_⟩
  · rw [List.length_append, List.length_singleton, ← path.height, ← even]
    rfl
  · rw [shifted, climb_append, Nat.zero_add, Nat.testBit_or, Nat.testBit_two_pow_self,
      Bool.or_true, if_pos rfl, lower, path.climbs]
    rfl
  · rw [shifted, List.length_append, List.length_singleton]
    exact Nat.or_lt_two_pow (Nat.lt_trans path.small (Nat.pow_lt_pow_right (by decide) (by omega)))
      (Nat.pow_lt_pow_right (by decide) (by omega))

theorem OnPath.left {leafHash : W} {siblings : List W} {lrBits : Nat} {a : Mountain W}
    (path : OnPath sha3 leafHash siblings lrBits a) (b : Mountain W)
    : OnPath sha3 leafHash (siblings ++ [b.peak]) lrBits (mergePair sha3 a b) := by
  refine ⟨?_, ?_, ?_⟩
  · rw [List.length_append, List.length_singleton, ← path.height]
    rfl
  · rw [climb_append, Nat.zero_add, Nat.testBit_lt_two_pow path.small, if_neg (by decide),
      path.climbs]
    rfl
  · rw [List.length_append, List.length_singleton]
    exact Nat.lt_trans path.small (Nat.pow_lt_pow_right (by decide) (by omega))

/-- The replay knows where the mountain of the target stands in a stack. -/
structure Tracks (sha3 : MmbInput W → W) (leafHash : W) (s : Replay W) (stack : List (Mountain W))
    : Prop where
  found : ∃ upper m lower, stack = upper ++ m :: lower ∧ s.targetSp = lower.length
    ∧ OnPath sha3 leafHash s.siblings s.lrBits m

theorem Tracks.inside {stack : List (Mountain W)} (tracks : Tracks sha3 leafHash s stack)
    : s.targetSp < stack.length := by
  obtain ⟨upper, m, lower, rfl, place, -⟩ := tracks.found
  rw [place, List.length_append, List.length_cons]
  omega

variable {a b : Mountain W}

theorem record_left {left right : Nat} (apart : left ≠ right) (here : s.targetSp = left)
    : recordTargetMergeSibling a b left right s
        = { s with siblings := s.siblings ++ [b.peak] } := by
  unfold recordTargetMergeSibling
  rw [if_neg (by rw [here]; omega), if_pos here]

theorem record_elsewhere {left right : Nat} (notRight : s.targetSp ≠ right)
    (notLeft : s.targetSp ≠ left)
    : recordTargetMergeSibling a b left right s = s := by
  unfold recordTargetMergeSibling
  rw [if_neg notRight, if_neg notLeft]

theorem split_pair {α : Type} {above rest upper lower : List α} {a b m : α}
    (parts : above ++ b :: a :: rest = upper ++ m :: lower)
    : (∃ between, above = upper ++ m :: between ∧ lower = between ++ b :: a :: rest)
      ∨ (m = b ∧ upper = above ∧ lower = a :: rest)
      ∨ (m = a ∧ upper = above ++ [b] ∧ lower = rest)
      ∨ ∃ between, rest = between ++ m :: lower ∧ upper = above ++ b :: a :: between := by
  rcases List.append_eq_append_iff.mp parts with ⟨gap, rfl, tail⟩ | ⟨gap, rfl, tail⟩
  · match gap, tail with
    | [], tail =>
      obtain ⟨rfl, rfl⟩ := List.cons.inj tail
      exact .inr (.inl ⟨rfl, by simp, rfl⟩)
    | [first], tail =>
      obtain ⟨rfl, second⟩ := List.cons.inj tail
      obtain ⟨rfl, rfl⟩ := List.cons.inj second
      exact .inr (.inr (.inl ⟨rfl, rfl, rfl⟩))
    | first :: second :: between, tail =>
      obtain ⟨rfl, later⟩ := List.cons.inj tail
      obtain ⟨rfl, rfl⟩ := List.cons.inj later
      exact .inr (.inr (.inr ⟨between, rfl, rfl⟩))
  · match gap, tail with
    | [], tail =>
      obtain ⟨rfl, rfl⟩ := List.cons.inj tail
      exact .inr (.inl ⟨rfl, by simp, rfl⟩)
    | first :: between, tail =>
      obtain ⟨rfl, rfl⟩ := List.cons.inj tail
      exact .inl ⟨between, rfl, rfl⟩

theorem Tracks.merge {above rest : List (Mountain W)}
    (tracks : Tracks sha3 leafHash s (above ++ b :: a :: rest)) (even : a.height = b.height)
    : Tracks sha3 leafHash
        (shiftTarget (rest.length + 1)
          (recordTargetMergeSibling a b rest.length (rest.length + 1) s))
        (above ++ mergePair sha3 a b :: rest) := by
  obtain ⟨upper, m, lower, parts, place, path⟩ := tracks.found
  rcases split_pair parts with
    ⟨between, rfl, rfl⟩ | ⟨rfl, rfl, rfl⟩ | ⟨rfl, rfl, rfl⟩ | ⟨between, rfl, rfl⟩
  · -- A mountain on the right of the pair moves down by one place.
    have far : s.targetSp > (rest.length + 1 : Nat) := by
      rw [place, List.length_append, List.length_cons, List.length_cons]
      omega
    rw [record_elsewhere (by omega) (by omega)]
    refine ⟨upper, m, between ++ mergePair sha3 a b :: rest, by simp, ?_, path⟩
    unfold shiftTarget
    simp only
    rw [if_pos far, place, List.length_append, List.length_append, List.length_cons,
      List.length_cons, List.length_cons]
    omega
  · have here : s.targetSp = (rest.length + 1 : Nat) := place
    rw [recordTargetMergeSibling, if_pos here]
    refine ⟨_, _, _, rfl, ?_, path.right even⟩
    unfold shiftTarget
    simp only
    rw [if_neg (by omega)]
  · rw [record_left (by omega) place]
    refine ⟨_, _, _, rfl, ?_, path.left b⟩
    unfold shiftTarget
    simp only
    rw [if_neg (by omega), place]
  · have below : s.targetSp < (between ++ m :: lower).length := by
      rw [place, List.length_append, List.length_cons]
      omega
    rw [record_elsewhere (by omega) (by omega)]
    refine ⟨above ++ mergePair sha3 a b :: between, m, lower, by simp, ?_, path⟩
    unfold shiftTarget
    simp only
    rw [if_neg (by omega), place]

theorem record_targetSp_le {left right : Nat} (order : left ≤ right) (below : s.targetSp ≤ right)
    : (recordTargetMergeSibling a b left right s).targetSp ≤ right := by
  unfold recordTargetMergeSibling
  split
  · exact Int.ofNat_le.mpr order
  · split
    · exact below
    · exact below

theorem shiftTarget_of_le {right : Nat} (below : s.targetSp ≤ right)
    : shiftTarget right s = s := by
  unfold shiftTarget
  rw [if_neg (by omega)]

theorem Tracks.restack {stack : List (Mountain W)} (tracks : Tracks sha3 leafHash s stack)
    (other : List (Mountain W))
    : Tracks sha3 leafHash { s with stack := other } stack := ⟨tracks.found⟩

theorem Tracks.mergeRightmostPair (tracks : Tracks sha3 leafHash s s.stack)
    : Tracks sha3 leafHash (mergeRightmostPair sha3 s) (mergeRightmostPair sha3 s).stack := by
  unfold MountainBelt.mergeRightmostPair
  match stack : s.stack with
  | [] =>
    rw [stack] at tracks
    simp only [stack]
    exact tracks
  | [m] =>
    rw [stack] at tracks
    simp only [stack]
    exact tracks
  | b :: a :: rest =>
    rw [stack] at tracks
    simp only
    split
    · rename_i even
      have inside := tracks.inside
      have merged := Tracks.merge (show Tracks sha3 leafHash s ([] ++ b :: a :: rest) from tracks)
        even
      rw [shiftTarget_of_le (record_targetSp_le (by omega) (by simp at inside; omega))] at merged
      exact merged.restack _
    · rw [stack]
      exact tracks

theorem Tracks.mergeDeferredPair {stack : List (Mountain W)} (above : List (Mountain W))
    (tracks : Tracks sha3 leafHash s (above ++ stack))
    : Tracks sha3 leafHash (mergeDeferredPair sha3 s stack)
        (above ++ (mergeDeferredPair sha3 s stack).stack) := by
  induction stack generalizing above with
  | nil => exact tracks.restack _
  | cons b tail ih =>
    cases tail with
    | nil => exact tracks.restack _
    | cons a rest =>
      rw [MountainBelt.mergeDeferredPair]
      split
      · rename_i even
        exact (tracks.merge even).restack _
      · have regroup : above ++ b :: a :: rest = (above ++ [b]) ++ a :: rest := by simp
        rw [regroup] at tracks
        have inner := (ih _ tracks).restack
          (b :: (MountainBelt.mergeDeferredPair sha3 s (a :: rest)).stack)
        rw [List.append_assoc] at inner
        exact inner

-- Runs of the replay

/-- Before its leaf the replay has recorded nothing. -/
structure Waiting (s : Replay W) : Prop where
  nowhere : s.targetSp = -1
  siblings : s.siblings = []
  lrBits : s.lrBits = 0

theorem Waiting.record {left right : Nat} (waiting : Waiting s)
    : recordTargetMergeSibling a b left right s = s := by
  have nowhere := waiting.nowhere
  exact record_elsewhere (by omega) (by omega)

theorem Waiting.mergeRightmostPair (waiting : Waiting s)
    : Waiting (mergeRightmostPair sha3 s) := by
  unfold MountainBelt.mergeRightmostPair
  split
  · split
    · rw [waiting.record]
      exact ⟨waiting.nowhere, waiting.siblings, waiting.lrBits⟩
    · exact waiting
  · exact waiting

theorem Waiting.mergeDeferredPair (waiting : Waiting s) (stack : List (Mountain W))
    : Waiting (mergeDeferredPair sha3 s stack) := by
  induction stack with
  | nil => exact ⟨waiting.nowhere, waiting.siblings, waiting.lrBits⟩
  | cons b tail ih =>
    cases tail with
    | nil => exact ⟨waiting.nowhere, waiting.siblings, waiting.lrBits⟩
    | cons a rest =>
      rw [MountainBelt.mergeDeferredPair]
      split
      · have nowhere := waiting.nowhere
        simp only
        rw [waiting.record, shiftTarget_of_le (by omega)]
        exact ⟨waiting.nowhere, waiting.siblings, waiting.lrBits⟩
      · exact ⟨ih.nowhere, ih.siblings, ih.lrBits⟩

theorem Waiting.replayLeaf (waiting : Waiting s) (earlier : i ≠ leafIndex) (leafHash : W)
    : Waiting (replayLeaf sha3 leafIndex i s leafHash) := by
  unfold MountainBelt.replayLeaf
  simp only [if_neg earlier]
  apply Waiting.mergeDeferredPair
  apply Waiting.mergeRightmostPair
  exact ⟨waiting.nowhere, waiting.siblings, waiting.lrBits⟩

theorem Tracks.replayLeaf {target : W}
    (tracks : (i = leafIndex ∧ target = leafHash ∧ Waiting s) ∨
      (i ≠ leafIndex ∧ Tracks sha3 target s s.stack))
    : Tracks sha3 target (replayLeaf sha3 leafIndex i s leafHash)
        (replayLeaf sha3 leafIndex i s leafHash).stack := by
  unfold MountainBelt.replayLeaf
  simp only
  apply Tracks.mergeDeferredPair []
  apply Tracks.mergeRightmostPair
  rcases tracks with ⟨here, rfl, waiting⟩ | ⟨elsewhere, tracks⟩
  · refine ⟨[], _, s.stack, rfl, if_pos here, ?_⟩
    rw [waiting.siblings, waiting.lrBits]
    exact ⟨rfl, rfl, Nat.one_pos⟩
  · obtain ⟨upper, m, lower, parts, place, path⟩ := tracks.found
    refine ⟨⟨leafHash, 0⟩ :: upper, m, lower, ?_, ?_, path⟩
    · rw [parts]
      rfl
    · simp only [if_neg elsewhere]
      exact place

theorem Tracks.replayLoop {target : W} (tracks : Tracks sha3 target s s.stack)
    (later : leafIndex < i) (hashes : List W)
    : Tracks sha3 target (replayLoop sha3 leafIndex i s hashes)
        (replayLoop sha3 leafIndex i s hashes).stack := by
  induction hashes generalizing i s with
  | nil => exact tracks
  | cons leafHash rest ih =>
    exact ih (Tracks.replayLeaf (.inr ⟨by omega, tracks⟩)) (by omega)

theorem replayLoop_tracks {leafIndex i : Nat} {s : Replay W} {target : W} {hashes : List W}
    (waiting : Waiting s) (place : hashes[leafIndex - i]? = some target) (later : i ≤ leafIndex)
    : Tracks sha3 target (replayLoop sha3 leafIndex i s hashes)
        (replayLoop sha3 leafIndex i s hashes).stack := by
  induction hashes generalizing i s with
  | nil => cases place
  | cons leafHash rest ih =>
    rw [replayLoop]
    by_cases here : i = leafIndex
    · have found : target = leafHash := by
        rw [here, Nat.sub_self] at place
        exact (Option.some.inj place).symm
      exact (Tracks.replayLeaf (.inl ⟨here, found, waiting⟩)).replayLoop (by omega) rest
    · have next : leafIndex - i = leafIndex - (i + 1) + 1 := by omega
      rw [next, List.getElem?_cons_succ] at place
      exact ih (waiting.replayLeaf here leafHash) place (by omega)

-- Completeness

theorem unpackLrBits_packSize {numLeaves lrBits : Nat} (few : numLeaves < 2 ^ 40)
    (small : lrBits < 2 ^ 24) : unpackLrBits (packSize numLeaves lrBits) = lrBits := by
  have path : lrBits &&& 0xFFFFFF = lrBits := by
    have mask : lrBits &&& 0xFFFFFF = lrBits % 2 ^ 24 := Nat.and_two_pow_sub_one_eq_mod lrBits 24
    rw [mask, Nat.mod_eq_of_lt small]
  have count : numLeaves &&& 0xFFFFFFFFFF = numLeaves := by
    have mask : numLeaves &&& 0xFFFFFFFFFF = numLeaves % 2 ^ 40 :=
      Nat.and_two_pow_sub_one_eq_mod numLeaves 40
    rw [mask, Nat.mod_eq_of_lt few]
  unfold unpackLrBits packSize
  rw [path, count, Nat.shiftRight_or_distrib, Nat.shiftLeft_shiftRight,
    Nat.shiftRight_eq_div_pow, Nat.div_eq_of_lt few, Nat.zero_or, path]

theorem Built.root {m : Mmb W} {hashes : List W} (built : Built sha3 m hashes)
    (nonempty : m.mountains ≠ []) (zero : W) : (mmbRoot sha3 zero m).1 = bagPeaks sha3 m.peaks := by
  unfold mmbRoot
  rw [if_neg nonempty, built.dirty]
  rfl

/--
Every leaf of a belt of fewer than 2^24 leaves has a proof with the peaks of the belt, and the
verifier accepts it against the root of the belt.
-/
theorem prove_complete [DecidableEq W] (sha3 : MmbInput W → W) (zero : W) (leaves : List MmbLeaf)
    (few : leaves.length < 2 ^ 24) (i : Nat) (inside : i < leaves.length)
    : ∃ proof m, mmbProve sha3 (leaves.map (mmbHashLeaf sha3)) i = some proof
      ∧ mmbAppendAll sha3 (mmbInit zero) leaves = some m ∧ proof.peaks = m.peaks
      ∧ mmbVerify sha3 proof (mmbRoot sha3 zero m).1 = true := by
  have count : (leaves.map (mmbHashLeaf sha3)).length = leaves.length := List.length_map _
  have fits := beltHeights_isSome (show (leaves.map (mmbHashLeaf sha3)).length < 2 ^ 31 by omega)
  obtain ⟨m, appended⟩ := @appendHashes_isSome W sha3 zero _ fits
  have built := appendHashes_built appended
  have heights := @appendHashes_heights W sha3 zero (leaves.map (mmbHashLeaf sha3))
  rw [appended, count] at heights
  have low := beltHeights_lt heights.symm few
  have place : (leaves.map (mmbHashLeaf sha3))[i]? = some (mmbHashLeaf sha3 leaves[i]) := by
    rw [List.getElem?_map, List.getElem?_eq_getElem inside]
    rfl
  have start : Waiting (replayStart : Replay W) := ⟨rfl, rfl, rfl⟩
  have tracks := @replayLoop_tracks W sha3 i 0 replayStart _ _ start place (Nat.zero_le i)
  have stack := @replayLoop_stack W sha3 i 0 replayStart (mmbInit zero) m _ rfl appended
  rw [stack] at tracks
  obtain ⟨upper, peak, lower, parts, -, path⟩ := tracks.found
  have member : peak ∈ m.mountains := by
    rw [parts]
    simp
  have nonempty : m.mountains ≠ [] := List.ne_nil_of_mem member
  have short : peak.height < 24 := low _ (List.mem_map_of_mem member)
  have bits := Nat.lt_trans path.small
    (Nat.pow_lt_pow_right (show 1 < 2 by decide) (path.height ▸ short))
  have peaks : ((replayLoop sha3 i 0 replayStart (leaves.map (mmbHashLeaf sha3))).stack.map
      Mountain.peak).reverse = m.peaks := by
    rw [stack]
    rfl
  refine ⟨_, m, by rw [mmbProve, place]; rfl, appended, peaks, ?_⟩
  have listed : m.peaks ≠ [] := by
    rw [Mmb.peaks, Ne, List.reverse_eq_nil_iff, List.map_eq_nil_iff]
    exact nonempty
  have found : m.peaks.any (· == peak.peak) = true := by
    rw [List.any_eq_true]
    refine ⟨peak.peak, ?_, beq_self_eq_true _⟩
    rw [Mmb.peaks, List.mem_reverse]
    exact List.mem_map_of_mem member
  have unpacked := unpackLrBits_packSize
    (show (leaves.map (mmbHashLeaf sha3)).length < 2 ^ 40 by omega) bits
  unfold mmbVerify
  simp only [peaks, unpacked, path.climbs, found, if_neg listed, Bool.not_true,
    Bool.false_eq_true, if_false, built.root nonempty zero, beq_self_eq_true]

theorem prove_complete_three
    : ∃ proof m,
      mmbProve Digest.hash ([heightLeaf 0, heightLeaf 1, heightLeaf 2].map
        (mmbHashLeaf Digest.hash)) 1 = some proof
      ∧ mmbAppendAll Digest.hash (mmbInit .zero) [heightLeaf 0, heightLeaf 1, heightLeaf 2] = some m
      ∧ proof.peaks = m.peaks
      ∧ mmbVerify Digest.hash proof (mmbRoot Digest.hash .zero m).1 = true :=
  prove_complete Digest.hash .zero _ (by decide) 1 (by decide)

end Z23.Chain.MountainBelt
