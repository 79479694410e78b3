import Z23.Lib.PairTree
import Z23.Validation.MerkleRoot

/-!
Partial Merkle trees: the branches of the tree over the ids of a block that lead to its matched
ones. A traversal in depth first order writes a flag for each node that it visits and a hash for
each one below which it does not go, and the same traversal reads them back.
-/

namespace Z23.Bloom

open Z23.Lib.PairTree

def maxMerkleHashes : Nat := 65536

def maxMerkleBits : Nat := maxMerkleHashes * 2

structure PartialMerkleTree (W : Type) where
  numTransactions : UInt32
  bits : List Bool
  hashes : List W
deriving DecidableEq

-- Heights

/-- The nodes at a height, in 32 bits. -/
def calcTreeWidth (nTransactions : UInt32) (height : Nat) : Nat :=
  ((nTransactions.toNat + 2 ^ height - 1) % 2 ^ 32) >>> height

def treeHeightLoop (nTransactions : UInt32) : Nat → Nat → Nat
  | 0, height => height
  | fuel + 1, height =>
    if 1 < calcTreeWidth nTransactions height then treeHeightLoop nTransactions fuel (height + 1)
    else height

/-- The loop ends at a height of 31 at the latest. -/
def treeHeight (nTransactions : UInt32) : Nat := treeHeightLoop nTransactions 31 0

-- Build

structure BuildState (W : Type) where
  bits : List Bool
  bitsCap : Nat
  hashes : List W
  hashesCap : Nat

section

variable {W : Type} (hashPair : W → W → W) (zero : W)

def calcHash (nTx : UInt32) (txids : List W) : Nat → Nat → W
  | 0, pos => txids.getD pos zero
  | height + 1, pos =>
    let left := calcHash nTx txids height (pos * 2)
    let right :=
      if pos * 2 + 1 < calcTreeWidth nTx height then calcHash nTx txids height (pos * 2 + 1)
      else left
    hashPair left right

def buildAddBit (s : BuildState W) (bit : Bool) : BuildState W :=
  if s.bitsCap ≤ s.bits.length then s else { s with bits := s.bits ++ [bit] }

def buildAddHash (s : BuildState W) (h : W) : BuildState W :=
  if s.hashesCap ≤ s.hashes.length then s else { s with hashes := s.hashes ++ [h] }

/-- Some id below the node is matched. -/
def parentOfMatch (nTx : UInt32) (marks : List Bool) (height pos : Nat) : Bool :=
  (List.range' (pos * 2 ^ height) (2 ^ height)).any fun p =>
    decide (p < nTx.toNat) && marks.getD p false

def traverseAndBuild (nTx : UInt32) (txids : List W) (marks : List Bool)
    : Nat → Nat → BuildState W → BuildState W
  | 0, pos, s =>
    buildAddHash (buildAddBit s (parentOfMatch nTx marks 0 pos))
      (calcHash hashPair zero nTx txids 0 pos)
  | height + 1, pos, s =>
    let parent := parentOfMatch nTx marks (height + 1) pos
    let s := buildAddBit s parent
    if !parent then buildAddHash s (calcHash hashPair zero nTx txids (height + 1) pos)
    else
      let s := traverseAndBuild nTx txids marks height (pos * 2) s
      if pos * 2 + 1 < calcTreeWidth nTx height then
        traverseAndBuild nTx txids marks height (pos * 2 + 1) s
      else s

def merkleTreeBuild (txids : List W) (marks : List Bool) : Option (PartialMerkleTree W) :=
  if txids.length = 0 ∨ txids.length ≠ marks.length ∨ maxMerkleHashes < txids.length then none
  else
    let nTx := UInt32.ofNat txids.length
    let s := traverseAndBuild hashPair zero nTx txids marks (treeHeight nTx) 0
      ⟨[], maxMerkleBits, [], txids.length⟩
    some ⟨nTx, s.bits, s.hashes⟩

-- Extract

/-- What a traversal has read; a matched id is kept with the position of its leaf. -/
structure Extraction (W : Type) where
  bitsUsed : Nat
  hashUsed : Nat
  matched : List (Nat × W)
  bad : Bool

/-- Reads the hash of a node below which the traversal does not go. -/
def extractHash (t : PartialMerkleTree W) (matchedCap : Nat) (isMatch : Bool) (pos : Nat)
    (s : Extraction W) : W × Extraction W :=
  match t.hashes[s.hashUsed]? with
  | none => (zero, { s with bad := true })
  | some h =>
    (h, { s with
      hashUsed := s.hashUsed + 1
      matched := if isMatch && decide (s.matched.length < matchedCap) then s.matched ++ [(pos, h)]
        else s.matched })

variable [DecidableEq W]

def traverseAndExtract (t : PartialMerkleTree W) (matchedCap : Nat)
    : Nat → Nat → Extraction W → W × Extraction W
  | 0, pos, s =>
    match t.bits[s.bitsUsed]? with
    | none => (zero, { s with bad := true })
    | some parent =>
      extractHash zero t matchedCap parent pos { s with bitsUsed := s.bitsUsed + 1 }
  | height + 1, pos, s =>
    match t.bits[s.bitsUsed]? with
    | none => (zero, { s with bad := true })
    | some false =>
      extractHash zero t matchedCap false pos { s with bitsUsed := s.bitsUsed + 1 }
    | some true =>
      let left := traverseAndExtract t matchedCap height (pos * 2)
        { s with bitsUsed := s.bitsUsed + 1 }
      if pos * 2 + 1 < calcTreeWidth t.numTransactions height then
        let right := traverseAndExtract t matchedCap height (pos * 2 + 1) left.2
        (hashPair left.1 right.1,
          { right.2 with bad := right.2.bad || decide (right.1 = left.1) })
      else (hashPair left.1 left.1, left.2)

/-- What an extraction returns. -/
structure Extracted (W : Type) where
  matched : List (Nat × W)
  merkleRoot : W
deriving DecidableEq

def merkleTreeExtract (t : PartialMerkleTree W) : Option (Extracted W) :=
  if t.numTransactions = 0 ∨ t.numTransactions.toNat < t.hashes.length
      ∨ t.bits.length < t.hashes.length then none
  else
    let result := traverseAndExtract hashPair zero t t.numTransactions.toNat
      (treeHeight t.numTransactions) 0 ⟨0, 0, [], false⟩
    if result.2.bad then none
    else if (result.2.bitsUsed + 7) % 2 ^ 32 / 8 ≠ (t.bits.length + 7) / 8 then none
    else if result.2.hashUsed ≠ t.hashes.length then none
    else some ⟨result.2.matched, result.1⟩

def computeMerkleRoot (txids : List W) : W :=
  if txids.length = 0 then zero else rootLoop hashPair zero txids.length txids

end

-- The height of the tree

theorem calcTreeWidth_le_one (n : UInt32) : calcTreeWidth n 31 ≤ 1 := by
  have small : (n.toNat + 2 ^ 31 - 1) % 2 ^ 32 < 2 ^ 32 := Nat.mod_lt _ (by decide)
  rw [calcTreeWidth, Nat.shiftRight_eq_div_pow]
  omega

/-- The first height with one node or none, as the code counts them. -/
structure FirstNarrow (n : UInt32) (start height : Nat) : Prop where
  le : height ≤ 31
  narrow : calcTreeWidth n height ≤ 1
  wide : ∀ below, start ≤ below → below < height → 1 < calcTreeWidth n below

theorem treeHeightLoop_firstNarrow {n : UInt32} {fuel start : Nat} (turns : start + fuel = 31)
    : FirstNarrow n start (treeHeightLoop n fuel start) := by
  induction fuel generalizing start with
  | zero =>
    obtain rfl : start = 31 := turns
    exact ⟨Nat.le_refl 31, calcTreeWidth_le_one n, fun below first later => by
      change below < 31 at later
      omega⟩
  | succ fuel ih =>
    rw [treeHeightLoop]
    split
    · rename_i many
      have rest := @ih (start + 1) (by omega)
      refine ⟨rest.le, rest.narrow, ?_⟩
      intro below first later
      by_cases same : below = start
      · rw [same]
        exact many
      · exact rest.wide below (by omega) later
    · rename_i one
      exact ⟨by omega, Nat.not_lt.mp one, fun below first later => by omega⟩

theorem treeHeight_firstNarrow (n : UInt32) : FirstNarrow n 0 (treeHeight n) :=
  treeHeightLoop_firstNarrow (Nat.zero_add 31)

variable {W : Type} {hashPair : W → W → W} {zero : W} {txids : List W} {n : UInt32}

theorem calcTreeWidth_eq {height : Nat} (count : n.toNat = txids.length)
    (fits : txids.length + 2 ^ height ≤ 2 ^ 32)
    : calcTreeWidth n height = (level hashPair height txids).length := by
  have positive : 0 < 2 ^ height := Nat.two_pow_pos height
  rw [calcTreeWidth, Nat.mod_eq_of_lt (by omega), Nat.shiftRight_eq_div_pow, count, length_level]

theorem calcTreeWidth_eq_of_le {height : Nat} (count : n.toNat = txids.length)
    (few : txids.length ≤ 2 ^ 31) (low : height ≤ 31)
    : calcTreeWidth n height = (level hashPair height txids).length := by
  have power : 2 ^ height ≤ 2 ^ 31 := Nat.pow_le_pow_right (by decide) low
  exact calcTreeWidth_eq count (by omega)

theorem level_treeHeight (zero : W) (count : n.toNat = txids.length) (few : txids.length ≤ 2 ^ 31)
    (nonempty : txids ≠ [])
    : level hashPair (treeHeight n) txids = [computeMerkleRoot hashPair zero txids] := by
  have height := treeHeight_firstNarrow n
  have positive : 0 < txids.length := List.length_pos_of_ne_nil nonempty
  have widths : ∀ h, h ≤ treeHeight n → calcTreeWidth n h = (level hashPair h txids).length :=
    fun h low => calcTreeWidth_eq_of_le count few (Nat.le_trans low height.le)
  have top : (level hashPair (treeHeight n) txids).length ≤ 1 := by
    rw [← widths _ (Nat.le_refl _)]
    exact height.narrow
  have wide : ∀ below, below < treeHeight n → 1 < (level hashPair below txids).length := by
    intro below lower
    rw [← widths below (by omega)]
    exact height.wide below (Nat.zero_le _) lower
  have root := @rootLoop_eq W hashPair txids zero txids.length _ (Nat.le_succ _) wide top
  have filled : 0 < (level hashPair (treeHeight n) txids).length := by
    rw [lt_length_level_iff, Nat.zero_mul]
    exact positive
  obtain ⟨only, single⟩ := List.length_eq_one_iff.mp (show
    (level hashPair (treeHeight n) txids).length = 1 by omega)
  rw [computeMerkleRoot, if_neg (by omega), root, single]
  rfl

-- Turns of a traversal

/-- More flags and hashes read, and more ids found. -/
def Extraction.advance (s : Extraction W) (bits hashes : Nat) (found : List (Nat × W))
    : Extraction W :=
  ⟨s.bitsUsed + bits, s.hashUsed + hashes, s.matched ++ found, s.bad⟩

theorem Extraction.advance_advance (s : Extraction W) (bits hashes bits' hashes' : Nat)
    (found found' : List (Nat × W))
    : (s.advance bits hashes found).advance bits' hashes' found'
        = s.advance (bits + bits') (hashes + hashes') (found ++ found') := by
  simp only [advance, Nat.add_assoc, List.append_assoc]

theorem Extraction.advance_bit (s : Extraction W)
    : { s with bitsUsed := s.bitsUsed + 1 } = s.advance 1 0 [] := by
  simp only [advance, Nat.add_zero, List.append_nil]

theorem getElem?_of_drop {α : Type} {l rest : List α} {i : Nat} {x : α}
    (drop : l.drop i = x :: rest) : l[i]? = some x := by
  rw [← List.head?_drop, drop]
  rfl

theorem drop_past {α : Type} {l front rest : List α} {i : Nat} (drop : l.drop i = front ++ rest)
    : l.drop (i + front.length) = rest := by
  rw [← List.drop_drop, drop, List.drop_left]

section

variable [DecidableEq W] {t : PartialMerkleTree W} {s : Extraction W} {cap height pos : Nat}
  {h : W} {restBits : List Bool} {restHashes : List W}

theorem traverseAndExtract_skip (bit : t.bits.drop s.bitsUsed = false :: restBits)
    (hash : t.hashes.drop s.hashUsed = h :: restHashes)
    : traverseAndExtract hashPair zero t cap height pos s = (h, s.advance 1 1 []) := by
  have skipped : extractHash zero t cap false pos { s with bitsUsed := s.bitsUsed + 1 }
      = (h, s.advance 1 1 []) := by
    simp only [extractHash, getElem?_of_drop hash, Bool.false_and, Bool.false_eq_true, if_false,
      Extraction.advance, List.append_nil]
  cases height with
  | zero =>
    unfold traverseAndExtract
    simp only [getElem?_of_drop bit]
    exact skipped
  | succ height =>
    unfold traverseAndExtract
    simp only [getElem?_of_drop bit]
    exact skipped

section

variable (bit : t.bits.drop s.bitsUsed = true :: restBits)
include bit

theorem traverseAndExtract_leaf (hash : t.hashes.drop s.hashUsed = h :: restHashes)
    (room : s.matched.length < cap)
    : traverseAndExtract hashPair zero t cap 0 pos s = (h, s.advance 1 1 [(pos, h)]) := by
  unfold traverseAndExtract
  simp only [getElem?_of_drop bit, extractHash, getElem?_of_drop hash, room, decide_true,
    Bool.true_and, if_true]
  rfl

theorem traverseAndExtract_pair {left right : W} {middle final : Extraction W}
    (inside : pos * 2 + 1 < calcTreeWidth t.numTransactions height)
    (first : traverseAndExtract hashPair zero t cap height (pos * 2) (s.advance 1 0 []) =
      (left, middle))
    (second : traverseAndExtract hashPair zero t cap height (pos * 2 + 1) middle = (right, final))
    (apart : right ≠ left)
    : traverseAndExtract hashPair zero t cap (height + 1) pos s = (hashPair left right, final) := by
  rw [← Extraction.advance_bit] at first
  unfold traverseAndExtract
  simp only [getElem?_of_drop bit, first, second, if_pos inside, apart, decide_false, Bool.or_false]

theorem traverseAndExtract_single {left : W} {final : Extraction W}
    (outside : ¬ pos * 2 + 1 < calcTreeWidth t.numTransactions height)
    (first : traverseAndExtract hashPair zero t cap height (pos * 2) (s.advance 1 0 []) = (left, final))
    : traverseAndExtract hashPair zero t cap (height + 1) pos s = (hashPair left left, final) := by
  rw [← Extraction.advance_bit] at first
  unfold traverseAndExtract
  simp only [getElem?_of_drop bit, first, if_neg outside]

end

theorem merkleTreeExtract_eq {root : W} {final : Extraction W} (counted : t.numTransactions ≠ 0)
    (few : t.hashes.length ≤ t.numTransactions.toNat) (flags : t.hashes.length ≤ t.bits.length)
    (run : traverseAndExtract hashPair zero t t.numTransactions.toNat
      (treeHeight t.numTransactions) 0 ⟨0, 0, [], false⟩ = (root, final))
    (good : final.bad = false)
    (bits : (final.bitsUsed + 7) % 2 ^ 32 / 8 = (t.bits.length + 7) / 8)
    (hashes : final.hashUsed = t.hashes.length)
    : merkleTreeExtract hashPair zero t = some ⟨final.matched, root⟩ := by
  have sized : ¬ (t.numTransactions = 0 ∨ t.numTransactions.toNat < t.hashes.length
      ∨ t.bits.length < t.hashes.length) := by
    rintro (none | more | fewer)
    · exact counted none
    · omega
    · omega
  unfold merkleTreeExtract
  rw [if_neg sized]
  simp only [run, good, Bool.false_eq_true, if_false, bits, hashes, ne_eq, not_true_eq_false]

end

-- The root in place

theorem parents_eq_merkleLevel (hashPair : Uint256 → Uint256 → Uint256) (txids : List Uint256)
    : parents hashPair txids = (Validation.merkleLevel hashPair txids).1 := by
  fun_induction Validation.merkleLevel hashPair txids with
  | case1 => rfl
  | case2 => rfl
  | case3 => rfl
  | case4 left right next rest above mutated equation ih =>
    rw [equation] at ih
    rw [parents, ih]

theorem computeMerkleRoot_eq_overwriting (hashPair : Uint256 → Uint256 → Uint256)
    (txids : List Uint256)
    : computeMerkleRoot hashPair (.fill 0) txids
        = (Validation.merkleRootOverwriting hashPair txids).1 := by
  have climb : ∀ (fuel : Nat) (level : List Uint256) (mutated : Bool),
      rootLoop hashPair (.fill 0) fuel level
        = (Validation.merkleLevels hashPair fuel level mutated).1 := by
    intro fuel
    induction fuel with
    | zero =>
      intro level mutated
      match level with
      | [] => rfl
      | [root] => rfl
      | root :: next :: rest => rfl
    | succ fuel ih =>
      intro level mutated
      match level with
      | [] => rfl
      | [root] => rfl
      | root :: next :: rest =>
        rw [rootLoop, if_neg (by simp), parents_eq_merkleLevel]
        exact ih _ _
  rw [Validation.merkleRootOverwriting_eq, computeMerkleRoot]
  split
  · rename_i empty
    rw [List.length_eq_zero_iff.mp empty]
    rfl
  · exact climb txids.length txids false

end Z23.Bloom
