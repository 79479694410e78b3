import Z23.Bloom.Merkle

/-!
What an extracted id shows. A traversal that ends at the root of a list of ids has followed the tree
over the list, so that its leaves are the ids; but only as long as the 32 bits of the width do not
wrap, for the height is then too small and inner nodes of the tree pass for ids.
-/

namespace Z23.Bloom

open Z23.Lib.PairTree

variable {W : Type} [DecidableEq W] {hashPair : W → W → W} {zero : W} {txids : List W}

/-- The hash of a pair names its parts. -/
def PairInjective (hashPair : W → W → W) : Prop :=
  ∀ a b c d, hashPair a b = hashPair c d → a = c ∧ b = d

-- A traversal along the tree

variable {t : PartialMerkleTree W}

omit [DecidableEq W] in
theorem extractHash_matched {cap pos : Nat} {isMatch : Bool} {s : Extraction W} {item : Nat × W}
    (member : item ∈ (extractHash zero t cap isMatch pos s).2.matched)
    : item ∈ s.matched
      ∨ isMatch = true ∧ item = (pos, (extractHash zero t cap isMatch pos s).1) := by
  unfold extractHash at member ⊢
  split at member
  · exact .inl member
  · rename_i h found
    simp only at member ⊢
    split at member
    · rename_i room
      rcases List.mem_append.mp member with earlier | last
      · exact .inl earlier
      · rw [Bool.and_eq_true] at room
        exact .inr ⟨room.1, List.mem_singleton.mp last⟩
    · exact .inl member

/-- A traversal that returns a node of the tree finds only ids at their positions below it. -/
theorem traverseAndExtract_sound (inj : PairInjective hashPair)
    (count : t.numTransactions.toNat = txids.length) (few : txids.length ≤ 2 ^ 31) (cap : Nat)
    {height : Nat} (low : height ≤ 32) {pos : Nat} {s : Extraction W}
    (node : (level hashPair height txids)[pos]? =
      some (traverseAndExtract hashPair zero t cap height pos s).1)
    : ∀ item ∈ (traverseAndExtract hashPair zero t cap height pos s).2.matched,
        item ∈ s.matched ∨ txids[item.1]? = some item.2 := by
  induction height generalizing pos s with
  | zero =>
    intro item member
    unfold traverseAndExtract at member node
    split at member
    · exact .inl member
    · rename_i parent bit
      simp only [bit] at node
      rcases extractHash_matched member with earlier | ⟨-, rfl⟩
      · exact .inl earlier
      · exact .inr node
  | succ height ih =>
    intro item member
    unfold traverseAndExtract at member node
    split at member
    · exact .inl member
    · rcases extractHash_matched member with earlier | ⟨never, -⟩
      · exact .inl earlier
      · cases never
    · rename_i bit
      simp only [bit] at node
      have width : calcTreeWidth t.numTransactions height
          = (level hashPair height txids).length :=
        calcTreeWidth_eq_of_le count few (by omega)
      obtain ⟨x, left, same⟩ := level_succ_get node
      split at member
      · rename_i inside
        rw [if_pos inside] at same
        rw [width] at inside
        rw [List.getElem?_eq_getElem inside, Option.getD_some] at same
        obtain ⟨sameLeft, sameRight⟩ := inj _ _ _ _ same
        rw [← sameLeft] at left
        have right := List.getElem?_eq_getElem inside
        rw [← sameRight] at right
        rcases ih (by omega) right item member with earlier | found
        · exact ih (by omega) left item earlier
        · exact .inr found
      · rename_i outside
        rw [if_neg outside] at same
        obtain ⟨sameLeft, -⟩ := inj _ _ _ _ same
        rw [← sameLeft] at left
        exact ih (by omega) left item member

-- Soundness

/--
Every tree with a number of transactions whose extraction ends at the root of a list of as many ids
has ids of the list only, each at the position of its leaf.
-/
def ExtractsIds (n : UInt32) : Prop :=
  ∀ (W : Type) [DecidableEq W] (hashPair : W → W → W) (zero : W), PairInjective hashPair →
    ∀ (txids : List W), (∀ a b, hashPair a b ∉ txids) → txids.length = n.toNat →
    ∀ (t : PartialMerkleTree W) (extracted : Extracted W), t.numTransactions = n →
      merkleTreeExtract hashPair zero t = some extracted →
      extracted.merkleRoot = computeMerkleRoot hashPair zero txids →
        ∀ item ∈ extracted.matched, txids[item.1]? = some item.2

theorem merkleTreeExtract_some {extracted : Extracted W}
    (accepted : merkleTreeExtract hashPair zero t = some extracted)
    : t.numTransactions ≠ 0
      ∧ extracted.merkleRoot = (traverseAndExtract hashPair zero t t.numTransactions.toNat
          (treeHeight t.numTransactions) 0 ⟨0, 0, [], false⟩).1
      ∧ extracted.matched = (traverseAndExtract hashPair zero t t.numTransactions.toNat
          (treeHeight t.numTransactions) 0 ⟨0, 0, [], false⟩).2.matched := by
  unfold merkleTreeExtract at accepted
  split at accepted
  · cases accepted
  · rename_i sized
    simp only at accepted
    split at accepted
    · cases accepted
    · split at accepted
      · cases accepted
      · split at accepted
        · cases accepted
        · cases accepted
          exact ⟨fun none => sized (.inl none), rfl, rfl⟩

theorem extractsIds_of_le {n : UInt32} (few : n.toNat ≤ 2 ^ 31) : ExtractsIds n := by
  rintro W _ hashPair zero inj txids - count t extracted rfl accepted root item member
  obtain ⟨counted, sameRoot, sameMatched⟩ := merkleTreeExtract_some accepted
  have nonempty : txids ≠ [] := by
    intro none
    apply counted
    rw [none] at count
    exact UInt32.toNat_inj.mp count.symm
  have height := treeHeight_firstNarrow t.numTransactions
  have top := @level_treeHeight W hashPair txids t.numTransactions zero count.symm
    (by rw [count]; exact few) nonempty
  rw [sameMatched] at member
  have found := traverseAndExtract_sound inj count.symm (by rw [count]; exact few) _
    (Nat.le_succ_of_le height.le) (by rw [top, ← root, sameRoot]; rfl) item member
  rcases found with nothing | here
  · cases nothing
  · exact here

-- Too many ids

/-- Ids, and pairs of hashes that are never ids. -/
inductive IdTree where
  | id (k : Nat)
  | pair (left right : IdTree)
deriving DecidableEq

namespace IdTree

def first : IdTree → Nat
  | id k => k
  | pair left _ => left.first

def ids (count : Nat) : List IdTree := (List.range count).map id

theorem pairInjective : PairInjective pair := by
  intro a b c d same
  exact pair.inj same

theorem pair_notMem_ids (count : Nat) (a b : IdTree) : pair a b ∉ ids count := by
  intro member
  obtain ⟨k, -, same⟩ := List.mem_map.mp member
  cases same

theorem first_level {count h pos : Nat} {v : IdTree}
    (found : (level pair h (ids count))[pos]? = some v) : v.first = pos * 2 ^ h := by
  induction h generalizing pos v with
  | zero =>
    rw [level, ids, List.getElem?_map] at found
    obtain ⟨k, place, rfl⟩ := Option.map_eq_some_iff.mp found
    obtain ⟨-, rfl⟩ := List.getElem?_eq_some_iff.mp place
    rw [List.getElem_range, Nat.pow_zero, Nat.mul_one]
    rfl
  | succ h ih =>
    obtain ⟨x, left, rfl⟩ := level_succ_get found
    rw [first, ih left, Nat.pow_succ]
    ring

end IdTree

/-- The two first nodes of the levels up to a height, and the first one there. -/
structure Spine (xs : List IdTree) (top : Nat) (lefts rights : Nat → IdTree) : Prop where
  left : ∀ h, h ≤ top → (level .pair h xs)[0]? = some (lefts h)
  right : ∀ h, h < top → (level .pair h xs)[1]? = some (rights h)
  apart : ∀ h, h < top → rights h ≠ lefts h

theorem Spine.pair {xs : List IdTree} {top h : Nat} {lefts rights : Nat → IdTree}
    (spine : Spine xs top lefts rights) (low : h < top)
    : lefts (h + 1) = .pair (lefts h) (rights h) := by
  obtain ⟨x, left, parent⟩ := level_succ_get (spine.left (h + 1) low)
  rw [Nat.zero_mul] at left parent
  rw [spine.left h (Nat.le_of_lt low)] at left
  obtain rfl := Option.some.inj left
  rw [parent, Nat.zero_add, spine.right h low]
  rfl

/-- The flags and hashes of the path from the first node of a level up. -/
def forgedBits : Nat → List Bool
  | 0 => [true]
  | height + 1 => true :: (forgedBits height ++ [false])

def forgedHashes (lefts rights : Nat → IdTree) (start : Nat) : Nat → List IdTree
  | 0 => [lefts start]
  | height + 1 => forgedHashes lefts rights start height ++ [rights (start + height)]

theorem length_forgedBits (height : Nat) : (forgedBits height).length = 2 * height + 1 := by
  induction height with
  | zero => rfl
  | succ height ih =>
    rw [forgedBits, List.length_cons, List.length_append, ih, List.length_singleton]
    omega

theorem length_forgedHashes (lefts rights : Nat → IdTree) (start height : Nat)
    : (forgedHashes lefts rights start height).length = height + 1 := by
  induction height with
  | zero => rfl
  | succ height ih => rw [forgedHashes, List.length_append, ih, List.length_singleton]

theorem traverseAndExtract_forged {xs : List IdTree} {lefts rights : Nat → IdTree} {start top : Nat}
    {t : PartialMerkleTree IdTree} {zero : IdTree} {cap : Nat}
    (spine : Spine xs (start + top) lefts rights)
    (wide : ∀ height, height < top → 1 < calcTreeWidth t.numTransactions height) {height : Nat}
    (low : height ≤ top) {s : Extraction IdTree} {restBits : List Bool} {restHashes : List IdTree}
    (bits : t.bits.drop s.bitsUsed = forgedBits height ++ restBits)
    (hashes : t.hashes.drop s.hashUsed = forgedHashes lefts rights start height ++ restHashes)
    (room : s.matched.length < cap)
    : traverseAndExtract .pair zero t cap height 0 s
        = (lefts (start + height), s.advance (2 * height + 1) (height + 1) [(0, lefts start)]) := by
  induction height generalizing s restBits restHashes with
  | zero => exact traverseAndExtract_leaf bits hashes room
  | succ height ih =>
    have here : t.bits.drop s.bitsUsed = true :: (forgedBits height ++ (false :: restBits)) := by
      simpa [forgedBits] using bits
    have lower : t.hashes.drop s.hashUsed
        = forgedHashes lefts rights start height ++ (rights (start + height) :: restHashes) := by
      simpa [forgedHashes] using hashes
    have bitsAfter : t.bits.drop (s.advance 1 0 []).bitsUsed
        = forgedBits height ++ (false :: restBits) :=
      drop_past (show t.bits.drop s.bitsUsed = [true] ++ _ from here)
    have bitsLast := drop_past bitsAfter
    have hashesLast := drop_past lower
    rw [length_forgedBits, Extraction.advance, Nat.add_assoc] at bitsLast
    rw [length_forgedHashes] at hashesLast
    have leftRun := @ih (Nat.le_of_succ_le low) (s.advance 1 0 []) _ _ bitsAfter lower
      (by simpa [Extraction.advance] using room)
    rw [Extraction.advance_advance] at leftRun
    have rightRun : traverseAndExtract .pair zero t cap height (0 * 2 + 1)
          (s.advance (1 + (2 * height + 1)) (0 + (height + 1)) [(0, lefts start)])
        = (rights (start + height), s.advance (2 * (height + 1) + 1) (height + 1 + 1)
            [(0, lefts start)]) := by
      rw [traverseAndExtract_skip bitsLast (by simpa [Extraction.advance] using hashesLast),
        Extraction.advance_advance]
      congr 2
      · omega
      · omega
    rw [traverseAndExtract_pair here (wide height low) leftRun rightRun
      (spine.apart _ (by omega))]
    exact congrArg (·, _) (spine.pair (by omega)).symm

theorem ids_spine {count : Nat} (many : 2 ^ 31 < count) (fits : count < 2 ^ 32)
    : ∃ lefts rights, Spine (IdTree.ids count) 32 lefts rights
      ∧ ∀ zero, computeMerkleRoot .pair zero (IdTree.ids count) = lefts 32 := by
  have size : (IdTree.ids count).length = count := by
    rw [IdTree.ids, List.length_map, List.length_range]
  have wide : ∀ h, h < 32 → 1 < (level IdTree.pair h (IdTree.ids count)).length := by
    intro h low
    have power : 2 ^ h ≤ 2 ^ 31 := Nat.pow_le_pow_right (by decide) (by omega)
    rw [lt_length_level_iff, size]
    omega
  have filled : ∀ h, 0 < (level IdTree.pair h (IdTree.ids count)).length := by
    intro h
    rw [lt_length_level_iff, size]
    omega
  have top : (level IdTree.pair 32 (IdTree.ids count)).length ≤ 1 := by
    rw [← Nat.not_lt, lt_length_level_iff, size]
    omega
  let lefts : Nat → IdTree := fun h => (level .pair h (IdTree.ids count)).getD 0 (.id 0)
  let rights : Nat → IdTree := fun h => (level .pair h (IdTree.ids count)).getD 1 (.id 0)
  have left : ∀ h, (level .pair h (IdTree.ids count))[0]? = some (lefts h) := by
    intro h
    rw [List.getElem?_eq_getElem (filled h)]
    exact congrArg some (List.getElem_eq_getD _)
  have right : ∀ h, h < 32 → (level .pair h (IdTree.ids count))[1]? = some (rights h) := by
    intro h low
    rw [List.getElem?_eq_getElem (wide h low)]
    exact congrArg some (List.getElem_eq_getD _)
  refine ⟨lefts, rights, ⟨fun h _ => left h, right, ?_⟩, ?_⟩
  · intro h low same
    have place := IdTree.first_level (right h low)
    rw [same, IdTree.first_level (left h)] at place
    have positive : 0 < 2 ^ h := Nat.two_pow_pos h
    omega
  · intro zero
    have root := @rootLoop_eq IdTree .pair (IdTree.ids count) zero (IdTree.ids count).length 32
      (Nat.le_succ _) wide top
    rw [computeMerkleRoot, if_neg (by omega), root]
    have head := left 32
    cases only : level IdTree.pair 32 (IdTree.ids count) with
    | nil =>
      rw [only] at head
      cases head
    | cons first rest =>
      rw [only] at head
      exact Option.some.inj head

theorem not_extractsIds_of_wrap {n : UInt32} (many : 2 ^ 31 < n.toNat) : ¬ ExtractsIds n := by
  intro sound
  obtain ⟨lefts, rights, spine, root⟩ := ids_spine many n.toNat_lt
  have height := treeHeight_firstNarrow n
  obtain ⟨start, total⟩ : ∃ start, 32 = start + treeHeight n := ⟨32 - treeHeight n, by
    have bound := height.le
    omega⟩
  rw [total] at spine root
  let t : PartialMerkleTree IdTree :=
    ⟨n, forgedBits (treeHeight n), forgedHashes lefts rights start (treeHeight n)⟩
  have bound := height.le
  have bits : t.bits.length = 2 * treeHeight n + 1 := length_forgedBits _
  have hashes : t.hashes.length = treeHeight n + 1 := length_forgedHashes _ _ _ _
  have positive : 0 < n.toNat := Nat.lt_trans (Nat.two_pow_pos 31) many
  have run : traverseAndExtract .pair (.id 0) t t.numTransactions.toNat
      (treeHeight t.numTransactions) 0 ⟨0, 0, [], false⟩ = _ :=
    traverseAndExtract_forged spine (fun below lower => height.wide below (Nat.zero_le _) lower)
      (Nat.le_refl _) (List.append_nil _).symm (List.append_nil _).symm positive
  have accepted := merkleTreeExtract_eq
    (by
      intro none
      change n = 0 at none
      rw [none] at positive
      cases positive)
    (by
      rw [hashes]
      change _ ≤ n.toNat
      omega)
    (by omega) run rfl
    (by
      rw [bits]
      change (0 + (2 * treeHeight n + 1) + 7) % 2 ^ 32 / 8 = _
      omega)
    (by
      rw [hashes]
      exact Nat.zero_add _)
  have found := sound IdTree .pair (.id 0) IdTree.pairInjective (IdTree.ids n.toNat)
    (IdTree.pair_notMem_ids _) (by rw [IdTree.ids, List.length_map, List.length_range]) t _ rfl
    accepted (root _).symm (0, lefts start) (List.mem_singleton_self _)
  obtain ⟨below, rfl⟩ : ∃ below, start = below + 1 := ⟨start - 1, by omega⟩
  simp only [spine.pair (show below < _ by omega)] at found
  exact IdTree.pair_notMem_ids _ _ _ (List.mem_of_getElem? found)

/-- Extracted ids are ids of the list exactly for counts whose widths do not wrap. -/
theorem extractsIds_iff (n : UInt32) : ExtractsIds n ↔ n.toNat ≤ 2 ^ 31 := by
  constructor
  · intro sound
    by_contra many
    exact not_extractsIds_of_wrap (Nat.lt_of_not_le many) sound
  · intro few
    exact extractsIds_of_le few

/-- For the largest count a single pair of inner nodes passes for all ids. -/
theorem not_extractsIds_max : ¬ ExtractsIds 0xffffffff :=
  not_extractsIds_of_wrap (by decide)

end Z23.Bloom
