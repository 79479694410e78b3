import Z23.Crypto.EquihashPack
import Z23.Lib.WagnerTree

/-!
The verifier accepts the packed solutions of the generalized birthday problem. A row of round `r`
is the image of a block of `2 ^ r` indices.
-/

namespace Z23.Crypto

open Z23.Lib.BitGroups
open Z23.Lib.WagnerTree

-- Parameters and states

/-- The parameter sets of the consensus rules. -/
inductive EquihashPair where
  | n200k9
  | n192k7
  | n96k5
  | n48k5
deriving DecidableEq, Repr

def EquihashPair.params : EquihashPair → EquihashParams
  | .n200k9 => equihashParamsInit 200 9
  | .n192k7 => equihashParamsInit 192 7
  | .n96k5 => equihashParamsInit 96 5
  | .n48k5 => equihashParamsInit 48 5

/-- What the verifier needs of its parameters. -/
structure EquihashParams.Sound (p : EquihashParams) : Prop where
  long : 8 ≤ p.collisionBitLength
  short : p.collisionBitLength ≤ 24
  byteLength : p.collisionByteLength = (p.collisionBitLength + 7) / 8
  hashLength : p.hashLength = (p.k + 1) * p.collisionByteLength
  bits : p.n = p.collisionBitLength * (p.k + 1)
  bytes : 8 * (p.n / 8) = p.n
  outputs : 0 < p.indicesPerHashOutput
  output : p.hashOutput = p.indicesPerHashOutput * (p.n / 8)
  digest : p.hashOutput ≤ 64
  solution : 8 * p.solutionWidth = (p.collisionBitLength + 1) * 2 ^ p.k

theorem EquihashPair.sound (pair : EquihashPair) : pair.params.Sound := by
  cases pair
  all_goals constructor <;> decide

/-- A state for the index hashes: initialised for the parameters and fed the header. -/
structure BaseState (p : EquihashParams) where
  ctx : Blake2bCtx
  bytes : Nat
  fed : ctx.Fed bytes
  fits : bytes + 4 < 2 ^ 64
  outlen : ctx.outlen = p.hashOutput

/-- The state after initialisation and the input. -/
def BaseState.ofInput (pair : EquihashPair) (input : List UInt8)
    (fits : input.length + 4 < 2 ^ 64) : BaseState pair.params where
  ctx := blake2bUpdate (equihashInitialiseState pair.params) input
  bytes := 0 + input.length
  fed := by
    have empty : (equihashInitialiseState pair.params).Fed 0 := ⟨rfl, rfl, Nat.zero_le _⟩
    exact (empty.update (by omega)).1
  fits := by omega
  outlen := by
    have empty : (equihashInitialiseState pair.params).Fed 0 := ⟨rfl, rfl, Nat.zero_le _⟩
    rw [(empty.update (by omega)).2]
    cases pair <;> rfl

theorem length_digest {length : Nat} (short : length ≤ 64) (ctx : Blake2bCtx)
    : (digest ctx length).length = length := by
  have words : (ctx.h.toList.flatMap fun word => Lib.Bytes.bytesLE 8 word.toNat).length = 64 := by
    simp [List.length_flatMap]
  rw [digest, List.length_take, words, min_eq_left short]

theorem length_generateHash {p : EquihashParams} (sound : p.Sound) (base : BaseState p)
    (g : UInt32) : (generateHash base.ctx g p.hashOutput).length = p.hashOutput := by
  have outlen : (blake2bUpdate base.ctx (indexBytes g)).outlen = p.hashOutput := by
    rw [(base.fed.update (by rw [indexBytes, Lib.Bytes.length_bytesLE]; exact base.fits)).2,
      base.outlen]
  rw [generateHash, hashScalar, blake2bFinal, List.length_replicate, outlen,
    if_neg (lt_irrefl _), List.length_append, length_digest sound.digest]
  simp

-- Solutions

section

variable (p : EquihashParams) (base : Blake2bCtx)

/-- The bytes of an index in the hash that it shares with others. -/
def indexHashBytes (i : Nat) : List UInt8 :=
  ((generateHash base (UInt32.ofNat (i / p.indicesPerHashOutput)) p.hashOutput).drop
    (i % p.indicesPerHashOutput * p.n / 8)).take (p.n / 8)

/-- The hash of an index as a number of `n` bits. -/
def indexHash (i : Nat) : Nat := natBE (indexHashBytes p base i)

/-- A collision chunk of a hash, counted from its first bit. -/
def collisionChunk (place hash : Nat) : Nat := group p.collisionBitLength p.n hash place

def xorHash (is : List Nat) : Nat := (is.map (indexHash p base)).foldr (· ^^^ ·) 0

/-- The indices that a solution packs. -/
def packedIndices (soln : List UInt8) : List Nat :=
  groups (p.collisionBitLength + 1) (8 * soln.length) (natBE soln)

/-- The conditions of a solution of the generalized birthday problem. -/
structure WagnerSolution (is : List Nat) : Prop where
  length : is.length = 2 ^ p.k
  ordered : ∀ r < p.k, ∀ place < 2 ^ (p.k - (r + 1)), HalvesOrdered r (block is (r + 1) place)
  distinct : is.Nodup
  collides : ∀ r ≤ p.k, ∀ place < 2 ^ (p.k - r), ∀ c < r,
    collisionChunk p c (xorHash p base (block is r place)) = 0
  zero : xorHash p base is = 0

def hashChunk (place i : Nat) : Nat := collisionChunk p place (indexHash p base i)

end

theorem collisionChunk_xorHash (p : EquihashParams) (base : Blake2bCtx) (place : Nat)
    (is : List Nat)
    : collisionChunk p place (xorHash p base is) = xorChunk (hashChunk p base) place is := by
  induction is with
  | nil => exact group_zero _ _ _
  | cons i is ih =>
    simp only [xorHash, xorChunk, List.map_cons, List.foldr_cons] at ih ⊢
    rw [← ih, hashChunk, collisionChunk, collisionChunk, group_xor]
    rfl

theorem wagnerSolution_iff {p : EquihashParams} {base : Blake2bCtx} {is : List Nat}
    : WagnerSolution p base is
        ↔ IsTree (hashChunk p base) p.k is ∧ xorHash p base is = 0 := by
  rw [isTree_iff_isSolution]
  constructor
  · intro solution
    refine ⟨⟨solution.length, solution.ordered, solution.distinct, ?_⟩, solution.zero⟩
    intro r low place below c within
    rw [← collisionChunk_xorHash]
    exact solution.collides r low place below c within
  · rintro ⟨solution, zero⟩
    refine ⟨solution.length, solution.ordered, solution.distinct, ?_, zero⟩
    intro r low place below c within
    rw [collisionChunk_xorHash]
    exact solution.collides r low place below c within

-- Rows of blocks

section

variable (p : EquihashParams) (base : Blake2bCtx)

/-- The chunks of a block that are left in round `r`. -/
def rowHash (r : Nat) (is : List Nat) : List UInt8 :=
  (List.range' r (p.k + 1 - r)).flatMap fun place =>
    bytesBE p.collisionByteLength (xorChunk (hashChunk p base) place is)

def indexData (is : List Nat) : List UInt8 := is.flatMap (bytesBE 4)

def rowOf (r : Nat) (is : List Nat) : EhRow := ⟨rowHash p base r is ++ indexData is⟩

def levelHashLen (r : Nat) : Nat := (p.k + 1 - r) * p.collisionByteLength

end

variable {p : EquihashParams} {base : Blake2bCtx}

@[simp]
theorem length_rowHash (r : Nat) (is : List Nat)
    : (rowHash p base r is).length = levelHashLen p r := by
  simp [rowHash, levelHashLen, List.length_flatMap]

@[simp]
theorem length_indexData (is : List Nat) : (indexData is).length = 4 * is.length := by
  simp [indexData, List.length_flatMap, Nat.mul_comm]

variable {r : Nat}

theorem rowHash_succ (low : r ≤ p.k) (is : List Nat)
    : rowHash p base r is
        = bytesBE p.collisionByteLength (xorChunk (hashChunk p base) r is)
          ++ rowHash p base (r + 1) is := by
  rw [rowHash, show p.k + 1 - r = p.k + 1 - (r + 1) + 1 by omega, List.range'_succ,
    List.flatMap_cons, rowHash]

theorem rowOf_indices (r : Nat) {is : List Nat} {length : Nat} (size : length = 4 * is.length)
    : (rowOf p base r is).slice (levelHashLen p r) length = indexData is := by
  subst size
  rw [EhRow.slice, rowOf, ← @length_rowHash p base r is, List.drop_left,
    ← length_indexData, List.take_length]

theorem rowOf_index (r : Nat) (is : List Nat) {place : Nat} (within : place < is.length)
    : (rowOf p base r is).slice (levelHashLen p r + 4 * place) 4
        = bytesBE 4 (is.get ⟨place, within⟩) := by
  rw [EhRow.slice, rowOf, ← @length_rowHash p base r is, List.drop_length_add_append]
  exact slice_flatMap (length_bytesBE 4) is within

theorem rowOf_first (low : r ≤ p.k) (is : List Nat)
    : (rowOf p base r is).slice 0 p.collisionByteLength
        = bytesBE p.collisionByteLength (xorChunk (hashChunk p base) r is) := by
  rw [EhRow.slice, List.drop_zero, rowOf, rowHash_succ low, List.append_assoc]
  exact List.take_left' (length_bytesBE _ _)

theorem levelHashLen_succ (low : r ≤ p.k)
    : levelHashLen p r - p.collisionByteLength = levelHashLen p (r + 1) := by
  rw [levelHashLen, levelHashLen, show p.k + 1 - r = p.k + 1 - (r + 1) + 1 by omega,
    Nat.succ_mul, Nat.add_sub_cancel]

theorem rowOf_rest (low : r ≤ p.k) (is : List Nat)
    : (rowOf p base r is).slice p.collisionByteLength
          (levelHashLen p r - p.collisionByteLength)
        = rowHash p base (r + 1) is := by
  rw [EhRow.slice, rowOf, rowHash_succ low, List.append_assoc,
    List.drop_left' (length_bytesBE _ _), levelHashLen_succ low]
  exact List.take_left' (length_rowHash _ _)

theorem zipWith_flatMap {α : Type} (op : UInt8 → UInt8 → UInt8) {f g : α → List UInt8}
    (size : ∀ value, (f value).length = (g value).length) (values : List α)
    : List.zipWith op (values.flatMap f) (values.flatMap g)
        = values.flatMap fun value => List.zipWith op (f value) (g value) := by
  induction values with
  | nil => rfl
  | cons value values ih =>
    rw [List.flatMap_cons, List.flatMap_cons, List.zipWith_append (size value), ih,
      List.flatMap_cons]

theorem zipWith_rowHash (r : Nat) (a b : List Nat)
    : List.zipWith (· ^^^ ·) (rowHash p base r a) (rowHash p base r b)
        = rowHash p base r (a ++ b) := by
  rw [rowHash, rowHash, zipWith_flatMap _ (fun place => by simp), rowHash]
  refine congrArg (List.flatMap · _) (funext fun place => ?_)
  rw [zipWith_xor_bytesBE, xorChunk_append]

theorem xorChunk_fits (sound : p.Sound) (place : Nat) (is : List Nat)
    : xorChunk (hashChunk p base) place is < 256 ^ p.collisionByteLength := by
  have low : xorChunk (hashChunk p base) place is < 2 ^ p.collisionBitLength := by
    induction is with
    | nil => exact Nat.two_pow_pos _
    | cons i is ih => exact Nat.xor_lt_two_pow (group_lt _ _ _ _) ih
  rw [sound.byteLength]
  exact lt_of_lt_of_le low (two_pow_le_bytes _)

-- A pair of rows

/-- A block whose indices fit their four bytes. -/
structure IsBlock (p : EquihashParams) (base : Blake2bCtx) (r : Nat) (is : List Nat) : Prop where
  tree : IsTree (hashChunk p base) r is
  fits : ∀ i ∈ is, i < 256 ^ 4

theorem IsBlock.length {is : List Nat} (isBlock : IsBlock p base r is)
    : is.length = 2 ^ r := isBlock.tree.length

theorem IsBlock.join {r : Nat} {a b : List Nat} (isA : IsBlock p base r a)
    (isB : IsBlock p base r b) (joins : Joins (hashChunk p base) r a b)
    : IsBlock p base (r + 1) (a ++ b) where
  tree := .join isA.tree isB.tree joins
  fits := by
    intro i member
    rcases List.mem_append.mp member with member | member
    · exact isA.fits i member
    · exact isB.fits i member

theorem rowHasCollision_iff (sound : p.Sound) (low : r ≤ p.k) (a b : List Nat)
    : ehRowHasCollision (rowOf p base r a) (rowOf p base r b) p.collisionByteLength = true
        ↔ xorChunk (hashChunk p base) r a = xorChunk (hashChunk p base) r b := by
  rw [ehRowHasCollision, rowOf_first low, rowOf_first low, beq_iff_eq]
  constructor
  · exact bytesBE_inj (xorChunk_fits sound r a) (xorChunk_fits sound r b)
  · intro same
    rw [same]

theorem rowDistinctIndices_iff {a b : List Nat} (isA : IsBlock p base r a)
    (isB : IsBlock p base r b)
    : ehRowDistinctIndices (rowOf p base r a) (rowOf p base r b) (levelHashLen p r) (4 * 2 ^ r)
          = true
        ↔ a.Disjoint b := by
  have places : (4 * 2 ^ r + 3) / 4 = 2 ^ r := by omega
  simp only [ehRowDistinctIndices, places, List.all_eq_true, List.mem_range, bne_iff_ne]
  constructor
  · intro all i inA inB
    obtain ⟨atA, rfl⟩ := List.mem_iff_get.mp inA
    obtain ⟨atB, same⟩ := List.mem_iff_get.mp inB
    refine all atA.val (isA.length ▸ atA.isLt) atB.val (isB.length ▸ atB.isLt) ?_
    rw [rowOf_index r a atA.isLt, rowOf_index r b atB.isLt]
    exact congrArg _ same.symm
  · intro disjoint atA belowA atB belowB same
    rw [← isA.length] at belowA
    rw [← isB.length] at belowB
    rw [rowOf_index r a belowA, rowOf_index r b belowB] at same
    have equal := bytesBE_inj (isA.fits _ (List.get_mem a ⟨atA, belowA⟩))
      (isB.fits _ (List.get_mem b ⟨atB, belowB⟩)) same
    exact disjoint (List.get_mem a ⟨atA, belowA⟩) (equal ▸ List.get_mem b ⟨atB, belowB⟩)

theorem rowIndicesBefore_of_lt {a b : List Nat} (isA : IsBlock p base r a)
    (isB : IsBlock p base r b) {first second : Nat} (isFirst : a.head? = some first)
    (isSecond : b.head? = some second) (less : first < second)
    : ehRowIndicesBefore (rowOf p base r a) (rowOf p base r b) (levelHashLen p r) (4 * 2 ^ r)
        = true := by
  rw [ehRowIndicesBefore, rowOf_indices r (by rw [isA.length]),
    rowOf_indices r (by rw [isB.length])]
  obtain ⟨aRest, rfl⟩ := List.head?_eq_some_iff.mp isFirst
  obtain ⟨bRest, rfl⟩ := List.head?_eq_some_iff.mp isSecond
  refine memcmpLt_of_natBE (by simp) ?_ _ _
  rw [natBE_bytesBE (isA.fits first List.mem_cons_self),
    natBE_bytesBE (isB.fits second List.mem_cons_self)]
  exact less

theorem IsBlock.head {is : List Nat} (isBlock : IsBlock p base r is)
    : ∃ first, is.head? = some first ∧ first ∈ is := by
  cases is with
  | nil =>
    have length := isBlock.length
    have positive := Nat.two_pow_pos r
    rw [List.length_nil] at length
    omega
  | cons first rest => exact ⟨first, rfl, List.mem_cons_self⟩

theorem rowIndicesBefore_cases {a b : List Nat} (isA : IsBlock p base r a)
    (isB : IsBlock p base r b) (disjoint : a.Disjoint b)
    : ((∀ first ∈ a.head?, ∀ second ∈ b.head?, first < second)
        ∧ ehRowIndicesBefore (rowOf p base r a) (rowOf p base r b) (levelHashLen p r) (4 * 2 ^ r)
          = true
        ∧ ehRowIndicesBefore (rowOf p base r b) (rowOf p base r a) (levelHashLen p r) (4 * 2 ^ r)
          = false)
      ∨ (∀ first ∈ b.head?, ∀ second ∈ a.head?, first < second)
        ∧ ehRowIndicesBefore (rowOf p base r a) (rowOf p base r b) (levelHashLen p r) (4 * 2 ^ r)
          = false
        ∧ ehRowIndicesBefore (rowOf p base r b) (rowOf p base r a) (levelHashLen p r) (4 * 2 ^ r)
          = true := by
  obtain ⟨first, isFirst, inA⟩ := isA.head
  obtain ⟨second, isSecond, inB⟩ := isB.head
  have different : first ≠ second := by
    rintro rfl
    exact disjoint inA inB
  rcases lt_or_gt_of_ne different with less | more
  · have before := rowIndicesBefore_of_lt isA isB isFirst isSecond less
    refine .inl ⟨?_, before, memcmpLt_asymm before⟩
    simp [isFirst, isSecond, less]
  · have before := rowIndicesBefore_of_lt isB isA isSecond isFirst more
    refine .inr ⟨?_, memcmpLt_asymm before, before⟩
    simp [isFirst, isSecond, more]

theorem pairPasses_iff (sound : p.Sound) (low : r ≤ p.k) {a b : List Nat} (isA : IsBlock p base r a)
    (isB : IsBlock p base r b)
    : ehRowHasCollision (rowOf p base r a) (rowOf p base r b) p.collisionByteLength = true
        ∧ ehRowIndicesBefore (rowOf p base r b) (rowOf p base r a) (levelHashLen p r) (4 * 2 ^ r)
          = false
        ∧ ehRowDistinctIndices (rowOf p base r a) (rowOf p base r b) (levelHashLen p r) (4 * 2 ^ r)
          = true
      ↔ Joins (hashChunk p base) r a b := by
  rw [rowHasCollision_iff sound low, rowDistinctIndices_iff isA isB]
  constructor
  · rintro ⟨collide, notBefore, disjoint⟩
    rcases rowIndicesBefore_cases isA isB disjoint with ⟨ordered, -, -⟩ | ⟨-, -, before⟩
    · exact ⟨ordered, disjoint, collide⟩
    · rw [before] at notBefore
      cases notBefore
  · rintro ⟨ordered, disjoint, collide⟩
    refine ⟨collide, ?_, disjoint⟩
    rcases rowIndicesBefore_cases isA isB disjoint with ⟨-, -, notBefore⟩ | ⟨other, -, -⟩
    · exact notBefore
    · obtain ⟨first, isFirst, -⟩ := isA.head
      obtain ⟨second, isSecond, -⟩ := isB.head
      exact absurd (ordered first isFirst second isSecond)
        (not_lt_of_gt (other second isSecond first isFirst))

theorem rowXorMerge_eq (low : r ≤ p.k) {a b : List Nat} (isA : IsBlock p base r a)
    (isB : IsBlock p base r b)
    : ehRowXorMerge (rowOf p base r a) (rowOf p base r b) (levelHashLen p r) (4 * 2 ^ r)
          p.collisionByteLength
        = if ehRowIndicesBefore (rowOf p base r a) (rowOf p base r b) (levelHashLen p r)
            (4 * 2 ^ r) then rowOf p base (r + 1) (a ++ b)
          else rowOf p base (r + 1) (b ++ a) := by
  have sizeA : 4 * 2 ^ r = 4 * a.length := by rw [isA.length]
  have sizeB : 4 * 2 ^ r = 4 * b.length := by rw [isB.length]
  have swap : rowHash p base (r + 1) (b ++ a) = rowHash p base (r + 1) (a ++ b) := by
    rw [rowHash, rowHash]
    refine congrArg (List.flatMap · _) (funext fun place => ?_)
    rw [xorChunk_append, xorChunk_append, Nat.xor_comm]
  rw [ehRowXorMerge]
  simp only [rowOf_rest low, zipWith_rowHash, rowOf_indices r sizeA, rowOf_indices r sizeB]
  split
  · rw [rowOf, indexData, indexData, indexData, List.flatMap_append, List.append_assoc]
  · rw [rowOf, swap, indexData, indexData, indexData, List.flatMap_append, List.append_assoc]

-- Rounds

/-- The blocks of the next round. -/
def mergePairs : List (List Nat) → List (List Nat)
  | [] => []
  | [_] => []
  | a :: b :: rest => (a ++ b) :: mergePairs rest

theorem length_mergePairs (blocks : List (List Nat))
    : (mergePairs blocks).length = blocks.length / 2 := by
  induction blocks using mergePairs.induct with
  | case1 => rfl
  | case2 a => simp [mergePairs]
  | case3 a b rest ih =>
    rw [mergePairs, List.length_cons, ih, List.length_cons, List.length_cons]
    omega

variable {blocks : List (List Nat)}

theorem flatten_mergePairs {half : Nat} (even : blocks.length = 2 * half)
    : (mergePairs blocks).flatten = blocks.flatten := by
  induction blocks using mergePairs.induct generalizing half with
  | case1 => rfl
  | case2 a =>
    rw [List.length_singleton] at even
    omega
  | case3 a b rest ih =>
    have lengths : rest.length = 2 * (half - 1) := by
      simp only [List.length_cons] at even
      omega
    rw [mergePairs, List.flatten_cons, ih lengths, List.flatten_cons, List.flatten_cons,
      List.append_assoc]

theorem sizes_mergePairs {size : Nat} (sizes : ∀ is ∈ blocks, is.length = size)
    : ∀ is ∈ mergePairs blocks, is.length = 2 * size := by
  induction blocks using mergePairs.induct with
  | case1 => simp [mergePairs]
  | case2 a => simp [mergePairs]
  | case3 a b rest ih =>
    intro is member
    rw [mergePairs] at member
    rcases List.mem_cons.mp member with rfl | member
    · rw [List.length_append, sizes a (by simp), sizes b (by simp), Nat.two_mul]
    · exact ih (fun is member => sizes is (by simp [member])) is member

theorem verifyRound_cases (sound : p.Sound) (low : r ≤ p.k)
    (isBlocks : ∀ is ∈ blocks, IsBlock p base r is) (i : Nat)
    : (∀ is ∈ mergePairs blocks, IsBlock p base (r + 1) is)
        ∧ ehVerifyRound p (levelHashLen p r) (4 * 2 ^ r) i (blocks.map (rowOf p base r))
          = .ok ((mergePairs blocks).map (rowOf p base (r + 1)))
      ∨ (∃ is ∈ mergePairs blocks, ¬IsTree (hashChunk p base) (r + 1) is)
        ∧ ∃ failure, ehVerifyRound p (levelHashLen p r) (4 * 2 ^ r) i
          (blocks.map (rowOf p base r)) = .error failure := by
  induction blocks using mergePairs.induct generalizing i with
  | case1 => exact .inl ⟨by simp [mergePairs], rfl⟩
  | case2 a => exact .inl ⟨by simp [mergePairs], by simp [ehVerifyRound, mergePairs]⟩
  | case3 a b rest ih =>
    have isA := isBlocks a (by simp)
    have isB := isBlocks b (by simp)
    have passes := pairPasses_iff sound low isA isB
    rw [List.map_cons, List.map_cons, ehVerifyRound, mergePairs]
    by_cases joins : Joins (hashChunk p base) r a b
    · obtain ⟨collision, notBefore, distinct⟩ := passes.mpr joins
      have before : ehRowIndicesBefore (rowOf p base r a) (rowOf p base r b) (levelHashLen p r)
          (4 * 2 ^ r) = true := by
        rcases rowIndicesBefore_cases isA isB joins.disjoint with ⟨-, before, -⟩ | ⟨-, -, other⟩
        · exact before
        · rw [other] at notBefore
          cases notBefore
      rw [collision, notBefore, distinct, rowXorMerge_eq low isA isB, before]
      simp only [Bool.not_true, Bool.false_eq_true, if_false, if_true]
      rcases ih (fun is member => isBlocks is (by simp [member])) (i + 2) with
        ⟨merged, same⟩ | ⟨⟨is, member, notTree⟩, failure, same⟩
      · refine .inl ⟨?_, by rw [same, List.map_cons]⟩
        intro is member
        rcases List.mem_cons.mp member with rfl | member
        · exact isA.join isB joins
        · exact merged is member
      · refine .inr ⟨⟨is, List.mem_cons_of_mem _ member, notTree⟩, failure, ?_⟩
        rw [same]
    · refine .inr ⟨⟨a ++ b, List.mem_cons_self, ?_⟩, ?_⟩
      · intro tree
        exact joins (tree.of_append isA.length).2.2
      · split
        · exact ⟨_, rfl⟩
        · rename_i collision
          split
          · exact ⟨_, rfl⟩
          · rename_i notBefore
            split
            · exact ⟨_, rfl⟩
            · rename_i distinct
              exact absurd (passes.mp ⟨by simpa using collision, by simpa using notBefore,
                by simpa using distinct⟩) joins

theorem verifyCollisionRounds_cases (sound : p.Sound) {rounds fuel : Nat} (last : r + rounds = p.k)
    (enough : rounds ≤ fuel) (count : blocks.length = 2 ^ rounds)
    (isBlocks : ∀ is ∈ blocks, IsBlock p base r is)
    : IsTree (hashChunk p base) p.k blocks.flatten
        ∧ ehVerifyCollisionRounds p fuel (levelHashLen p r) (4 * 2 ^ r)
            (blocks.map (rowOf p base r))
          = .ok ([rowOf p base p.k blocks.flatten], levelHashLen p p.k)
      ∨ ¬IsTree (hashChunk p base) p.k blocks.flatten
        ∧ ∃ failure, ehVerifyCollisionRounds p fuel (levelHashLen p r) (4 * 2 ^ r)
          (blocks.map (rowOf p base r)) = .error failure := by
  induction rounds generalizing r fuel blocks with
  | zero =>
    obtain ⟨is, rfl⟩ := List.length_eq_one_iff.mp count
    have level : r = p.k := by omega
    subst level
    refine .inl ⟨by simpa using (isBlocks is List.mem_cons_self).tree, ?_⟩
    cases fuel with
    | zero => simp [ehVerifyCollisionRounds]
    | succ fuel => simp [ehVerifyCollisionRounds]
  | succ rounds ih =>
    obtain ⟨fuel, rfl⟩ : ∃ less, fuel = less + 1 := ⟨fuel - 1, by omega⟩
    rw [Nat.pow_succ, Nat.mul_comm] at count
    have many : (blocks.map (rowOf p base r)).length > 1 := by
      have positive := Nat.two_pow_pos rounds
      rw [List.length_map, count]
      omega
    have half : (mergePairs blocks).length = 2 ^ rounds := by
      rw [length_mergePairs, count, Nat.mul_div_cancel_left _ (by decide)]
    rw [ehVerifyCollisionRounds, if_pos many, ← flatten_mergePairs count]
    rcases verifyRound_cases sound (by omega) isBlocks 0 with
      ⟨merged, same⟩ | ⟨⟨is, member, notTree⟩, failure, same⟩
    · rw [same]
      simp only
      rw [levelHashLen_succ (by omega), Nat.mul_assoc, ← Nat.pow_succ]
      exact ih (by omega) (by omega) half merged
    · refine .inr ⟨?_, failure, by rw [same]⟩
      intro tree
      have sizes : ∀ is ∈ mergePairs blocks, is.length = 2 ^ (r + 1) := by
        rw [Nat.pow_succ, Nat.mul_comm]
        exact sizes_mergePairs fun is member => (isBlocks is member).length
      rw [← last, show r + (rounds + 1) = r + 1 + rounds by omega] at tree
      exact notTree (tree.of_flatten half sizes is member)

-- Leaves and the last row

theorem leafBatch_eq (impl : BatchImpl) (state : BaseState p) (batch : List UInt32)
    : leafBatch p impl state.ctx batch = ehVerifyLeafRowsScalar p state.ctx batch := by
  rw [leafBatch, equihashGenerateHashBatch_eq impl state.fed state.fits state.outlen, List.map_map,
    List.zipWith_map_left, List.zipWith_self]
  rfl

theorem leafRows_eq (impl : BatchImpl) (state : BaseState p) (indices : List UInt32)
    : leafRows p impl state.ctx indices = ehVerifyLeafRowsScalar p state.ctx indices := by
  have eights : ∀ indices, (ehVerifyLeafRowsBatch8 p impl state.ctx indices).1
        ++ ehVerifyLeafRowsScalar p state.ctx (ehVerifyLeafRowsBatch8 p impl state.ctx indices).2
      = ehVerifyLeafRowsScalar p state.ctx indices := by
    intro indices
    induction indices using ehVerifyLeafRowsBatch8.induct p impl state.ctx with
    | case1 a b c d e f g h rest rows left _ ih =>
      rw [ehVerifyLeafRowsBatch8]
      simp only [List.append_assoc, ih, leafBatch_eq]
      rfl
    | case2 rest short => rw [ehVerifyLeafRowsBatch8.eq_2 _ _ _ _ short, List.nil_append]
  have fours : ∀ indices, (ehVerifyLeafRowsBatch4 p impl state.ctx indices).1
        ++ ehVerifyLeafRowsScalar p state.ctx (ehVerifyLeafRowsBatch4 p impl state.ctx indices).2
      = ehVerifyLeafRowsScalar p state.ctx indices := by
    intro indices
    induction indices using ehVerifyLeafRowsBatch4.induct p impl state.ctx with
    | case1 a b c d rest rows left _ ih =>
      rw [ehVerifyLeafRowsBatch4]
      simp only [List.append_assoc, ih, leafBatch_eq]
      rfl
    | case2 rest short => rw [ehVerifyLeafRowsBatch4.eq_2 _ _ _ _ short, List.nil_append]
  rw [leafRows]
  simp only [List.append_assoc, fours, eights]

section

variable (sound : p.Sound)
include sound

theorem length_indexHashBytes (state : BaseState p) (i : Nat)
    : (indexHashBytes p state.ctx i).length = p.n / 8 := by
  have place : i % p.indicesPerHashOutput < p.indicesPerHashOutput := Nat.mod_lt i sound.outputs
  have offset : i % p.indicesPerHashOutput * p.n / 8
      = i % p.indicesPerHashOutput * (p.n / 8) := by
    rw [← sound.bytes, Nat.mul_left_comm, Nat.mul_div_cancel_left _ (by decide),
      Nat.mul_div_cancel_left _ (by decide)]
  have room := Nat.mul_le_mul_right (p.n / 8) (Nat.succ_le_of_lt place)
  rw [Nat.succ_mul] at room
  rw [indexHashBytes, List.length_take, List.length_drop, length_generateHash sound state, offset,
    sound.output]
  omega

theorem rowFromHash_eq (state : BaseState p) {i : Nat} (fits : i < 256 ^ 4)
    : ehRowFromHash (indexHashBytes p state.ctx i) p.collisionBitLength (UInt32.ofNat i)
        = rowOf p state.ctx 0 [i] := by
  have toNat : (UInt32.ofNat i).toNat = i := UInt32.toNat_ofNat_of_lt' fits
  have long := sound.long
  have short := sound.short
  have chunks : p.n / p.collisionBitLength = p.k + 1 := by
    rw [sound.bits, Nat.mul_div_cancel_left _ (by omega)]
  rw [ehRowFromHash, ehIndexToArray, toNat, ehExpandArray_eq long (by omega), groupWidth,
    length_indexHashBytes sound, sound.bytes, groups, chunks, Nat.add_zero, ← sound.byteLength,
    List.flatMap_map, rowOf, indexData, List.flatMap_singleton, rowHash, List.range_eq_range',
    Nat.sub_zero]
  refine congrArg (fun hash => EhRow.mk (List.flatMap hash _ ++ _)) (funext fun place => ?_)
  simp [xorChunk, hashChunk, collisionChunk, indexHash]

theorem leafRow_eq (state : BaseState p) {i : Nat} (fits : i < 256 ^ 4)
    : leafRow p (generateHash state.ctx (hashGroup p (UInt32.ofNat i)) p.hashOutput)
          (UInt32.ofNat i)
        = rowOf p state.ctx 0 [i] := by
  have toNat : (UInt32.ofNat i).toNat = i := UInt32.toNat_ofNat_of_lt' fits
  rw [← rowFromHash_eq sound state fits, leafRow, hashGroup, toNat, indexHashBytes]

theorem xorHash_fits (state : BaseState p) (is : List Nat) : xorHash p state.ctx is < 2 ^ p.n := by
  induction is with
  | nil => exact Nat.two_pow_pos _
  | cons i is ih =>
    refine Nat.xor_lt_two_pow ?_ ih
    have low := natBE_lt (indexHashBytes p state.ctx i)
    rw [length_indexHashBytes sound, show (256 : Nat) = 2 ^ 8 from rfl, ← Nat.pow_mul,
      sound.bytes] at low
    exact low

theorem xorHash_eq_zero_iff (state : BaseState p) {is : List Nat}
    (tree : IsTree (hashChunk p state.ctx) p.k is)
    : xorHash p state.ctx is = 0 ↔ xorChunk (hashChunk p state.ctx) p.k is = 0 := by
  constructor
  · intro zero
    rw [← collisionChunk_xorHash, zero]
    exact group_zero _ _ _
  · intro last
    have fits := xorHash_fits sound state is
    rw [sound.bits] at fits
    refine eq_zero_of_groups fits fun place low => ?_
    rw [← sound.bits]
    refine (collisionChunk_xorHash p state.ctx place is).trans ?_
    rcases Nat.lt_or_eq_of_le (Nat.lt_succ_iff.mp low) with below | rfl
    · have solution := isTree_iff_isSolution.mp tree
      have whole := solution.collides p.k le_rfl 0 (Nat.two_pow_pos _) place below
      rwa [block_whole solution.length] at whole
    · exact last

theorem finalRow_iff (state : BaseState p) {is : List Nat}
    (tree : IsTree (hashChunk p state.ctx) p.k is)
    : ehVerifyFinalRow [rowOf p state.ctx p.k is] (levelHashLen p p.k) = true
        ↔ xorHash p state.ctx is = 0 := by
  have length : levelHashLen p p.k = p.collisionByteLength := by
    rw [levelHashLen, Nat.add_sub_cancel_left, Nat.one_mul]
  rw [ehVerifyFinalRow, ehRowIsZero, length, rowOf_first le_rfl,
    all_bytesBE_zero (xorChunk_fits sound p.k is), xorHash_eq_zero_iff sound state tree]

end

-- The verifier

theorem packedIndices_fits (p : EquihashParams) (soln : List UInt8)
    : ∀ i ∈ packedIndices p soln, i < 2 ^ (p.collisionBitLength + 1) := by
  intro i member
  obtain ⟨place, -, rfl⟩ := List.mem_map.mp member
  exact group_lt _ _ _ _

theorem length_packedIndices (sound : p.Sound) {soln : List UInt8}
    (length : soln.length = p.solutionWidth) : (packedIndices p soln).length = 2 ^ p.k := by
  rw [packedIndices, groups, List.length_map, List.length_range, length, sound.solution,
    Nat.mul_div_cancel_left _ (Nat.succ_pos _)]

theorem isValidSolution_iff (sound : p.Sound) (impl : BatchImpl) (state : BaseState p)
    (soln : List UInt8)
    : equihashIsValidSolution p impl state.ctx soln = true
        ↔ soln.length = p.solutionWidth
          ∧ IsTree (hashChunk p state.ctx) p.k (packedIndices p soln)
          ∧ xorHash p state.ctx (packedIndices p soln) = 0 := by
  rw [equihashIsValidSolution]
  split
  · rename_i different
    simp [different]
  · rename_i same
    have length := not_not.mp same
    have bits : 8 * soln.length = (p.collisionBitLength + 1) * 2 ^ p.k := by
      rw [length, sound.solution]
    have unpacked := ehGetIndicesFromMinimal_eq sound.long sound.short bits
    have count := length_packedIndices sound length
    have fits : ∀ i ∈ packedIndices p soln, i < 256 ^ 4 := by
      intro i member
      refine lt_of_lt_of_le (packedIndices_fits p soln i member) ?_
      have short := sound.short
      exact Nat.pow_le_pow_right (by decide : 0 < 2) (by omega : p.collisionBitLength + 1 ≤ 32)
    have leaves : leafRows p impl state.ctx ((packedIndices p soln).map UInt32.ofNat)
        = ((packedIndices p soln).map fun i => [i]).map (rowOf p state.ctx 0) := by
      rw [leafRows_eq, ehVerifyLeafRowsScalar, List.map_map, List.map_map]
      exact List.map_congr_left fun i member => leafRow_eq sound state (fits i member)
    have isBlocks : ∀ is ∈ (packedIndices p soln).map fun i => [i], IsBlock p state.ctx 0 is := by
      intro is member
      obtain ⟨i, isIndex, rfl⟩ := List.mem_map.mp member
      exact ⟨.leaf i, by simpa using fits i isIndex⟩
    have flat : ((packedIndices p soln).map fun i => [i]).flatten = packedIndices p soln := by
      rw [← List.flatMap_def, List.flatMap_singleton']
    have rounds := verifyCollisionRounds_cases sound (Nat.zero_add p.k) (Nat.lt_two_pow_self).le
      ((List.length_map _).trans count) isBlocks
    simp only [unpacked, ← packedIndices.eq_def, List.length_map, count, leaves, ne_eq,
      not_true_eq_false, if_false]
    rw [flat, levelHashLen, Nat.sub_zero, ← sound.hashLength, Nat.pow_zero, Nat.mul_one] at rounds
    rcases rounds with ⟨tree, same⟩ | ⟨notTree, failure, same⟩
    · rw [same]
      simp only [finalRow_iff sound state tree, length, tree, true_and]
    · rw [same]
      simp [notTree]

/--
The verifier accepts a byte string if it is of solution size and packs the indices of a solution,
for each of the parameter sets, each state of the hash and each vector unit.
-/
theorem equihash_isValidSolution_iff (pair : EquihashPair) (impl : BatchImpl)
    (state : BaseState pair.params) (soln : List UInt8)
    : equihashIsValidSolution pair.params impl state.ctx soln = true
        ↔ soln.length = pair.params.solutionWidth
          ∧ WagnerSolution pair.params state.ctx (packedIndices pair.params soln) := by
  rw [isValidSolution_iff pair.sound, wagnerSolution_iff]

end Z23.Crypto
