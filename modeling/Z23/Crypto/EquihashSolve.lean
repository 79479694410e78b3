import Mathlib.Data.List.TakeWhile
import Z23.Crypto.EquihashVerify

/-!
The basic solver: rows of all indices are sorted and merged in rounds, pair by pair within runs of
rows that collide, until a pair of the last round agrees in all that is left of its hashes.
-/

namespace Z23.Crypto

open Z23.Lib.BitGroups
open Z23.Lib.WagnerTree

-- The solver

/-- What `qsort` by the first bytes does to rows; it may leave equal rows in any order. -/
structure RowSort where
  run : Nat → List EhRow → List EhRow
  perm : ∀ hashLen rows, (run hashLen rows).Perm rows

structure EhSolveCtx where
  round : Nat
  hashLen : Nat
  lenIndices : Nat
  solnOut : List UInt8
  xc : List EhRow := []

inductive EhSolveStep where
  | more
  | found
deriving DecidableEq, Repr

/-- The leaf row of the next index; the hash is kept for the indices that share it. -/
def ehSolveLeaf (p : EquihashParams) (base : Blake2bCtx) (st : List UInt8 × List EhRow) (g : Nat)
    : List UInt8 × List EhRow :=
  let iph := p.indicesPerHashOutput
  let tmp := if g % iph = 0 then generateHash base (UInt32.ofNat (g / iph)) p.hashOutput else st.1
  let offset := g % iph * p.n / 8
  (tmp, st.2
    ++ [ehRowFromHash ((tmp.drop offset).take (p.n / 8)) p.collisionBitLength (UInt32.ofNat g)])

def ehSolveBuildLeaves (p : EquihashParams) (base : Blake2bCtx) (initSize : Nat) : List EhRow :=
  ((List.range initSize).foldl (ehSolveLeaf p base) (List.replicate p.hashOutput 0, [])).2

/-- The indices of a row from a place on. -/
def rowIndices (row : EhRow) (hashLen count : Nat) : List UInt32 :=
  (List.range count).map fun t => ehArrayToIndex (row.data.drop (hashLen + t * 4))

def ehSolvePairFinal (p : EquihashParams) (c : EhSolveCtx) (a b : EhRow)
    : EhSolveCtx × EhSolveStep :=
  if a.slice 0 c.hashLen ≠ b.slice 0 c.hashLen then (c, .more)
  else if !ehRowDistinctIndices a b c.hashLen c.lenIndices then (c, .more)
  else
    let (first, second) :=
      if ehRowIndicesBefore b a c.hashLen c.lenIndices then (b, a) else (a, b)
    let numIdx := 2 ^ p.k
    let indices := rowIndices first c.hashLen (numIdx / 2)
      ++ rowIndices second c.hashLen (numIdx / 2)
    match ehGetMinimalFromIndices indices p.collisionBitLength c.solnOut.length with
    | none => (c, .more)
    | some minimal =>
      ({ c with solnOut := minimal ++ c.solnOut.drop minimal.length },
        if minimal.length = p.solutionWidth then .found else .more)

def ehSolvePairMerge (p : EquihashParams) (c : EhSolveCtx) (a b : EhRow)
    : EhSolveCtx × EhSolveStep :=
  if !ehRowDistinctIndices a b c.hashLen c.lenIndices then (c, .more)
  else
    ({ c with xc := c.xc ++ [ehRowXorMerge a b c.hashLen c.lenIndices p.collisionByteLength] },
      .more)

/-- The pairs of a run, stopping at the first one that is a solution. -/
def ehSolvePairs (p : EquihashParams) (c : EhSolveCtx)
    : List (EhRow × EhRow) → EhSolveCtx × EhSolveStep
  | [] => (c, .more)
  | (a, b) :: rest =>
    match if c.round = p.k then ehSolvePairFinal p c a b else ehSolvePairMerge p c a b with
    | (c, .more) => ehSolvePairs p c rest
    | (c, .found) => (c, .found)

/-- The pairs of a list, each element with those after it. -/
def laterPairs : List EhRow → List (EhRow × EhRow)
  | [] => []
  | row :: rest => rest.map (row, ·) ++ laterPairs rest

/-- The runs of colliding rows; `fuel` is at least the number of rows. -/
def ehSolveCollideRound (p : EquihashParams)
    : Nat → EhSolveCtx → List EhRow → EhSolveCtx × EhSolveStep
  | 0, c, _ => (c, .more)
  | _ + 1, c, [] => (c, .more)
  | _ + 1, c, [_] => (c, .more)
  | fuel + 1, c, row :: rest =>
    let collides := fun other => ehRowHasCollision row other p.collisionByteLength
    match ehSolvePairs p c (laterPairs (row :: rest.takeWhile collides)) with
    | (c, .more) => ehSolveCollideRound p fuel c (rest.dropWhile collides)
    | (c, .found) => (c, .found)

/-- The rounds from `round` on, of which `left` are left. -/
def ehSolveRounds (p : EquihashParams) (sort : RowSort)
    : Nat → Nat → Nat → Nat → List UInt8 → List EhRow → Option (List UInt8)
  | 0, _, _, _, _, _ => none
  | left + 1, round, hashLen, lenIndices, solnOut, rows =>
    let rows := sort.run hashLen rows
    let ctx : EhSolveCtx := { round, hashLen, lenIndices, solnOut }
    match ehSolveCollideRound p rows.length ctx rows with
    | (c, .found) => some c.solnOut
    | (c, .more) =>
      if round = p.k then none
      else if c.xc.length = 0 then none
      else
        ehSolveRounds p sort left (round + 1) (hashLen - p.collisionByteLength)
          (lenIndices * 2) c.solnOut c.xc

/-- The first bytes of the output buffer when a solution was found. -/
def equihashBasicSolve (p : EquihashParams) (sort : RowSort) (base : Blake2bCtx)
    (solnOut : List UInt8) : Option (List UInt8) :=
  if solnOut.length < p.solutionWidth then none
  else
    let initSize := 2 ^ (p.collisionBitLength + 1)
    (ehSolveRounds p sort p.k 1 p.hashLength 4 solnOut (ehSolveBuildLeaves p base initSize)).map
      (·.take p.solutionWidth)

-- Rows of the solver

variable {p : EquihashParams}

/-- A row of round `r` whose indices fit their place in a solution. -/
def SolverRow (state : BaseState p) (r : Nat) (row : EhRow) : Prop :=
  ∃ is, row = rowOf p state.ctx r is ∧ IsTree (hashChunk p state.ctx) r is
    ∧ ∀ i ∈ is, i < 2 ^ (p.collisionBitLength + 1)

/-- A string that the verifier accepts. -/
def Accepted (state : BaseState p) (soln : List UInt8) : Prop :=
  soln.length = p.solutionWidth
    ∧ IsTree (hashChunk p state.ctx) p.k (packedIndices p soln)
    ∧ xorHash p state.ctx (packedIndices p soln) = 0

theorem index_fits (sound : p.Sound) {i : Nat} (fits : i < 2 ^ (p.collisionBitLength + 1))
    : i < 256 ^ 4 := by
  have short := sound.short
  exact lt_of_lt_of_le fits
    (Nat.pow_le_pow_right (by decide : 0 < 2) (by omega : p.collisionBitLength + 1 ≤ 32))

variable {r : Nat} {base : Blake2bCtx}

theorem isBlock_of_fits (sound : p.Sound) {is : List Nat} (tree : IsTree (hashChunk p base) r is)
    (fits : ∀ i ∈ is, i < 2 ^ (p.collisionBitLength + 1))
    : IsBlock p base r is :=
  ⟨tree, fun i member => index_fits sound (fits i member)⟩

theorem sub_one_div {n d : Nat} (inside : n % d ≠ 0) : (n - 1) / d = n / d := by
  have positive : 0 < n := Nat.pos_of_ne_zero (by rintro rfl; simp at inside)
  obtain ⟨m, rfl⟩ : ∃ m, n = m + 1 := ⟨n - 1, by omega⟩
  rw [Nat.add_sub_cancel, Nat.succ_div, if_neg, Nat.add_zero]
  exact fun divides => inside (Nat.mod_eq_zero_of_dvd divides)

/-- The loop keeps the hash of the last index and has made the rows of all before. -/
theorem solveLeaves_eq (sound : p.Sound) (state : BaseState p) {count : Nat}
    (few : count ≤ 2 ^ (p.collisionBitLength + 1))
    : let st := (List.range count).foldl (ehSolveLeaf p state.ctx)
        (List.replicate p.hashOutput 0, [])
      (0 < count → st.1 = generateHash state.ctx
          (UInt32.ofNat ((count - 1) / p.indicesPerHashOutput)) p.hashOutput)
        ∧ st.2 = (List.range count).map fun g => rowOf p state.ctx 0 [g] := by
  induction count with
  | zero => exact ⟨fun none => absurd none (lt_irrefl _), rfl⟩
  | succ g ih =>
    obtain ⟨kept, rows⟩ := ih (by omega)
    rw [List.range_succ, List.foldl_append, List.foldl_cons, List.foldl_nil, List.map_append]
    have hash : (if g % p.indicesPerHashOutput = 0 then
          generateHash state.ctx (UInt32.ofNat (g / p.indicesPerHashOutput)) p.hashOutput
        else ((List.range g).foldl (ehSolveLeaf p state.ctx)
          (List.replicate p.hashOutput 0, [])).1)
        = generateHash state.ctx (UInt32.ofNat (g / p.indicesPerHashOutput)) p.hashOutput := by
      split
      · rfl
      · rename_i inside
        have positive : 0 < g := Nat.pos_of_ne_zero (by rintro rfl; simp at inside)
        rw [kept positive, sub_one_div inside]
    simp only [ehSolveLeaf, hash, rows]
    refine ⟨fun _ => rfl, congrArg (_ ++ ·) ?_⟩
    rw [← indexHashBytes, rowFromHash_eq sound state (index_fits sound (by omega))]
    rfl

theorem buildLeaves_rows (sound : p.Sound) (state : BaseState p)
    : ∀ row ∈ ehSolveBuildLeaves p state.ctx (2 ^ (p.collisionBitLength + 1)),
      SolverRow state 0 row := by
  intro row member
  rw [ehSolveBuildLeaves, (solveLeaves_eq sound state le_rfl).2] at member
  obtain ⟨g, isIndex, rfl⟩ := List.mem_map.mp member
  exact ⟨[g], rfl, .leaf g, by simpa using List.mem_range.mp isIndex⟩

theorem rowIndices_eq {is : List Nat} (isBlock : IsBlock p base r is)
    : rowIndices (rowOf p base r is) (levelHashLen p r) (2 ^ r) = is.map UInt32.ofNat := by
  rw [rowIndices, ← isBlock.length]
  refine List.ext_get (by simp) fun place within inside => ?_
  rw [List.length_map, List.length_range] at within
  simp only [List.get_eq_getElem, List.getElem_map, List.getElem_range]
  refine ehArrayToIndex_bytesBE (isBlock.fits _ (List.getElem_mem within)) _ ?_
  rw [Nat.mul_comm place 4]
  exact rowOf_index r is within

-- Pairs

/-- The state of round `r + 1`. -/
structure SolveInv (state : BaseState p) (r : Nat) (c : EhSolveCtx) : Prop where
  round : c.round = r + 1
  hashLen : c.hashLen = levelHashLen p r
  lenIndices : c.lenIndices = 4 * 2 ^ r
  room : p.solutionWidth ≤ c.solnOut.length
  rows : ∀ row ∈ c.xc, SolverRow state (r + 1) row

/-- What a step of the round may leave behind. -/
structure SolveOutcome (state : BaseState p) (r : Nat) (outcome : EhSolveCtx × EhSolveStep)
    : Prop where
  inv : SolveInv state r outcome.1
  found : outcome.2 = .found → Accepted state (outcome.1.solnOut.take p.solutionWidth)

variable {state : BaseState p} {c : EhSolveCtx}

theorem SolveInv.more (inv : SolveInv state r c)
    : SolveOutcome state r (c, .more) where
  inv := inv
  found := by simp

theorem joins_cases {a b : List Nat} (isA : IsBlock p base r a) (isB : IsBlock p base r b)
    (disjoint : a.Disjoint b)
    (collide : xorChunk (hashChunk p base) r a = xorChunk (hashChunk p base) r b)
    : (ehRowIndicesBefore (rowOf p base r a) (rowOf p base r b) (levelHashLen p r) (4 * 2 ^ r)
          = true
        ∧ ehRowIndicesBefore (rowOf p base r b) (rowOf p base r a) (levelHashLen p r) (4 * 2 ^ r)
          = false
        ∧ Joins (hashChunk p base) r a b)
      ∨ (ehRowIndicesBefore (rowOf p base r a) (rowOf p base r b) (levelHashLen p r) (4 * 2 ^ r)
          = false
        ∧ ehRowIndicesBefore (rowOf p base r b) (rowOf p base r a) (levelHashLen p r) (4 * 2 ^ r)
          = true
        ∧ Joins (hashChunk p base) r b a) := by
  rcases rowIndicesBefore_cases isA isB disjoint with
    ⟨ordered, before, notAfter⟩ | ⟨ordered, notBefore, after⟩
  · exact .inl ⟨before, notAfter, ordered, disjoint, collide⟩
  · exact .inr ⟨notBefore, after, ordered, fun _ inB inA => disjoint inA inB, collide.symm⟩

theorem fits_append {a b : List Nat} {bound : Nat} (fitsA : ∀ i ∈ a, i < bound)
    (fitsB : ∀ i ∈ b, i < bound) : ∀ i ∈ a ++ b, i < bound := by
  intro i member
  rcases List.mem_append.mp member with member | member
  · exact fitsA i member
  · exact fitsB i member

variable {a b : EhRow}

theorem SolveInv.pairMerge (sound : p.Sound) (low : r ≤ p.k) (inv : SolveInv state r c)
    (isA : SolverRow state r a) (isB : SolverRow state r b)
    (collision : ehRowHasCollision a b p.collisionByteLength = true)
    : SolveOutcome state r (ehSolvePairMerge p c a b) := by
  rw [ehSolvePairMerge]
  split
  · exact inv.more
  · rename_i distinct
    refine SolveInv.more { inv with rows := ?_ }
    intro row member
    rcases List.mem_append.mp member with member | member
    · exact inv.rows row member
    · obtain ⟨as, rfl, treeA, fitsA⟩ := isA
      obtain ⟨bs, rfl, treeB, fitsB⟩ := isB
      have blockA := isBlock_of_fits sound treeA fitsA
      have blockB := isBlock_of_fits sound treeB fitsB
      rw [inv.hashLen, inv.lenIndices] at distinct member
      rw [Bool.not_eq_true', Bool.not_eq_false, rowDistinctIndices_iff blockA blockB] at distinct
      rw [List.mem_singleton.mp member, rowXorMerge_eq low blockA blockB]
      rcases joins_cases blockA blockB distinct ((rowHasCollision_iff sound low as bs).mp collision)
        with ⟨before, -, joins⟩ | ⟨notBefore, -, joins⟩
      · rw [if_pos before]
        exact ⟨as ++ bs, rfl, .join treeA treeB joins, fits_append fitsA fitsB⟩
      · rw [notBefore, if_neg (by decide)]
        exact ⟨bs ++ as, rfl, .join treeB treeA joins, fits_append fitsB fitsA⟩

theorem pack_accepted (sound : p.Sound) (last : r + 1 = p.k) {as bs : List Nat}
    (treeA : IsTree (hashChunk p state.ctx) r as) (treeB : IsTree (hashChunk p state.ctx) r bs)
    (joins : Joins (hashChunk p state.ctx) r as bs)
    (same : xorChunk (hashChunk p state.ctx) p.k as = xorChunk (hashChunk p state.ctx) p.k bs)
    (fits : ∀ i ∈ as ++ bs, i < 2 ^ (p.collisionBitLength + 1)) {room : Nat}
    (enough : p.solutionWidth ≤ room)
    : ∃ minimal, Accepted state minimal
      ∧ ehGetMinimalFromIndices ((as ++ bs).map UInt32.ofNat) p.collisionBitLength room
        = some minimal := by
  have tree : IsTree (hashChunk p state.ctx) p.k (as ++ bs) := last ▸ treeA.join treeB joins
  have zero : xorHash p state.ctx (as ++ bs) = 0 := by
    rw [xorHash_eq_zero_iff sound state tree, xorChunk_append, same, Nat.xor_self]
  have count : ((as ++ bs).map UInt32.ofNat).length = 2 ^ p.k := by
    rw [List.length_map, tree.length]
  have width : (p.collisionBitLength + 1) * (((as ++ bs).map UInt32.ofNat).length * 4) / (8 * 4)
      = p.solutionWidth := by
    have bits := sound.solution
    rw [count, ← Nat.mul_assoc, ← bits]
    omega
  have toNat : ((as ++ bs).map UInt32.ofNat).map UInt32.toNat = as ++ bs := by
    rw [List.map_map]
    refine (List.map_congr_left fun i member => ?_).trans (List.map_id _)
    exact UInt32.toNat_ofNat_of_lt' (index_fits sound (fits i member))
  have indexFits : ∀ idx ∈ (as ++ bs).map UInt32.ofNat,
      idx.toNat < 2 ^ (p.collisionBitLength + 1) := by
    intro idx member
    refine fits _ ?_
    rw [← toNat]
    exact List.mem_map_of_mem member
  obtain ⟨length, packed⟩ := groups_compressArray sound.long sound.short indexFits
    (by rw [count, ← sound.solution] : 8 * p.solutionWidth = _)
  rw [ehGetMinimalFromIndices]
  simp only [width]
  rw [if_neg (not_lt.mpr enough)]
  refine ⟨_, ⟨length, ?_, ?_⟩, rfl⟩
  · rw [packedIndices, packed, toNat]
    exact tree
  · rw [packedIndices, packed, toNat]
    exact zero

theorem chunks_of_hash (sound : p.Sound) (last : r + 1 = p.k) {as bs : List Nat}
    (same : rowHash p base r as = rowHash p base r bs)
    : xorChunk (hashChunk p base) r as = xorChunk (hashChunk p base) r bs
      ∧ xorChunk (hashChunk p base) p.k as = xorChunk (hashChunk p base) p.k bs := by
  have low : r ≤ p.k := by omega
  rw [rowHash_succ low as, rowHash_succ low bs, last, rowHash_succ le_rfl as,
    rowHash_succ le_rfl bs] at same
  obtain ⟨first, rest⟩ := List.append_inj same (by simp)
  obtain ⟨second, -⟩ := List.append_inj rest (by simp)
  exact ⟨bytesBE_inj (xorChunk_fits sound r as) (xorChunk_fits sound r bs) first,
    bytesBE_inj (xorChunk_fits sound p.k as) (xorChunk_fits sound p.k bs) second⟩

theorem rowOf_hash (base : Blake2bCtx) (r : Nat) (is : List Nat)
    : (rowOf p base r is).slice 0 (levelHashLen p r) = rowHash p base r is := by
  rw [EhRow.slice, List.drop_zero, rowOf]
  exact List.take_left' (length_rowHash r is)

theorem SolveInv.emit (inv : SolveInv state r c) {minimal : List UInt8}
    (accepted : Accepted state minimal)
    : SolveOutcome state r ({ c with solnOut := minimal ++ c.solnOut.drop minimal.length },
        if minimal.length = p.solutionWidth then .found else .more) where
  inv := { inv with
    room := by
      rw [List.length_append, List.length_drop, accepted.1]
      omega }
  found := by
    intro _
    rw [List.take_left' accepted.1]
    exact accepted

theorem SolveInv.pairFinal (sound : p.Sound) (last : r + 1 = p.k) (inv : SolveInv state r c)
    (isA : SolverRow state r a) (isB : SolverRow state r b)
    : SolveOutcome state r (ehSolvePairFinal p c a b) := by
  obtain ⟨as, rfl, treeA, fitsA⟩ := isA
  obtain ⟨bs, rfl, treeB, fitsB⟩ := isB
  have blockA := isBlock_of_fits sound treeA fitsA
  have blockB := isBlock_of_fits sound treeB fitsB
  have half : 2 ^ p.k / 2 = 2 ^ r := by
    rw [← last, Nat.pow_succ, Nat.mul_div_cancel _ (by decide)]
  rw [ehSolvePairFinal, inv.hashLen, inv.lenIndices]
  split
  · exact inv.more
  · rename_i sameHash
    rw [not_not, rowOf_hash, rowOf_hash] at sameHash
    obtain ⟨collide, lastChunk⟩ := chunks_of_hash sound last sameHash
    split
    · exact inv.more
    · rename_i distinct
      rw [Bool.not_eq_true', Bool.not_eq_false, rowDistinctIndices_iff blockA blockB] at distinct
      rcases joins_cases blockA blockB distinct collide with
        ⟨-, notAfter, joins⟩ | ⟨-, after, joins⟩
      · obtain ⟨minimal, accepted, packed⟩ := pack_accepted sound last treeA treeB joins lastChunk
          (fits_append fitsA fitsB) inv.room
        simp only [notAfter, Bool.false_eq_true, if_false, half, rowIndices_eq blockA,
          rowIndices_eq blockB, ← List.map_append, packed]
        have emitted := inv.emit accepted
        rwa [inv.hashLen, inv.lenIndices] at emitted
      · obtain ⟨minimal, accepted, packed⟩ := pack_accepted sound last treeB treeA joins
          lastChunk.symm (fits_append fitsB fitsA) inv.room
        simp only [after, if_true, half, rowIndices_eq blockA,
          rowIndices_eq blockB, ← List.map_append, packed]
        have emitted := inv.emit accepted
        rwa [inv.hashLen, inv.lenIndices] at emitted

-- Runs and rounds

theorem SolveInv.pairs (sound : p.Sound) (low : r + 1 ≤ p.k) (inv : SolveInv state r c)
    {pairs : List (EhRow × EhRow)}
    (isPairs : ∀ pair ∈ pairs, SolverRow state r pair.1 ∧ SolverRow state r pair.2 ∧
      ehRowHasCollision pair.1 pair.2 p.collisionByteLength = true)
    : SolveOutcome state r (ehSolvePairs p c pairs) := by
  induction pairs generalizing c with
  | nil => exact inv.more
  | cons pair rest ih =>
    obtain ⟨a, b⟩ := pair
    obtain ⟨isA, isB, collision⟩ := isPairs (a, b) List.mem_cons_self
    have here : SolveOutcome state r
        (if c.round = p.k then ehSolvePairFinal p c a b else ehSolvePairMerge p c a b) := by
      split
      · rename_i last
        exact inv.pairFinal sound (inv.round.symm.trans last) isA isB
      · exact inv.pairMerge sound (by omega) isA isB collision
    rw [ehSolvePairs]
    split
    · rename_i next same
      rw [same] at here
      exact ih here.inv (List.forall_mem_cons.mp isPairs).2
    · rename_i next same
      rw [same] at here
      exact here

theorem mem_laterPairs {rows : List EhRow} {pair : EhRow × EhRow} (member : pair ∈ laterPairs rows)
    : pair.1 ∈ rows ∧ pair.2 ∈ rows := by
  induction rows with
  | nil => simp [laterPairs] at member
  | cons row rest ih =>
    rw [laterPairs] at member
    rcases List.mem_append.mp member with member | member
    · obtain ⟨other, isOther, rfl⟩ := List.mem_map.mp member
      exact ⟨List.mem_cons_self, List.mem_cons_of_mem _ isOther⟩
    · exact ⟨List.mem_cons_of_mem _ (ih member).1, List.mem_cons_of_mem _ (ih member).2⟩

theorem run_collides {row : EhRow} {rest : List EhRow} {length : Nat}
    (inA : a ∈ row :: rest.takeWhile fun other => ehRowHasCollision row other length)
    (inB : b ∈ row :: rest.takeWhile fun other => ehRowHasCollision row other length)
    : ehRowHasCollision a b length = true := by
  have same : ∀ other ∈ row :: rest.takeWhile fun other => ehRowHasCollision row other length,
      row.slice 0 length = other.slice 0 length := by
    intro other member
    rcases List.mem_cons.mp member with rfl | member
    · rfl
    · have collides := List.mem_takeWhile_imp member
      exact beq_iff_eq.mp collides
  rw [ehRowHasCollision, ← same a inA, ← same b inB, beq_self_eq_true]

theorem SolveInv.collideRound (sound : p.Sound) {state : BaseState p} {r : Nat}
    (low : r + 1 ≤ p.k) {fuel : Nat} {c : EhSolveCtx} (inv : SolveInv state r c)
    {rows : List EhRow} (isRows : ∀ row ∈ rows, SolverRow state r row)
    : SolveOutcome state r (ehSolveCollideRound p fuel c rows) := by
  induction fuel generalizing c rows with
  | zero => exact inv.more
  | succ fuel ih =>
    rcases rows with _ | ⟨row, _ | ⟨second, rest⟩⟩
    · exact inv.more
    · exact inv.more
    · rw [ehSolveCollideRound]
      · generalize second :: rest = later at isRows
        have inRows : ∀ other ∈ row :: later.takeWhile fun other =>
            ehRowHasCollision row other p.collisionByteLength, SolverRow state r other := by
          intro other member
          rcases List.mem_cons.mp member with rfl | member
          · exact isRows other List.mem_cons_self
          · exact isRows other
              (List.mem_cons_of_mem _ ((List.takeWhile_sublist _).subset member))
        have here : SolveOutcome state r (ehSolvePairs p c (laterPairs (row ::
            later.takeWhile fun other =>
              ehRowHasCollision row other p.collisionByteLength))) := by
          refine inv.pairs sound low fun pair member => ?_
          obtain ⟨inA, inB⟩ := mem_laterPairs member
          exact ⟨inRows _ inA, inRows _ inB, run_collides inA inB⟩
        split
        · rename_i same
          rw [same] at here
          refine ih here.inv fun other member => isRows other ?_
          exact List.mem_cons_of_mem _ ((List.dropWhile_sublist _).subset member)
        · rename_i same
          rw [same] at here
          exact here
      · simp

theorem solveRounds_accepted (sound : p.Sound) (sort : RowSort) {left : Nat}
    (rounds : r + left = p.k) {solnOut : List UInt8} (room : p.solutionWidth ≤ solnOut.length)
    {rows : List EhRow} (isRows : ∀ row ∈ rows, SolverRow state r row) {out : List UInt8}
    (emitted : ehSolveRounds p sort left (r + 1) (levelHashLen p r) (4 * 2 ^ r) solnOut rows =
      some out)
    : Accepted state (out.take p.solutionWidth) := by
  induction left generalizing r solnOut rows with
  | zero => simp [ehSolveRounds] at emitted
  | succ left ih =>
    have start : SolveInv state r
        { round := r + 1, hashLen := levelHashLen p r, lenIndices := 4 * 2 ^ r, solnOut } :=
      { round := rfl, hashLen := rfl, lenIndices := rfl, room, rows := by simp }
    have sorted : ∀ row ∈ sort.run (levelHashLen p r) rows, SolverRow state r row :=
      fun row member => isRows row ((sort.perm _ _).mem_iff.mp member)
    have round := @SolveInv.collideRound p sound state r (by omega)
      (sort.run (levelHashLen p r) rows).length _ start _ sorted
    rw [ehSolveRounds] at emitted
    split at emitted
    · rename_i c same
      rw [same] at round
      cases emitted
      exact round.found rfl
    · rename_i c same
      rw [same] at round
      split at emitted
      · cases emitted
      · split at emitted
        · cases emitted
        · rw [levelHashLen_succ (by omega), Nat.mul_assoc, ← Nat.pow_succ] at emitted
          exact ih (by omega) round.inv.room round.inv.rows emitted

/--
Every string that the solver writes is accepted by the verifier with the same state, for each of
the parameter sets, whatever order the sort leaves equal rows in.
-/
theorem equihash_basicSolve_accepted (pair : EquihashPair) (sort : RowSort) (impl : BatchImpl)
    (state : BaseState pair.params) (solnOut : List UInt8)
    : (equihashBasicSolve pair.params sort state.ctx solnOut).all
        (equihashIsValidSolution pair.params impl state.ctx) = true := by
  have sound := pair.sound
  rw [Option.all_eq_true]
  intro soln emitted
  rw [isValidSolution_iff sound]
  rw [equihashBasicSolve] at emitted
  split at emitted
  · cases emitted
  · rename_i room
    obtain ⟨out, solved, rfl⟩ := Option.map_eq_some_iff.mp emitted
    refine solveRounds_accepted sound sort (Nat.zero_add pair.params.k) (not_lt.mp room)
      (buildLeaves_rows sound state) ?_
    rw [levelHashLen, Nat.sub_zero, ← sound.hashLength]
    exact solved

end Z23.Crypto
