import Z23.Validation.CheckBlock

/-!
The Merkle root as the node computes it, over an array that each level overwrites, and what it
binds: two lists of ids with the same root and no mark of a mutation are the same list, unless the
hash collides on pairs that the two computations hash.
-/

namespace Z23.Validation

section

variable (hashPair : Uint256 → Uint256 → Uint256)

-- In place

/-- The inner loop of `merkle_root_mutated_in_place` from an index on. -/
def merkleLevelLoop (levelSize : Nat) : Nat → Nat → List Uint256 → Bool → List Uint256 × Bool
  | 0, _, level, mutated => (level, mutated)
  | fuel + 1, i, level, mutated =>
    if levelSize ≤ i then (level, mutated)
    else
      let i2 := if i + 1 < levelSize then i + 1 else levelSize - 1
      let left := level.getD i (.fill 0)
      let right := level.getD i2 (.fill 0)
      let here := i2 == i + 1 && i2 + 1 == levelSize && left == right
      merkleLevelLoop levelSize fuel (i + 2) (level.set (i / 2) (hashPair left right))
        (mutated || here)

/-- The outer loop; the array keeps its length while the level shrinks. -/
def merkleRootLoop : Nat → Nat → List Uint256 → Bool → Uint256 × Bool
  | 0, _, level, mutated => (level.getD 0 (.fill 0), mutated)
  | fuel + 1, levelSize, level, mutated =>
    if levelSize ≤ 1 then (level.getD 0 (.fill 0), mutated)
    else
      let (next, seen) := merkleLevelLoop hashPair levelSize levelSize 0 level mutated
      merkleRootLoop fuel ((levelSize + 1) / 2) next seen

def merkleRootOverwriting (level : List Uint256) : Uint256 × Bool :=
  if level.length = 0 then (.fill 0, false)
  else merkleRootLoop hashPair level.length level.length level false

theorem set_done (done gap rest : List Uint256) (item hash : Uint256)
    : (done ++ (gap ++ item :: rest)).set done.length hash
      = done ++ hash :: (gap ++ item :: rest).tail := by
  cases gap with
  | nil => simp
  | cons first others => simp

theorem getD_after (before after : List Uint256) (item : Uint256) {n : Nat}
    (n_eq : n = before.length)
    : (before ++ item :: after).getD n (.fill 0) = item := by
  rw [n_eq, List.getD_eq_getElem?_getD, List.getElem?_append_right (Nat.le_refl _)]
  simp

theorem merkleLevelLoop_pair (levelSize fuel : Nat) (done gap : List Uint256)
    (left right : Uint256) (others : List Uint256) (mutated : Bool)
    (even : gap.length = done.length) (inside : 2 * done.length + 1 < levelSize)
    : merkleLevelLoop hashPair levelSize (fuel + 1) (2 * done.length)
        (done ++ (gap ++ left :: right :: others)) mutated
      = merkleLevelLoop hashPair levelSize fuel (2 * (done.length + 1))
        (done ++ hashPair left right :: (gap ++ left :: right :: others).tail)
        (mutated || (2 * done.length + 2 == levelSize && left == right)) := by
  have leftRead : (done ++ (gap ++ left :: right :: others)).getD (2 * done.length) (.fill 0)
      = left := by
    rw [← List.append_assoc]
    apply getD_after
    rw [List.length_append]
    omega
  have rightRead : (done ++ (gap ++ left :: right :: others)).getD (2 * done.length + 1) (.fill 0)
      = right := by
    have regroup : done ++ (gap ++ left :: right :: others)
        = (done ++ gap ++ [left]) ++ right :: others := by simp
    rw [regroup]
    apply getD_after
    rw [List.length_append, List.length_append, List.length_singleton]
    omega
  have half : 2 * done.length / 2 = done.length := by omega
  simp only [merkleLevelLoop, if_neg (show ¬ levelSize ≤ 2 * done.length by omega),
    if_pos inside, leftRead, rightRead, half, set_done, beq_self_eq_true,
    Bool.true_and]
  rfl

theorem merkleLevelLoop_last (fuel : Nat) (done gap : List Uint256) (last : Uint256)
    (others : List Uint256) (mutated : Bool) (even : gap.length = done.length)
    : merkleLevelLoop hashPair (2 * done.length + 1) (fuel + 1) (2 * done.length)
        (done ++ (gap ++ last :: others)) mutated
      = merkleLevelLoop hashPair (2 * done.length + 1) fuel (2 * (done.length + 1))
        (done ++ hashPair last last :: (gap ++ last :: others).tail) mutated := by
  have read : (done ++ (gap ++ last :: others)).getD (2 * done.length) (.fill 0) = last := by
    rw [← List.append_assoc]
    apply getD_after
    rw [List.length_append]
    omega
  have half : 2 * done.length / 2 = done.length := by omega
  have alone : (2 * done.length == 2 * done.length + 1) = false := by simp
  simp only [merkleLevelLoop, if_neg (show ¬ 2 * done.length + 1 ≤ 2 * done.length by omega),
    if_neg (Nat.lt_irrefl (2 * done.length + 1)), Nat.add_sub_cancel, read, half,
    set_done, alone, Bool.false_and, Bool.or_false]
  rfl

theorem merkleLevelLoop_done {levelSize i : Nat} (ended : levelSize ≤ i) (fuel : Nat)
    (level : List Uint256) (mutated : Bool)
    : merkleLevelLoop hashPair levelSize fuel i level mutated = (level, mutated) := by
  cases fuel with
  | zero => rfl
  | succ fuel => simp only [merkleLevelLoop, if_pos ended]

theorem merkleLevelLoop_eq (rest : List Uint256) (fuel : Nat) (done gap junk : List Uint256)
    (mutated : Bool) (even : gap.length = done.length) (enough : rest.length ≤ fuel)
    : ∃ tail, merkleLevelLoop hashPair (2 * done.length + rest.length) fuel (2 * done.length)
        (done ++ (gap ++ (rest ++ junk))) mutated
      = (done ++ ((merkleLevel hashPair rest).1 ++ tail),
        mutated || (merkleLevel hashPair rest).2) := by
  fun_induction merkleLevel hashPair rest generalizing fuel done gap mutated with
  | case1 =>
    refine ⟨gap ++ junk, ?_⟩
    have ended : 2 * done.length + ([] : List Uint256).length ≤ 2 * done.length := Nat.le_refl _
    rw [merkleLevelLoop_done hashPair ended, Bool.or_false]
    rfl
  | case2 last =>
    obtain ⟨fuel, rfl⟩ : ∃ n, fuel = n + 1 :=
      Nat.exists_eq_succ_of_ne_zero (by simp only [List.length_cons] at enough; omega)
    refine ⟨(gap ++ last :: junk).tail, ?_⟩
    have turn := merkleLevelLoop_last hashPair fuel done gap last junk mutated even
    have ended : 2 * done.length + 1 ≤ 2 * (done.length + 1) := by omega
    rw [merkleLevelLoop_done hashPair ended] at turn
    rw [Bool.or_false]
    exact turn
  | case3 left right =>
    obtain ⟨fuel, rfl⟩ : ∃ n, fuel = n + 1 :=
      Nat.exists_eq_succ_of_ne_zero (by simp only [List.length_cons] at enough; omega)
    refine ⟨(gap ++ left :: right :: junk).tail, ?_⟩
    have turn := merkleLevelLoop_pair hashPair (2 * done.length + 2) fuel done gap left right junk
      mutated even (by omega)
    have ended : 2 * done.length + 2 ≤ 2 * (done.length + 1) := by omega
    rw [merkleLevelLoop_done hashPair ended, beq_self_eq_true, Bool.true_and] at turn
    exact turn
  | case4 left right next rest above seen equation ih =>
    obtain ⟨fuel, rfl⟩ : ∃ n, fuel = n + 1 :=
      Nat.exists_eq_succ_of_ne_zero (by simp only [List.length_cons] at enough; omega)
    have turn := merkleLevelLoop_pair hashPair (2 * done.length + (rest.length + 3)) fuel done
      gap left right (next :: rest ++ junk) mutated even (by omega)
    have inner : (2 * done.length + 2 == 2 * done.length + (rest.length + 3)) = false := by
      simp only [beq_eq_false_iff_ne]
      omega
    have widened : ((gap ++ [left, right]).tail).length = (done ++ [hashPair left right]).length := by
      simp only [List.length_tail, List.length_append, List.length_cons, List.length_nil]
      omega
    obtain ⟨tail, rest_eq⟩ := ih fuel (done ++ [hashPair left right]) (gap ++ [left, right]).tail
      mutated widened (by simp only [List.length_cons] at enough ⊢; omega)
    refine ⟨tail, ?_⟩
    have sizes : 2 * done.length + (left :: right :: next :: rest).length
        = 2 * (done ++ [hashPair left right]).length + (next :: rest).length := by
      simp only [List.length_append, List.length_cons, List.length_nil]
      omega
    have moved : done ++ hashPair left right :: (gap ++ left :: right :: (next :: rest ++ junk)).tail
        = (done ++ [hashPair left right])
          ++ ((gap ++ [left, right]).tail ++ (next :: rest ++ junk)) := by
      cases gap with
      | nil => simp
      | cons first others => simp
    rw [inner, Bool.false_and, Bool.or_false, moved] at turn
    rw [← sizes, List.length_append, List.length_singleton] at rest_eq
    rw [equation] at rest_eq
    refine turn.trans (rest_eq.trans ?_)
    simp

theorem merkleRootLoop_eq (fuel : Nat) (level junk : List Uint256) (mutated : Bool)
    (filled : level ≠ [])
    : merkleRootLoop hashPair fuel level.length (level ++ junk) mutated
      = merkleLevels hashPair fuel level mutated := by
  induction fuel generalizing level junk mutated with
  | zero =>
    match level with
    | [root] => rfl
    | root :: _ :: _ => rfl
  | succ fuel ih =>
    match level with
    | [root] => rfl
    | left :: right :: rest =>
      obtain ⟨tail, loop⟩ := merkleLevelLoop_eq hashPair (left :: right :: rest)
        (left :: right :: rest).length [] [] junk mutated rfl (Nat.le_refl _)
      have wide : ¬ (left :: right :: rest).length ≤ 1 := by simp
      have above : (merkleLevel hashPair (left :: right :: rest)).1 ≠ [] := by
        apply List.ne_nil_of_length_pos
        rw [merkleLevel_length]
        simp only [List.length_cons]
        omega
      simp only [List.length_nil, Nat.mul_zero, Nat.zero_add, List.nil_append] at loop
      simp only [merkleRootLoop, if_neg wide, loop]
      rw [← merkleLevel_length hashPair]
      exact ih _ tail _ above

theorem merkleRootOverwriting_eq (txids : List Uint256)
    : merkleRootOverwriting hashPair txids = merkleRootMutatedInPlace hashPair txids := by
  unfold merkleRootOverwriting
  split
  · next empty =>
      rw [List.length_eq_zero_iff.mp empty]
      rfl
  · next filled =>
      have same := merkleRootLoop_eq hashPair txids.length txids [] false
        (fun empty => filled (by rw [empty]; rfl))
      rwa [List.append_nil] at same

-- Pairs

/-- The pairs that a level hashes. -/
def levelPairs : List Uint256 → List (Uint256 × Uint256)
  | [] => []
  | [last] => [(last, last)]
  | left :: right :: rest => (left, right) :: levelPairs rest

/-- The pairs that all levels above a list hash. -/
def hashedPairs : Nat → List Uint256 → List (Uint256 × Uint256)
  | 0, _ => []
  | fuel + 1, level =>
    if level.length ≤ 1 then []
    else levelPairs level ++ hashedPairs fuel (merkleLevel hashPair level).1

theorem merkleLevel_fst (level : List Uint256)
    : (merkleLevel hashPair level).1
      = (levelPairs level).map fun pair => hashPair pair.1 pair.2 := by
  fun_induction merkleLevel hashPair level with
  | case1 => rfl
  | case2 => rfl
  | case3 => rfl
  | case4 left right next rest above mutated equation ih =>
    rw [equation] at ih
    simp only [levelPairs, List.map_cons, ← ih]

omit hashPair in
theorem levelPairs_ne_nil (item : Uint256) (rest : List Uint256)
    : levelPairs (item :: rest) ≠ [] := by
  cases rest with
  | nil => simp [levelPairs]
  | cons next rest => simp [levelPairs]

theorem levelPairs_injective {level other : List Uint256}
    (clean : (merkleLevel hashPair level).2 = false)
    (cleanOther : (merkleLevel hashPair other).2 = false)
    (same : levelPairs level = levelPairs other)
    : level = other := by
  fun_induction merkleLevel hashPair level generalizing other with
  | case1 =>
    rcases other with _ | ⟨item, rest⟩
    · rfl
    · exact absurd same.symm (levelPairs_ne_nil item rest)
  | case2 last =>
    rcases other with _ | ⟨_, _ | ⟨_, _ | ⟨next, rest⟩⟩⟩
    · cases same
    · simp only [levelPairs, List.cons.injEq, Prod.mk.injEq] at same
      rw [same.1.1]
    · -- an unpaired node against a pair of equal nodes, which is marked
      simp only [levelPairs, List.cons.injEq, Prod.mk.injEq] at same
      simp [merkleLevel, ← same.1.1, ← same.1.2] at cleanOther
    · simp only [levelPairs, List.cons.injEq] at same
      exact absurd same.2.symm (levelPairs_ne_nil next rest)
  | case3 left right =>
    rcases other with _ | ⟨_, _ | ⟨_, _ | ⟨next, rest⟩⟩⟩
    · cases same
    · simp only [levelPairs, List.cons.injEq, Prod.mk.injEq] at same
      simp [same.1.1, same.1.2] at clean
    · simp only [levelPairs, List.cons.injEq, Prod.mk.injEq] at same
      rw [same.1.1, same.1.2]
    · simp only [levelPairs, List.cons.injEq] at same
      exact absurd same.2.symm (levelPairs_ne_nil next rest)
  | case4 left right next rest above mutated equation ih =>
    rcases other with _ | ⟨_, _ | ⟨_, _ | ⟨first, others⟩⟩⟩
    · cases same
    · simp only [levelPairs, List.cons.injEq] at same
      exact absurd same.2 (levelPairs_ne_nil next rest)
    · simp only [levelPairs, List.cons.injEq] at same
      exact absurd same.2 (levelPairs_ne_nil next rest)
    · have cleanRest : (merkleLevel hashPair (first :: others)).2 = false := cleanOther
      rw [equation] at ih
      simp only [levelPairs, List.cons.injEq, Prod.mk.injEq] at same
      rw [same.1.1, same.1.2, ih clean cleanRest same.2]

-- Levels down from a root

/-- A list climbs to a root through a number of levels without a mark, hashing only the given
pairs. -/
inductive Climbs (pairs : List (Uint256 × Uint256)) : Nat → List Uint256 → Uint256 → Prop
  | root (root : Uint256) : Climbs pairs 0 [root] root
  | level {n : Nat} {level : List Uint256} {root : Uint256}
    (hashed : levelPairs level ⊆ pairs) (clean : (merkleLevel hashPair level).2 = false)
    (rest : Climbs pairs n (merkleLevel hashPair level).1 root)
    : Climbs pairs (n + 1) level root

variable {hashPair} {pairs : List (Uint256 × Uint256)}

theorem Climbs.ne_nil {n : Nat} {level : List Uint256} {root : Uint256}
    (climbs : Climbs hashPair pairs n level root)
    : level ≠ [] := by
  induction climbs with
  | root => simp
  | level hashed clean rest ih =>
    intro empty
    apply ih
    rw [empty]
    rfl

theorem Climbs.widen {wider : List (Uint256 × Uint256)} (subset : pairs ⊆ wider) {n : Nat}
    {level : List Uint256} {root : Uint256} (climbs : Climbs hashPair pairs n level root)
    : Climbs hashPair wider n level root := by
  induction climbs with
  | root root => exact .root root
  | level hashed clean rest ih => exact .level (List.Subset.trans hashed subset) clean ih

theorem climbs_of_merkleLevels (fuel : Nat) {level : List Uint256} {mutated : Bool}
    {root : Uint256} (filled : level ≠ []) (enough : level.length ≤ fuel + 1)
    (run : merkleLevels hashPair fuel level mutated = (root, false))
    : mutated = false ∧ ∃ n, Climbs hashPair (hashedPairs hashPair fuel level) n level root := by
  induction fuel generalizing level mutated with
  | zero =>
    match level with
    | [_] =>
      cases run
      exact ⟨rfl, 0, .root _⟩
  | succ fuel ih =>
    match level with
    | [_] =>
      cases run
      exact ⟨rfl, 0, .root _⟩
    | left :: right :: rest =>
      have above : (merkleLevel hashPair (left :: right :: rest)).1.length
          = ((left :: right :: rest).length + 1) / 2 := merkleLevel_length hashPair _
      simp only [List.length_cons] at enough above
      have upFilled : (merkleLevel hashPair (left :: right :: rest)).1 ≠ [] := by
        apply List.ne_nil_of_length_pos
        omega
      obtain ⟨clean, n, climbs⟩ := ih upFilled (by omega) run
      rw [Bool.or_eq_false_iff] at clean
      refine ⟨clean.1, n + 1, .level ?_ clean.2 (climbs.widen ?_)⟩
      · simp [hashedPairs]
      · simp [hashedPairs]

/-- The hash does not collide on the pairs. -/
def CollisionFree (hashPair : Uint256 → Uint256 → Uint256) (pairs : List (Uint256 × Uint256))
    : Prop :=
  ∀ pair ∈ pairs, ∀ other ∈ pairs,
    hashPair pair.1 pair.2 = hashPair other.1 other.2 → pair = other

theorem map_injective_on {f : Uint256 × Uint256 → Uint256} {left right : List (Uint256 × Uint256)}
    (injective : ∀ pair ∈ left, ∀ other ∈ right, f pair = f other → pair = other)
    (same : left.map f = right.map f)
    : left = right := by
  induction left generalizing right with
  | nil => exact (List.map_eq_nil_iff.mp same.symm).symm
  | cons pair left ih =>
    match right with
    | [] => cases same
    | other :: right =>
      obtain ⟨first, rest⟩ := List.cons.inj same
      rw [injective pair List.mem_cons_self other List.mem_cons_self first]
      rw [ih (fun p member q memberQ => injective p (List.mem_cons_of_mem _ member) q
        (List.mem_cons_of_mem _ memberQ)) rest]

theorem Climbs.unique (free : CollisionFree hashPair pairs) {n : Nat}
    {level other : List Uint256} {root : Uint256} (climbs : Climbs hashPair pairs n level root)
    (climbsOther : Climbs hashPair pairs n other root)
    : level = other := by
  induction climbs generalizing other with
  | root root =>
    cases climbsOther
    rfl
  | level hashed clean rest ih =>
    cases climbsOther with
    | level hashedOther cleanOther restOther =>
      have above := ih restOther
      rw [merkleLevel_fst, merkleLevel_fst] at above
      apply levelPairs_injective hashPair clean cleanOther
      refine map_injective_on ?_ above
      exact fun pair member q memberQ =>
        free pair (hashed member) q (hashedOther memberQ)

theorem Climbs.lower {n k : Nat} {level : List Uint256} {root : Uint256}
    (climbs : Climbs hashPair pairs (n + (k + 1)) level root)
    : ∃ lower, Climbs hashPair pairs n lower root
      ∧ ∀ item ∈ lower, ∃ pair ∈ pairs, item = hashPair pair.1 pair.2 := by
  induction k generalizing level with
  | zero =>
    cases climbs with
    | level hashed clean rest =>
      refine ⟨_, rest, ?_⟩
      intro item member
      rw [merkleLevel_fst] at member
      obtain ⟨pair, pairMember, rfl⟩ := List.mem_map.mp member
      exact ⟨pair, hashed pairMember, rfl⟩
  | succ k ih =>
    cases climbs with
    | level hashed clean rest => exact ih rest

/-- No hash of the pairs is an id of the list. -/
def NoIdHashed (hashPair : Uint256 → Uint256 → Uint256) (pairs : List (Uint256 × Uint256))
    (txids : List Uint256) : Prop :=
  ∀ pair ∈ pairs, hashPair pair.1 pair.2 ∉ txids

theorem Climbs.not_below (free : CollisionFree hashPair pairs) {n k : Nat}
    {txids others : List Uint256} {root : Uint256}
    (climbs : Climbs hashPair pairs n txids root) (fresh : NoIdHashed hashPair pairs txids)
    (climbsOthers : Climbs hashPair pairs (n + (k + 1)) others root)
    : False := by
  obtain ⟨lower, climbsLower, hashes⟩ := climbsOthers.lower
  have same := climbs.unique free climbsLower
  obtain ⟨id, member⟩ := List.exists_mem_of_ne_nil _ climbs.ne_nil
  obtain ⟨pair, pairMember, rfl⟩ := hashes id (same ▸ member)
  exact fresh pair pairMember member

theorem Climbs.same (free : CollisionFree hashPair pairs) {n m : Nat} {txids others : List Uint256}
    {root : Uint256} (climbs : Climbs hashPair pairs n txids root)
    (fresh : NoIdHashed hashPair pairs txids) (climbsOthers : Climbs hashPair pairs m others root)
    (freshOthers : NoIdHashed hashPair pairs others)
    : txids = others := by
  rcases Nat.lt_trichotomy n m with below | rfl | above
  · obtain ⟨k, rfl⟩ := Nat.exists_eq_add_of_lt below
    exact (climbs.not_below free fresh climbsOthers).elim
  · exact climbs.unique free climbsOthers
  · obtain ⟨k, rfl⟩ := Nat.exists_eq_add_of_lt above
    exact (climbsOthers.not_below free freshOthers climbs).elim

end

-- What the root binds

/-- On the pairs that the roots of the two lists hash there is no collision, and none of the
hashes is an id of the lists. An injective hash without ids among its values is such for all
lists. -/
structure Unforged (hashPair : Uint256 → Uint256 → Uint256) (txids others : List Uint256)
    : Prop where
  free : CollisionFree hashPair
    (hashedPairs hashPair txids.length txids ++ hashedPairs hashPair others.length others)
  fresh : NoIdHashed hashPair
    (hashedPairs hashPair txids.length txids ++ hashedPairs hashPair others.length others)
    (txids ++ others)

theorem merkleRootMutatedInPlace_injective {hashPair : Uint256 → Uint256 → Uint256}
    {txids others : List Uint256} (filled : txids ≠ []) (filledOthers : others ≠ [])
    (unforged : Unforged hashPair txids others)
    (sameRoot : (merkleRootMutatedInPlace hashPair txids).1
      = (merkleRootMutatedInPlace hashPair others).1)
    (clean : (merkleRootMutatedInPlace hashPair txids).2 = false)
    (cleanOthers : (merkleRootMutatedInPlace hashPair others).2 = false)
    : txids = others := by
  obtain ⟨-, n, climbs⟩ := climbs_of_merkleLevels txids.length filled (Nat.le_succ _)
    (Prod.ext rfl clean)
  obtain ⟨-, m, climbsOthers⟩ := climbs_of_merkleLevels others.length filledOthers (Nat.le_succ _)
    (Prod.ext sameRoot.symm cleanOthers)
  refine (climbs.widen (List.subset_append_left _ _)).same unforged.free ?_
    (climbsOthers.widen (List.subset_append_right _ _)) ?_
  · exact fun pair member hashed => unforged.fresh pair member (List.mem_append_left _ hashed)
  · exact fun pair member hashed => unforged.fresh pair member (List.mem_append_right _ hashed)

theorem domainConsensusCheckBlockMerkleRoot_ok {env : CheckEnv} {block : FullBlock}
    (checked : domainConsensusCheckBlockMerkleRoot env block = .ok ())
    : merkleRootMutatedInPlace env.merkleHashPair (block.vtx.map Transaction.hash)
      = (block.header.hashMerkleRoot, false) := by
  cases found : merkleRootMutatedInPlace env.merkleHashPair (block.vtx.map Transaction.hash) with
  | mk root mutated =>
    simp only [domainConsensusCheckBlockMerkleRoot, found, Consensus.require] at checked
    split at checked
    · next sameRoot =>
        cases mutated with
        | true => cases checked
        | false => rw [eq_of_beq sameRoot]
    · cases checked

/-- Lists of ids with the same root and no mark are the same, and so are the ids of two blocks
that pass the check under the same root. -/
theorem merkleRoot_binds (hashPair : Uint256 → Uint256 → Uint256)
    : (∀ txids others : List Uint256, txids ≠ [] → others ≠ [] →
        Unforged hashPair txids others →
        (merkleRootOverwriting hashPair txids).1 = (merkleRootOverwriting hashPair others).1 →
        (merkleRootOverwriting hashPair txids).2 = false →
        (merkleRootOverwriting hashPair others).2 = false →
          txids = others)
      ∧ ∀ (env : CheckEnv) (block other : FullBlock), env.merkleHashPair = hashPair →
        block.vtx ≠ [] → other.vtx ≠ [] →
        Unforged hashPair (block.vtx.map Transaction.hash) (other.vtx.map Transaction.hash) →
        block.header.hashMerkleRoot = other.header.hashMerkleRoot →
        domainConsensusCheckBlockMerkleRoot env block = .ok () →
        domainConsensusCheckBlockMerkleRoot env other = .ok () →
          block.vtx.map Transaction.hash = other.vtx.map Transaction.hash := by
  constructor
  · intro txids others filled filledOthers unforged
    rw [merkleRootOverwriting_eq, merkleRootOverwriting_eq]
    exact merkleRootMutatedInPlace_injective filled filledOthers unforged
  · rintro env block other rfl filled filledOther unforged sameRoot checked checkedOther
    have root := domainConsensusCheckBlockMerkleRoot_ok checked
    have rootOther := domainConsensusCheckBlockMerkleRoot_ok checkedOther
    apply merkleRootMutatedInPlace_injective _ _ unforged
    · rw [root, rootOther]
      exact sameRoot
    · rw [root]
    · rw [rootOther]
    · simpa using filled
    · simpa using filledOther

/-- The first bytes of both, side by side. -/
def toyHashPair (left right : Uint256) : Uint256 :=
  .fill (left.data.headD 0 * 16 + right.data.headD 0)

/-- Three ids, the last of them hashed with itself. -/
theorem merkleRoot_binds_three
    : (merkleRootOverwriting toyHashPair [.fill 1, .fill 2, .fill 3]) = (.fill 83, false)
      ∧ [Uint256.fill 1, .fill 2, .fill 3] = [.fill 3, .fill 2, .fill 1].reverse := by
  refine ⟨by decide, (merkleRoot_binds toyHashPair).1 _ _ (by simp) (by simp) ?_ rfl ?_ ?_⟩
  · exact ⟨by unfold CollisionFree; decide, by unfold NoIdHashed; decide⟩
  · decide
  · decide

end Z23.Validation
