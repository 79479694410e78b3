import Mathlib.Algebra.Order.Ring.Nat
import Mathlib.Tactic.Ring

/-!
Ranges of perfect binary hash trees over consecutive blocks of leaves, and paths that climb from a
node of such a tree to its peak. A range is written from its last mountain on.
-/

namespace Z23.Lib.Mountains

variable {α : Type} {node : α → α → α} {h k r bits : Nat} {hs : List Nat} {xs ys zs ps : List α}
  {a b p x : α}

-- Perfect trees

/-- The peak of the perfect tree of a height over the leaves. -/
inductive Perfect (node : α → α → α) : Nat → List α → α → Prop where
  | leaf (x : α) : Perfect node 0 [x] x
  | pair {h : Nat} {xs ys : List α} {a b : α} (left : Perfect node h xs a)
      (right : Perfect node h ys b) : Perfect node (h + 1) (xs ++ ys) (node a b)

theorem Perfect.length (perfect : Perfect node h xs a) : xs.length = 2 ^ h := by
  induction perfect with
  | leaf x => rfl
  | pair left right leftLength rightLength =>
    rw [List.length_append, leftLength, rightLength]
    ring

theorem Perfect.zero_iff : Perfect node 0 xs a ↔ xs = [a] := by
  constructor
  · intro perfect
    cases perfect
    rfl
  · rintro rfl
    exact .leaf a

theorem Perfect.succ_iff : Perfect node (h + 1) zs p
    ↔ ∃ xs ys a b, zs = xs ++ ys ∧ p = node a b ∧ Perfect node h xs a ∧ Perfect node h ys b := by
  constructor
  · intro perfect
    cases perfect with
    | pair left right => exact ⟨_, _, _, _, rfl, rfl, left, right⟩
  · rintro ⟨xs, ys, a, b, rfl, rfl, left, right⟩
    exact .pair left right

/-- The hash of a pair names its parts. -/
def PairInjective (node : α → α → α) : Prop :=
  ∀ a b c d, node a b = node c d → a = c ∧ b = d

theorem Perfect.injective (inj : PairInjective node) (first : Perfect node h xs a)
    (second : Perfect node h ys a) : xs = ys := by
  induction first generalizing ys with
  | leaf x =>
    rw [Perfect.zero_iff] at second
    exact second.symm
  | pair left right leftSame rightSame =>
    obtain ⟨us, vs, c, d, rfl, same, below, above⟩ := Perfect.succ_iff.mp second
    obtain ⟨rfl, rfl⟩ := inj _ _ _ _ same
    rw [leftSame below, rightSame above]

-- Ranges

/-- Mountains over consecutive blocks of leaves: their heights and peaks, the last one first. -/
inductive Range (node : α → α → α) : List Nat → List α → List α → Prop where
  | nil : Range node [] [] []
  | push {hs : List Nat} {ps xs ys : List α} {h : Nat} {p : α} (before : Range node hs ps xs)
      (last : Perfect node h ys p) : Range node (h :: hs) (p :: ps) (xs ++ ys)

theorem Range.sum (range : Range node hs ps xs) : (hs.map (2 ^ ·)).sum = xs.length := by
  induction range with
  | nil => rfl
  | push before last total =>
    rw [List.map_cons, List.sum_cons, total, List.length_append, last.length, Nat.add_comm]

theorem Range.count (range : Range node hs ps xs) : ps.length = hs.length := by
  induction range with
  | nil => rfl
  | push before last same => rw [List.length_cons, List.length_cons, same]

theorem Range.cons_iff : Range node (h :: hs) (p :: ps) zs
    ↔ ∃ xs ys, zs = xs ++ ys ∧ Range node hs ps xs ∧ Perfect node h ys p := by
  constructor
  · intro range
    cases range with
    | push before last => exact ⟨_, _, rfl, before, last⟩
  · rintro ⟨xs, ys, rfl, before, last⟩
    exact .push before last

/-- Two neighbours of one height become one mountain. -/
theorem Range.merge (range : Range node (h :: h :: hs) (b :: a :: ps) xs)
    : Range node ((h + 1) :: hs) (node a b :: ps) xs := by
  obtain ⟨_, right, rfl, rest, last⟩ := Range.cons_iff.mp range
  obtain ⟨front, left, rfl, before, first⟩ := Range.cons_iff.mp rest
  rw [List.append_assoc]
  exact .push before (.pair first last)

/-- Peaks of the same heights determine the leaves. -/
theorem Range.injective (inj : PairInjective node) (first : Range node hs ps xs)
    (second : Range node hs ps ys) : xs = ys := by
  induction first generalizing ys with
  | nil =>
    cases second
    rfl
  | push before last same =>
    obtain ⟨us, vs, rfl, earlier, final⟩ := Range.cons_iff.mp second
    rw [same earlier, last.injective inj final]

/-- A mountain of a range with the leaves before it. -/
theorem Range.mem_split {n : Nat} (range : Range node hs ps xs) (place : hs[n]? = some h)
    : ∃ p pre block post, ps[n]? = some p ∧ xs = pre ++ block ++ post ∧ Perfect node h block p
      ∧ pre.length = ((hs.drop (n + 1)).map (2 ^ ·)).sum := by
  induction range generalizing n with
  | nil => simp at place
  | @push hs ps xs ys height peak before last ih =>
    cases n with
    | zero =>
      obtain rfl : height = h := by simpa using place
      exact ⟨peak, xs, ys, [], rfl, by simp, last, before.sum.symm⟩
    | succ n =>
      obtain ⟨p, pre, block, post, here, rfl, perfect, start⟩ := ih place
      refine ⟨p, pre, block, post ++ ys, here, ?_, perfect, start⟩
      simp only [List.append_assoc]

-- Paths

/-- Climbs from a node with a sibling for each level; a set bit puts the sibling on the left. -/
def climb (node : α → α → α) (bits : Nat) : Nat → α → List α → α
  | _, x, [] => x
  | i, x, s :: siblings =>
    climb node bits (i + 1) (if bits.testBit i then node s x else node x s) siblings

theorem climb_append (i : Nat) (x s : α) (siblings : List α)
    : climb node bits i x (siblings ++ [s])
        = if bits.testBit (i + siblings.length) then node s (climb node bits i x siblings)
          else node (climb node bits i x siblings) s := by
  induction siblings generalizing i x with
  | nil => rfl
  | cons first siblings ih =>
    rw [List.cons_append, climb, ih, climb, List.length_cons, Nat.add_right_comm, Nat.add_assoc]

theorem mod_two_pow_succ (bits k : Nat)
    : bits % 2 ^ (k + 1) = bits % 2 ^ k + if bits.testBit k then 2 ^ k else 0 := by
  rw [Nat.pow_succ, Nat.mod_mul, Nat.testBit_eq_decide_div_mod_eq]
  rcases Nat.mod_two_eq_zero_or_one (bits / 2 ^ k) with even | odd
  · simp [even]
  · simp [odd]

/-- The node below a peak that a path starts from: its block starts where the bits say. -/
theorem climb_sound (inj : PairInjective node) {siblings : List α} (length : siblings.length = k)
    (perfect : Perfect node (r + k) xs (climb node bits 0 x siblings))
    : ∃ pre block post, xs = pre ++ block ++ post ∧ pre.length = bits % 2 ^ k * 2 ^ r
      ∧ Perfect node r block x := by
  induction k generalizing siblings xs with
  | zero =>
    obtain rfl := List.length_eq_zero_iff.mp length
    refine ⟨[], xs, [], by simp, ?_, perfect⟩
    rw [Nat.pow_zero, Nat.mod_one, Nat.zero_mul]
    rfl
  | succ k ih =>
    have nonempty : siblings ≠ [] := by
      rintro rfl
      cases length
    obtain ⟨lower, s, rfl⟩ : ∃ lower s, siblings = lower ++ [s] :=
      ⟨_, _, (List.dropLast_concat_getLast nonempty).symm⟩
    have lowerLength : lower.length = k := by simpa using length
    obtain ⟨left, right, a, b, rfl, same, below, above⟩ := Perfect.succ_iff.mp perfect
    have leftLength : left.length = 2 ^ (r + k) := below.length
    rw [climb_append, Nat.zero_add, lowerLength] at same
    rw [mod_two_pow_succ]
    by_cases bit : bits.testBit k = true
    · rw [if_pos bit] at same
      obtain ⟨-, rfl⟩ := inj _ _ _ _ same
      obtain ⟨pre, block, post, rfl, start, found⟩ := ih lowerLength above
      refine ⟨left ++ pre, block, post, by simp only [List.append_assoc], ?_, found⟩
      rw [List.length_append, leftLength, start, if_pos bit, Nat.pow_add]
      ring
    · rw [if_neg bit] at same
      obtain ⟨rfl, -⟩ := inj _ _ _ _ same
      obtain ⟨pre, block, post, rfl, start, found⟩ := ih lowerLength below
      refine ⟨pre, block, post ++ right, by simp only [List.append_assoc], ?_, found⟩
      rw [start, if_neg bit, Nat.add_zero]

/-- Every node below a peak has a path to it, for the bits of its place. -/
theorem climb_complete (bits : Nat) (perfect : Perfect node (r + k) xs p)
    : ∃ x siblings pre block post, siblings.length = k ∧ climb node bits 0 x siblings = p
      ∧ xs = pre ++ block ++ post ∧ pre.length = bits % 2 ^ k * 2 ^ r
      ∧ Perfect node r block x := by
  induction k generalizing xs p with
  | zero =>
    refine ⟨p, [], [], xs, [], rfl, rfl, by simp, ?_, perfect⟩
    rw [Nat.pow_zero, Nat.mod_one, Nat.zero_mul]
    rfl
  | succ k ih =>
    obtain ⟨left, right, a, b, rfl, rfl, below, above⟩ := Perfect.succ_iff.mp perfect
    have leftLength : left.length = 2 ^ (r + k) := below.length
    rw [mod_two_pow_succ]
    by_cases bit : bits.testBit k = true
    · obtain ⟨x, siblings, pre, block, post, length, climbs, rfl, start, found⟩ := ih above
      refine ⟨x, siblings ++ [a], left ++ pre, block, post, by simp [length], ?_,
        by simp only [List.append_assoc], ?_, found⟩
      · rw [climb_append, Nat.zero_add, length, if_pos bit, climbs]
      · rw [List.length_append, leftLength, start, if_pos bit, Nat.pow_add]
        ring
    · obtain ⟨x, siblings, pre, block, post, length, climbs, rfl, start, found⟩ := ih below
      refine ⟨x, siblings ++ [b], pre, block, post ++ right, by simp [length], ?_,
        by simp only [List.append_assoc], ?_, found⟩
      · rw [climb_append, Nat.zero_add, length, if_neg bit, climbs]
      · rw [start, if_neg bit, Nat.add_zero]

end Z23.Lib.Mountains
