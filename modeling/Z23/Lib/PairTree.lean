import Mathlib.Algebra.Order.Ring.Nat
import Mathlib.Tactic.Ring

/-!
Levels of a tree of pairs over a list: each level pairs the nodes of the one below it from the left,
and a last node without a partner is its own.
-/

namespace Z23.Lib.PairTree

variable {α : Type} {node : α → α → α} {xs : List α}

-- Levels

def parents (node : α → α → α) : List α → List α
  | [] => []
  | [x] => [node x x]
  | x :: y :: rest => node x y :: parents node rest

def level (node : α → α → α) : Nat → List α → List α
  | 0, xs => xs
  | h + 1, xs => parents node (level node h xs)

theorem level_parents (h : Nat) : level node h (parents node xs) = level node (h + 1) xs := by
  induction h with
  | zero => rfl
  | succ h ih => exact congrArg (parents node) ih

theorem length_parents : (parents node xs).length = (xs.length + 1) / 2 := by
  fun_induction parents node xs with
  | case1 => simp
  | case2 x => simp
  | case3 x y rest ih =>
    rw [List.length_cons, ih, List.length_cons, List.length_cons]
    omega

/-- The number of nodes of a level is the number of leaves over two to its height, rounded up. -/
theorem length_level (h : Nat) : (level node h xs).length = (xs.length + 2 ^ h - 1) / 2 ^ h := by
  induction h with
  | zero => simp [level]
  | succ h ih =>
    have positive : 0 < 2 ^ h := Nat.two_pow_pos h
    have up : (xs.length + 2 ^ h - 1) / 2 ^ h + 1 = (xs.length + 2 ^ h - 1 + 2 ^ h) / 2 ^ h :=
      (Nat.add_div_right _ positive).symm
    have sum : xs.length + 2 ^ h - 1 + 2 ^ h = xs.length + 2 ^ h * 2 - 1 := by omega
    rw [level, length_parents, ih, up, sum, Nat.div_div_eq_div_mul, Nat.pow_succ]

theorem lt_length_level_iff {h pos : Nat}
    : pos < (level node h xs).length ↔ pos * 2 ^ h < xs.length := by
  have positive : 0 < 2 ^ h := Nat.two_pow_pos h
  rw [length_level, Nat.lt_div_iff_mul_lt positive]
  omega

theorem getElem?_parents (i : Nat)
    : (parents node xs)[i]? = xs[2 * i]?.map fun x => node x (xs[2 * i + 1]?.getD x) := by
  induction i generalizing xs with
  | zero =>
    match xs with
    | [] => rfl
    | [x] => rfl
    | x :: y :: rest => rfl
  | succ i ih =>
    match xs with
    | [] => rfl
    | [x] => simp [parents]
    | x :: y :: rest =>
      rw [parents, List.getElem?_cons_succ, ih]
      rfl

theorem level_succ_get {h pos : Nat} {v : α} (found : (level node (h + 1) xs)[pos]? = some v)
    : ∃ x, (level node h xs)[pos * 2]? = some x
      ∧ v = node x ((level node h xs)[pos * 2 + 1]?.getD x) := by
  rw [level, getElem?_parents, Nat.mul_comm] at found
  obtain ⟨x, left, rfl⟩ := Option.map_eq_some_iff.mp found
  exact ⟨x, left, rfl⟩

-- Roots

/-- Climbs while there is more than one node. -/
def rootLoop (node : α → α → α) (zero : α) : Nat → List α → α
  | 0, xs => xs.headD zero
  | fuel + 1, xs =>
    if xs.length ≤ 1 then xs.headD zero else rootLoop node zero fuel (parents node xs)

theorem rootLoop_eq {zero : α} {fuel h : Nat} (enough : xs.length ≤ fuel + 1)
    (wide : ∀ below, below < h → 1 < (level node below xs).length)
    (top : (level node h xs).length ≤ 1)
    : rootLoop node zero fuel xs = (level node h xs).headD zero := by
  induction fuel generalizing xs h with
  | zero =>
    cases h with
    | zero => rfl
    | succ h =>
      have many := wide 0 (Nat.succ_pos h)
      change 1 < xs.length at many
      omega
  | succ fuel ih =>
    rw [rootLoop]
    cases h with
    | zero =>
      change xs.length ≤ 1 at top
      rw [if_pos top]
      rfl
    | succ h =>
      have many := wide 0 (Nat.succ_pos h)
      change 1 < xs.length at many
      rw [← level_parents] at top ⊢
      rw [if_neg (by omega)]
      apply ih _ _ top
      · rw [length_parents]
        omega
      · intro below lower
        rw [level_parents]
        exact wide (below + 1) (by omega)

end Z23.Lib.PairTree
