import Mathlib.Data.List.Induction
import Mathlib.Data.Nat.BitIndices
import Mathlib.Data.Nat.Digits.Defs
import Z23.Lib.Mountains

/-!
The Merkle mountain range over block hashes. An append merges the peaks that the new leaf
completes, as a binary counter carries, so the peaks are the perfect trees of the binary expansion
of the number of leaves.
-/

namespace Z23.Chain.MountainRange

open Z23.Lib.Mountains

-- The structure

/-- What a leaf commits to: a block hash, or a commitment at a height. -/
inductive MmrLeaf (W : Type) where
  | block (blockHash : W)
  | commitment (height : Int32) (blockHash utxoRoot dataRoot : W)
deriving DecidableEq

/-- The inputs that are hashed; each kind has a tag of its own. -/
inductive MmrInput (W : Type) where
  | leaf (leaf : MmrLeaf W)
  | internal (left right : W)
  | root (peaks : List W)
deriving DecidableEq

/-- The number of leaves is a 64-bit word, and the last peak is the first of the list. -/
structure Mmr (W : Type) where
  numLeaves : Nat
  peaks : List W
deriving DecidableEq

def mmrMaxPeaks : Nat := 64

section

variable {W : Type} (sha3 : MmrInput W → W)

def mmrHashLeaf (leaf : MmrLeaf W) : W := sha3 (.leaf leaf)

def mmrHashInternal (left right : W) : W := sha3 (.internal left right)

def mmrInit : Mmr W := ⟨0, []⟩

/-- Merges the last peaks into the new one while the count of trees of its height is even. -/
def mergeLoop : Nat → W → List W → W × List W × Nat
  | _, h, [] => (h, [], 0)
  | n, h, peak :: peaks =>
    if n % 2 = 0 then
      let (h, peaks, merges) := mergeLoop (n / 2) (mmrHashInternal sha3 peak h) peaks
      (h, peaks, merges + 1)
    else (h, peak :: peaks, 0)

/-- The range with one more leaf, and the number of merges. -/
def mmrAppendPrehashed (m : Mmr W) (h : W) : Mmr W × Nat :=
  let count := (m.numLeaves + 1) % 2 ^ 64
  let (h, peaks, merges) := mergeLoop sha3 count h m.peaks
  (⟨count, h :: peaks⟩, merges)

def mmrAppend (m : Mmr W) (leaf : MmrLeaf W) : Mmr W :=
  (mmrAppendPrehashed sha3 m (mmrHashLeaf sha3 leaf)).1

/-- The range after the leaves have been appended in order. -/
def mmrAppendAll (leaves : List (MmrLeaf W)) : Mmr W := leaves.foldl (mmrAppend sha3) mmrInit

def mmrBagPeaks (peaks : List W) : W := sha3 (.root peaks)

def mmrRoot (zero : W) (m : Mmr W) : W :=
  match m.peaks with
  | [] => zero
  | [peak] => peak
  | peaks => mmrBagPeaks sha3 peaks.reverse

end

-- Binary expansions

/-- The number of ones in the binary expansion. -/
def popcount (n : Nat) : Nat := (Nat.digits 2 n).sum

theorem bitIndices_length (n : Nat) : n.bitIndices.length = popcount n := by
  unfold popcount
  induction n using Nat.strong_induction_on with
  | _ n ih =>
    rcases Nat.eq_zero_or_pos n with rfl | positive
    · rfl
    · have half := ih (n / 2) (Nat.div_lt_self positive (by decide))
      rw [Nat.digits_def' (by decide) positive, List.sum_cons, ← half]
      rcases Nat.even_or_odd' n with ⟨c, rfl | rfl⟩
      · rw [Nat.bitIndices_two_mul, List.length_map, Nat.mul_mod_right,
          Nat.mul_div_cancel_left _ (by decide), Nat.zero_add]
      · have quotient : (2 * c + 1) / 2 = c := by omega
        have rest : (2 * c + 1) % 2 = 1 := by omega
        rw [Nat.bitIndices_two_mul_add_one, List.length_cons, List.length_map, quotient, rest,
          Nat.add_comm]

theorem popcount_le {n k : Nat} (small : n < 2 ^ k) : popcount n ≤ k := by
  have inside : n.bitIndices ⊆ List.range k := by
    intro i member
    have low := Nat.two_pow_le_of_mem_bitIndices member
    rw [List.mem_range]
    exact (Nat.pow_lt_pow_iff_right (by decide)).mp (Nat.lt_of_le_of_lt low small)
  have count := (List.subperm_of_subset Nat.bitIndices_nodup inside).length_le
  rwa [List.length_range, bitIndices_length] at count

theorem bitIndices_eq_nil {n : Nat} (empty : n.bitIndices = []) : n = 0 := by
  have total := Nat.sum_map_two_pow_bitIndices n
  rw [empty] at total
  exact total.symm

-- One append

variable {W : Type} {sha3 : MmrInput W → W}

/--
The counter of the loop follows the number of trees of the current height: it is one more, or it
has lost one bit above its own by wrapping.
-/
def Follows (n count : Nat) : Prop := n = count + 1 ∨ ∃ j, n < 2 ^ j ∧ n + 2 ^ j = count + 1

theorem Follows.parity {n count : Nat} (follows : Follows n count) (positive : 0 < count)
    : n % 2 = (count + 1) % 2 := by
  rcases follows with same | ⟨j, small, wrapped⟩
  · rw [same]
  · cases j with
    | zero => omega
    | succ j =>
      rw [Nat.pow_succ] at wrapped
      omega

theorem Follows.half {n half : Nat} (follows : Follows n (2 * half + 1))
    : Follows (n / 2) half := by
  rcases follows with same | ⟨j, small, wrapped⟩
  · exact .inl (by omega)
  · cases j with
    | zero => omega
    | succ j =>
      rw [Nat.pow_succ] at small wrapped
      exact .inr ⟨j, by omega, by omega⟩

theorem map_add_add (hs : List Nat) (k : Nat)
    : (hs.map (· + 1)).map (· + k) = hs.map (· + (k + 1)) := by
  rw [List.map_map]
  apply List.map_congr_left
  intro h _
  simp only [Function.comp_apply]
  omega

/-- The loop adds a tree to as many trees of its height, and of the higher ones. -/
theorem mergeLoop_range {count n k : Nat} {h : W} {peaks xs ys : List W} (follows : Follows n count)
    (range : Range (mmrHashInternal sha3) (count.bitIndices.map (· + k)) peaks xs)
    (perfect : Perfect (mmrHashInternal sha3) k ys h)
    : Range (mmrHashInternal sha3) ((count + 1).bitIndices.map (· + k))
        ((mergeLoop sha3 n h peaks).1 :: (mergeLoop sha3 n h peaks).2.1) (xs ++ ys) := by
  induction peaks generalizing count n k h xs ys with
  | nil =>
    have none : count.bitIndices.map (· + k) = [] := List.length_eq_zero_iff.mp range.count.symm
    obtain rfl := bitIndices_eq_nil (List.map_eq_nil_iff.mp none)
    have single : (0 + 1 : Nat).bitIndices.map (· + k) = [k] := by simp
    rw [none] at range
    rw [single]
    exact .push range perfect
  | cons peak peaks ih =>
    have positive : 0 < count := by
      rcases Nat.eq_zero_or_pos count with rfl | positive
      · cases range.count
      · exact positive
    have parity := follows.parity positive
    rw [mergeLoop]
    rcases Nat.even_or_odd' count with ⟨c, rfl | rfl⟩
    · rw [if_neg (by omega), Nat.bitIndices_two_mul_add_one, ← Nat.bitIndices_two_mul,
        List.map_cons, Nat.zero_add]
      exact .push range perfect
    · have next : 2 * c + 1 + 1 = 2 * (c + 1) := by omega
      rw [Nat.bitIndices_two_mul_add_one, List.map_cons, Nat.zero_add, map_add_add] at range
      obtain ⟨before, block, rfl, rest, last⟩ := Range.cons_iff.mp range
      have merged := ih follows.half rest (.pair last perfect)
      rw [if_pos (by omega), next, Nat.bitIndices_two_mul, map_add_add, List.append_assoc]
      exact merged

/-- The peaks are the perfect trees of the binary expansion of the number of leaves. -/
structure Expanded (sha3 : MmrInput W → W) (m : Mmr W) (leaves : List (MmrLeaf W)) : Prop where
  counted : m.numLeaves = leaves.length % 2 ^ 64
  range : Range (mmrHashInternal sha3) leaves.length.bitIndices m.peaks
    (leaves.map (mmrHashLeaf sha3))

/-- The counter may wrap once without harm to the peaks. -/
theorem Expanded.append {m : Mmr W} {leaves : List (MmrLeaf W)} (expanded : Expanded sha3 m leaves)
    (leaf : MmrLeaf W) (few : leaves.length + 1 < 2 ^ 65)
    : Expanded sha3 (mmrAppend sha3 m leaf) (leaves ++ [leaf]) := by
  have count : (m.numLeaves + 1) % 2 ^ 64 = (leaves.length + 1) % 2 ^ 64 := by
    rw [expanded.counted, Nat.mod_add_mod]
  have follows : Follows ((leaves.length + 1) % 2 ^ 64) leaves.length := by
    by_cases wraps : leaves.length + 1 < 2 ^ 64
    · exact .inl (Nat.mod_eq_of_lt wraps)
    · exact .inr ⟨64, by omega, by omega⟩
  have shift : ∀ hs : List Nat, hs.map (· + 0) = hs := by simp
  have grown := mergeLoop_range follows (by rw [shift]; exact expanded.range)
    (.leaf (mmrHashLeaf sha3 leaf))
  rw [shift] at grown
  constructor
  · rw [List.length_append, List.length_singleton, ← count]
    rfl
  · rw [List.length_append, List.length_singleton, List.map_append, List.map_singleton]
    unfold mmrAppend mmrAppendPrehashed
    simp only [count]
    exact grown

theorem appendAll_expanded (leaves : List (MmrLeaf W)) (few : leaves.length < 2 ^ 65)
    : Expanded sha3 (mmrAppendAll sha3 leaves) leaves := by
  induction leaves using List.reverseRecOn with
  | nil => exact ⟨rfl, .nil⟩
  | append_singleton leaves leaf ih =>
    rw [List.length_append, List.length_singleton] at few
    unfold mmrAppendAll
    rw [List.foldl_append]
    exact (ih (by omega)).append leaf few

-- Canonical and binding

/--
The state is determined by the leaves: from the right, the peaks are the perfect trees whose
heights are the places of the ones in the number of leaves, and there is room for all of them.
-/
structure Canonical (sha3 : MmrInput W → W) (m : Mmr W) (leaves : List (MmrLeaf W)) : Prop where
  counted : m.numLeaves = leaves.length
  range : Range (mmrHashInternal sha3) leaves.length.bitIndices m.peaks
    (leaves.map (mmrHashLeaf sha3))
  peakCount : m.peaks.length = popcount leaves.length
  room : m.peaks.length ≤ mmrMaxPeaks

theorem appendAll_peakCount {leaves : List (MmrLeaf W)} (few : leaves.length < 2 ^ 65)
    : (mmrAppendAll sha3 leaves).peaks.length = popcount leaves.length := by
  rw [(appendAll_expanded leaves few).range.count, bitIndices_length]

theorem appendAll_canonical {leaves : List (MmrLeaf W)} (few : leaves.length < 2 ^ 64)
    : Canonical sha3 (mmrAppendAll sha3 leaves) leaves := by
  have within : leaves.length < 2 ^ 65 := Nat.lt_trans few (by decide)
  have expanded := @appendAll_expanded W sha3 leaves within
  have count := @appendAll_peakCount W sha3 leaves within
  refine { counted := ?_, range := expanded.range, peakCount := count, room := ?_ }
  · rw [expanded.counted, Nat.mod_eq_of_lt few]
  · rw [count]
    exact popcount_le few

section

variable (inj : Function.Injective sha3)
include inj

theorem hashInternal_pairInjective : PairInjective (mmrHashInternal sha3) := by
  intro a b c d same
  have inputs := inj same
  cases inputs
  exact ⟨rfl, rfl⟩

theorem hashLeaf_injective : Function.Injective (mmrHashLeaf sha3) := by
  intro a b same
  have inputs := inj same
  cases inputs
  rfl

theorem root_injective {zero : W} {m m' : Mmr W} (count : m.peaks.length = m'.peaks.length)
    (same : mmrRoot sha3 zero m = mmrRoot sha3 zero m')
    : m.peaks = m'.peaks := by
  obtain ⟨leaves, peaks⟩ := m
  obtain ⟨leaves', peaks'⟩ := m'
  simp only at count ⊢
  unfold mmrRoot at same
  simp only at same
  match peaks, peaks', count with
  | [], [], _ => rfl
  | [peak], [peak'], _ => exact congrArg (fun p => [p]) same
  | a :: b :: rest, a' :: b' :: rest', _ =>
    have inputs : (a :: b :: rest).reverse = (a' :: b' :: rest').reverse := by
      have hashed := inj same
      injection hashed
    exact List.reverse_injective inputs

theorem appendAll_binding {zero : W} {leaves leaves' : List (MmrLeaf W)}
    (few : leaves.length < 2 ^ 64) (count : leaves.length = leaves'.length)
    (same : mmrRoot sha3 zero (mmrAppendAll sha3 leaves) =
      mmrRoot sha3 zero (mmrAppendAll sha3 leaves'))
    : leaves = leaves' := by
  have first := @appendAll_canonical W sha3 leaves few
  have second := @appendAll_canonical W sha3 leaves' (count ▸ few)
  have peaks := root_injective inj (by rw [first.peakCount, second.peakCount, count]) same
  have range := second.range
  rw [← peaks, ← count] at range
  have hashes := first.range.injective (hashInternal_pairInjective inj) range
  exact List.map_injective_iff.mpr (hashLeaf_injective inj) hashes

end

/--
A mountain range of fewer than 2^64 leaves is canonical, and its root binds the leaves among all
sequences of the same length.
-/
theorem appendAll_canonical_binding (inj : Function.Injective sha3) (zero : W)
    (leaves : List (MmrLeaf W)) (few : leaves.length < 2 ^ 64)
    : Canonical sha3 (mmrAppendAll sha3 leaves) leaves
      ∧ ∀ leaves' : List (MmrLeaf W), leaves'.length = leaves.length →
        mmrRoot sha3 zero (mmrAppendAll sha3 leaves')
          = mmrRoot sha3 zero (mmrAppendAll sha3 leaves) → leaves' = leaves := by
  refine ⟨appendAll_canonical few, ?_⟩
  intro leaves' count same
  exact appendAll_binding inj (count ▸ few) count same

/-- Digests as terms: distinct inputs have distinct digests. -/
inductive Digest where
  | word (n : Nat)
  | sha3 (input : MmrInput Digest)

theorem appendAll_canonical_binding_three
    : Canonical Digest.sha3
        (mmrAppendAll Digest.sha3 [.block (.word 1), .block (.word 2), .block (.word 3)])
        [.block (.word 1), .block (.word 2), .block (.word 3)] :=
  (appendAll_canonical_binding (fun _ _ same => Digest.sha3.inj same) (.word 0) _ (by decide)).1

/-- With 2^64 leaves the counter is zero and one peak is left; 2^65 - 1 leaves take 65 peaks. -/
theorem appendAll_too_many
    : (mmrAppendAll Digest.sha3 (List.replicate (2 ^ 64) (.block (.word 0)))).numLeaves = 0
      ∧ (mmrAppendAll Digest.sha3 (List.replicate (2 ^ 64) (.block (.word 0)))).peaks.length = 1
      ∧ mmrMaxPeaks
        < (mmrAppendAll Digest.sha3
            (List.replicate (2 ^ 65 - 1) (.block (.word 0)))).peaks.length := by
  have wrapped := @appendAll_expanded Digest Digest.sha3
    (List.replicate (2 ^ 64) (.block (.word 0))) (by rw [List.length_replicate]; decide)
  have many := @appendAll_peakCount Digest Digest.sha3
    (List.replicate (2 ^ 65 - 1) (.block (.word 0))) (by rw [List.length_replicate]; decide)
  refine ⟨?_, ?_, ?_⟩
  · rw [wrapped.counted, List.length_replicate, Nat.mod_self]
  · rw [wrapped.range.count, List.length_replicate, Nat.bitIndices_two_pow]
    rfl
  · have ones : popcount (2 ^ 65 - 1) = 65 := by
      unfold popcount
      norm_num
    rw [many, List.length_replicate, ones]
    decide

end Z23.Chain.MountainRange
