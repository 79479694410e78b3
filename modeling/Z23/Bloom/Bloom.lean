import Mathlib.Algebra.Order.Ring.Nat
import Mathlib.Data.List.TakeDrop

/-!
Bloom filters, and the rolling pair of them that forgets what is old. The sizes, which the code
computes in floating point, and the hash function are parameters.
-/

namespace Z23.Bloom

/-- The bit of an index is bit `7 & idx` of the byte `idx >> 3`. -/
structure BloomFilter where
  data : Nat → Bool
  dataSize : Nat
  isFull : Bool
  isEmpty : Bool
  numHashFuncs : Nat
  tweak : UInt32

def maxBloomHashFuncs : Nat := 50

/-- Models `bloom_filter_init_internal` after its two computations in floating point. -/
def bloomFilterInit (filterBits idealFuncs tweak : UInt32) : BloomFilter :=
  ⟨fun _ => false, max 1 (filterBits.toNat / 8), false, true,
    min idealFuncs.toNat maxBloomHashFuncs, tweak⟩

def bloomFilterClear (f : BloomFilter) : BloomFilter :=
  { f with data := fun _ => false, isFull := false, isEmpty := true }

structure RollingBloomFilter where
  b1 : BloomFilter
  b2 : BloomFilter
  bloomSize : Nat
  insertions : Nat

/-- Models `rolling_bloom_init`: both filters get the same sizes and the same tweak. -/
def rollingBloomInit (numElements filterBits idealFuncs tweak : UInt32) : RollingBloomFilter :=
  ⟨bloomFilterInit filterBits idealFuncs tweak, bloomFilterInit filterBits idealFuncs tweak,
    (numElements * 2).toNat, 0⟩

section Hash

variable (murmurHash3 : UInt32 → List UInt8 → UInt32)

def bloomHash (f : BloomFilter) (hashNum : Nat) (element : List UInt8) : Nat :=
  (murmurHash3 (UInt32.ofNat hashNum * 0xfba4c795 + f.tweak) element).toNat
    % (f.dataSize * 8 % 2 ^ 32)

def bloomFilterInsert (f : BloomFilter) (element : List UInt8) : BloomFilter :=
  if f.isFull then f
  else
    { f with
      data := (List.range f.numHashFuncs).foldl
        (fun data i => Function.update data (bloomHash murmurHash3 f i element) true) f.data
      isEmpty := false }

def bloomFilterContains (f : BloomFilter) (element : List UInt8) : Bool :=
  if f.isFull then true
  else if f.isEmpty then false
  else (List.range f.numHashFuncs).all fun i => f.data (bloomHash murmurHash3 f i element)

def rollingBloomInsert (f : RollingBloomFilter) (element : List UInt8) : RollingBloomFilter :=
  let b1 := if f.insertions = 0 then bloomFilterClear f.b1 else f.b1
  let b2 :=
    if f.insertions ≠ 0 ∧ f.insertions = f.bloomSize / 2 then bloomFilterClear f.b2 else f.b2
  let insertions := (f.insertions + 1) % 2 ^ 32
  ⟨bloomFilterInsert murmurHash3 b1 element, bloomFilterInsert murmurHash3 b2 element,
    f.bloomSize, if insertions = f.bloomSize then 0 else insertions⟩

def rollingBloomContains (f : RollingBloomFilter) (element : List UInt8) : Bool :=
  bloomFilterContains murmurHash3 (if f.insertions < f.bloomSize / 2 then f.b2 else f.b1) element

/-- The filter answers for the listed elements. -/
def Knows (f : BloomFilter) (elements : List (List UInt8)) : Prop :=
  ∀ element ∈ elements, bloomFilterContains murmurHash3 f element = true

/-- What the two filters know of the insertions so far, the last one first. -/
structure Remembers (half : Nat) (elements : List (List UInt8)) (f : RollingBloomFilter)
    : Prop where
  size : f.bloomSize = 2 * half
  below : f.insertions < 2 * half
  first : Knows murmurHash3 f.b1 (elements.take f.insertions)
  second : Knows murmurHash3 f.b2
    (elements.take (if f.insertions ≤ half then f.insertions + half else f.insertions - half))

variable {murmurHash3}

theorem foldl_update_true (hash : Nat → Nat) (is : List Nat) (data : Nat → Bool) (idx : Nat)
    : is.foldl (fun data i => Function.update data (hash i) true) data idx = true
      ↔ data idx = true ∨ ∃ i ∈ is, hash i = idx := by
  induction is generalizing data with
  | nil => simp
  | cons i is ih =>
    simp only [List.foldl_cons, ih, Function.update_apply, List.mem_cons, exists_eq_or_imp,
      ← or_assoc]
    refine or_congr ?_ Iff.rfl
    split
    · rename_i here
      simp [here]
    · rename_i other
      exact (or_iff_left (Ne.symm other)).symm

theorem contains_insert_iff (f : BloomFilter) (element other : List UInt8)
    : bloomFilterContains murmurHash3 (bloomFilterInsert murmurHash3 f element) other = true
      ↔ f.isFull = true ∨ ∀ i < f.numHashFuncs, f.data (bloomHash murmurHash3 f i other) = true
          ∨ ∃ j < f.numHashFuncs,
              bloomHash murmurHash3 f j element = bloomHash murmurHash3 f i other := by
  rw [bloomFilterContains, bloomFilterInsert]
  split
  · rename_i full
    simp [full]
  · rename_i notFull
    simp only [notFull, Bool.false_eq_true, if_false, List.all_eq_true, List.mem_range,
      foldl_update_true, false_or]
    rfl

theorem Knows.insert {f : BloomFilter} {elements : List (List UInt8)} {count : Nat}
    (knows : Knows murmurHash3 f (elements.take count)) (element : List UInt8)
    : Knows murmurHash3 (bloomFilterInsert murmurHash3 f element)
        ((element :: elements).take (count + 1)) := by
  rw [List.take_succ_cons]
  refine List.forall_mem_cons.mpr ⟨?_, fun other member => ?_⟩
  · exact (contains_insert_iff f element element).mpr (.inr fun i low => .inr ⟨i, low, rfl⟩)
  · have known := knows other member
    rw [bloomFilterContains] at known
    split_ifs at known with full
    · exact (contains_insert_iff f element other).mpr (.inl full)
    · refine (contains_insert_iff f element other).mpr (.inr fun i low => .inl ?_)
      exact List.all_eq_true.mp known i (List.mem_range.mpr low)

-- The filter that is cleared knows nothing, and from then on one more with every insertion.
theorem Remembers.insert {half : Nat} {elements : List (List UInt8)} {f : RollingBloomFilter}
    (remembers : Remembers murmurHash3 half elements f) (small : half < 2 ^ 31)
    (element : List UInt8)
    : Remembers murmurHash3 half (element :: elements)
        (rollingBloomInsert murmurHash3 f element) := by
  obtain ⟨b1, b2, size, turn⟩ := f
  obtain ⟨rfl, below, first, second⟩ := remembers
  dsimp only at below first second
  have middle : 2 * half / 2 = half := by omega
  have next : (turn + 1) % 2 ^ 32 = turn + 1 := Nat.mod_eq_of_lt (by omega)
  have first' : Knows murmurHash3 (if turn = 0 then bloomFilterClear b1 else b1)
      (elements.take turn) := by
    split
    · simp [*, Knows]
    · exact first
  have second' : Knows murmurHash3 (if turn ≠ 0 ∧ turn = half then bloomFilterClear b2 else b2)
      (elements.take (if turn = half then 0 else
        if turn ≤ half then turn + half else turn - half)) := by
    by_cases here : turn = half
    · simp [here, Knows]
    · rw [if_neg here, if_neg fun both => here both.2]
      exact second
  simp only [rollingBloomInsert, middle, next]
  refine ⟨rfl, ?_, ?_, ?_⟩
  · dsimp only
    split_ifs <;> omega
  · by_cases full : turn + 1 = 2 * half
    · simp [full, Knows]
    · rw [if_neg full]
      exact first'.insert element
  · convert second'.insert element using 2
    dsimp only
    split_ifs <;> omega

theorem Remembers.insertAll {half : Nat} {older : List (List UInt8)} {f : RollingBloomFilter}
    (remembers : Remembers murmurHash3 half older f) (small : half < 2 ^ 31)
    (elements : List (List UInt8))
    : Remembers murmurHash3 half (elements.reverse ++ older)
        (elements.foldl (rollingBloomInsert murmurHash3) f) := by
  induction elements generalizing older f with
  | nil => exact remembers
  | cons element elements ih =>
    rw [List.reverse_cons, List.append_assoc, List.singleton_append]
    exact ih (remembers.insert small element)

/-- After any insertions a rolling filter contains the last ones, as many as half its size. -/
theorem rollingBloom_remembers (murmurHash3 : UInt32 → List UInt8 → UInt32)
    (numElements filterBits idealFuncs tweak : UInt32) (sized : numElements * 2 ≠ 0)
    (elements : List (List UInt8)) {element : List UInt8}
    (recent : element ∈ elements.reverse.take ((numElements * 2).toNat / 2))
    : rollingBloomContains murmurHash3
        (elements.foldl (rollingBloomInsert murmurHash3)
          (rollingBloomInit numElements filterBits idealFuncs tweak)) element = true := by
  obtain ⟨half, even⟩ : ∃ half, (numElements * 2).toNat = 2 * half := by
    refine ⟨(numElements * 2).toNat / 2, ?_⟩
    rw [UInt32.toNat_mul, show (2 : UInt32).toNat = 2 from rfl]
    omega
  have positive : (numElements * 2).toNat ≠ 0 := fun zero => sized (UInt32.toNat_inj.mp zero)
  have small := (numElements * 2).toNat_lt
  have start : Remembers murmurHash3 half []
      (rollingBloomInit numElements filterBits idealFuncs tweak) :=
    ⟨even, show 0 < 2 * half by omega, by simp [Knows], by simp [Knows]⟩
  have remembers := start.insertAll (by omega) elements
  have size := remembers.size
  rw [List.append_nil] at remembers
  rw [even, Nat.mul_div_cancel_left half (by decide)] at recent
  rw [rollingBloomContains]
  split
  · refine remembers.second element (List.take_subset_take_left _ ?_ recent)
    rw [if_pos (by omega)]
    exact Nat.le_add_left _ _
  · exact remembers.first element (List.take_subset_take_left _ (by omega) recent)

theorem rollingBloom_remembers_two
    : rollingBloomContains (fun seed _ => seed)
        ([[1], [2], [3]].foldl (rollingBloomInsert fun seed _ => seed) (rollingBloomInit 2 64 3 7))
        [2] = true :=
  rollingBloom_remembers _ 2 64 3 7 (by decide) [[1], [2], [3]] (by decide)

end Hash

end Z23.Bloom
