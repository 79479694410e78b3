import Mathlib.Tactic.LinearCombination
import Z23.Lib.Limbs

/-!
The 256-bit integers of the zu256 package, four words of 64 bits, against exact arithmetic.
-/

namespace Z23.Commons

open Z23.Lib.Limbs

structure Zu256 where
  l : List (BitVec 64)
  size_l : l.length = 4
deriving DecidableEq

namespace Zu256

def toNat (a : Zu256) : Nat := value a.l

def zero : Zu256 := ⟨List.replicate 4 0, rfl⟩

def fromU64 (v : BitVec 64) : Zu256 := ⟨[v, 0, 0, 0], rfl⟩

def isZero (a : Zu256) : Bool := a.l.all (· == 0)

/-- From the highest word on, the first that differs decides. -/
def cmpLoop : List (BitVec 64) → List (BitVec 64) → Int
  | x :: xs, y :: ys => if x ≠ y then (if x < y then -1 else 1) else cmpLoop xs ys
  | _, _ => 0

def cmp (a b : Zu256) : Int := cmpLoop a.l.reverse b.l.reverse

/-- The number of shifts to the right after which nothing of the word is left. -/
def wordBits : (fuel : Nat) → BitVec 64 → Nat
  | 0, _ => 0
  | fuel + 1, x => if x = 0 then 0 else wordBits fuel (x >>> 1) + 1

def bitlenLoop : List (BitVec 64) → Nat
  | [] => 0
  | x :: xs => if x ≠ 0 then 64 * xs.length + wordBits 64 x else bitlenLoop xs

def bitlen (a : Zu256) : Nat := bitlenLoop a.l.reverse

/-- One word of an addition with the carry that goes on. -/
def addWord (carry x y : BitVec 64) : BitVec 64 × BitVec 64 :=
  let s := x + carry
  let t := s + y
  (t, (if s < x then 1 else 0) ||| (if t < s then 1 else 0))

/-- One word of a subtraction with the borrow that goes on. -/
def subWord (borrow x y : BitVec 64) : BitVec 64 × BitVec 64 :=
  let yi := y + borrow
  (x - yi, (if yi < y then 1 else 0) ||| (if x < yi then 1 else 0))

def wordLoop (step : BitVec 64 → BitVec 64 → BitVec 64 → BitVec 64 × BitVec 64)
    (carry : BitVec 64) : List (BitVec 64) → List (BitVec 64) → List (BitVec 64) × BitVec 64
  | x :: xs, y :: ys =>
    let here := step carry x y
    let rest := wordLoop step here.2 xs ys
    (here.1 :: rest.1, rest.2)
  | _, _ => ([], carry)

section Words

variable {step : BitVec 64 → BitVec 64 → BitVec 64 → BitVec 64 × BitVec 64}
  {xs ys : List (BitVec 64)} {carry : BitVec 64}

theorem wordLoop_length (same : xs.length = ys.length)
    : (wordLoop step carry xs ys).1.length = xs.length := by
  induction xs generalizing ys carry with
  | nil => rfl
  | cons x xs ih =>
    cases ys with
    | nil => cases same
    | cons y ys => exact congrArg (· + 1) (ih (Nat.succ.inj same))

theorem toNat_flags (p q : Prop) [Decidable p] [Decidable q]
    : ((if p then 1 else 0) ||| (if q then 1 else 0) : BitVec 64).toNat
        = if p ∨ q then 1 else 0 := by
  by_cases left : p <;> by_cases right : q <;> simp [left, right]

/-- A step adds the second operand, or subtracts it, as the sign says. -/
def Signed (sign : Int) (step : BitVec 64 → BitVec 64 → BitVec 64 → BitVec 64 × BitVec 64) : Prop :=
  ∀ {carry : BitVec 64}, carry.toNat ≤ 1 → ∀ x y : BitVec 64,
    ((step carry x y).1.toNat : Int) + sign * (2 ^ 64 * (step carry x y).2.toNat)
        = x.toNat + sign * (y.toNat + carry.toNat)
      ∧ (step carry x y).2.toNat ≤ 1

theorem addWord_signed : Signed 1 addWord := by
  intro carry flag x y
  have small := x.isLt
  have small' := y.isLt
  simp only [addWord, toNat_flags, BitVec.lt_def, BitVec.toNat_add]
  split <;> omega

theorem subWord_signed : Signed (-1) subWord := by
  intro carry flag x y
  have small := x.isLt
  have small' := y.isLt
  simp only [subWord, toNat_flags, BitVec.lt_def, BitVec.toNat_add, BitVec.toNat_sub]
  split <;> omega

theorem value_wordLoop {sign : Int} (signed : Signed sign step) (same : xs.length = ys.length)
    (flag : carry.toNat ≤ 1)
    : (value (wordLoop step carry xs ys).1 : Int)
          + sign * (2 ^ (64 * xs.length) * (wordLoop step carry xs ys).2.toNat)
        = value xs + sign * (value ys + carry.toNat)
      ∧ (wordLoop step carry xs ys).2.toNat ≤ 1 := by
  induction xs generalizing ys carry with
  | nil =>
    obtain rfl := List.eq_nil_of_length_eq_zero same.symm
    simpa [wordLoop, value] using flag
  | cons x xs ih =>
    cases ys with
    | nil => cases same
    | cons y ys =>
      obtain ⟨here, next⟩ := signed flag x y
      obtain ⟨rest, last⟩ := ih (Nat.succ.inj same) next
      refine ⟨?_, last⟩
      simp only [wordLoop, value, List.length_cons]
      push_cast
      rw [Nat.mul_add, pow_add]
      linear_combination here + 2 ^ 64 * rest

end Words

theorem same_size (a b : Zu256) : a.l.length = b.l.length := a.size_l.trans b.size_l.symm

def add (a b : Zu256) : Zu256 × Bool :=
  let sum := wordLoop addWord 0 a.l b.l
  (⟨sum.1, (wordLoop_length (same_size a b)).trans a.size_l⟩, sum.2 ≠ 0)

def sub (a b : Zu256) : Zu256 × Bool :=
  let difference := wordLoop subWord 0 a.l b.l
  (⟨difference.1, (wordLoop_length (same_size a b)).trans a.size_l⟩, difference.2 ≠ 0)

theorem toNat_lt (a : Zu256) : a.toNat < 2 ^ 256 := by
  have bound := value_lt a.l
  rwa [a.size_l] at bound

theorem flag_iff {carry : BitVec 64} : decide (carry ≠ 0) = true ↔ 0 < carry.toNat := by
  rw [decide_eq_true_eq, ne_eq, ← BitVec.toNat_inj]
  exact Nat.pos_iff_ne_zero.symm

theorem add_exact (a b : Zu256)
    : (a.add b).1.toNat = (a.toNat + b.toNat) % 2 ^ 256
      ∧ ((a.add b).2 = true ↔ 2 ^ 256 ≤ a.toNat + b.toNat) := by
  obtain ⟨whole, flag⟩ := value_wordLoop addWord_signed (same_size a b)
    (show (0 : BitVec 64).toNat ≤ 1 by decide)
  have small := (a.add b).1.toNat_lt
  rw [a.size_l] at whole
  have exact : ((a.add b).1.toNat : Int)
      + 1 * (2 ^ 256 * (wordLoop addWord 0 a.l b.l).2.toNat) = a.toNat + 1 * (b.toNat + 0) := whole
  have carried : (a.add b).2 = true ↔ 0 < (wordLoop addWord 0 a.l b.l).2.toNat := flag_iff
  rw [carried]
  omega

theorem sub_exact (a b : Zu256)
    : ((a.sub b).1.toNat : Int) = ((a.toNat : Int) - b.toNat) % (2 ^ 256 : Nat)
      ∧ ((a.sub b).2 = true ↔ a.toNat < b.toNat) := by
  obtain ⟨whole, flag⟩ := value_wordLoop subWord_signed (same_size a b)
    (show (0 : BitVec 64).toNat ≤ 1 by decide)
  have small := (a.sub b).1.toNat_lt
  have bound := a.toNat_lt
  have bound' := b.toNat_lt
  rw [a.size_l] at whole
  have exact : ((a.sub b).1.toNat : Int)
      + -1 * (2 ^ 256 * (wordLoop subWord 0 a.l b.l).2.toNat) = a.toNat + -1 * (b.toNat + 0) := whole
  have borrowed : (a.sub b).2 = true ↔ 0 < (wordLoop subWord 0 a.l b.l).2.toNat := flag_iff
  rw [borrowed]
  omega

-- The product, in slots of 32 bits

/-- Adds to the first slot and lets the carries ripple up. -/
def rippleAdd (c : BitVec 64) : List (BitVec 64) → List (BitVec 64)
  | [] => []
  | x :: acc =>
    let s := x + c
    if s >>> 32 ≠ 0 then (s &&& 0xffffffff) :: rippleAdd (s >>> 32) acc else s :: acc

def addAt : (k : Nat) → (c : BitVec 64) → List (BitVec 64) → List (BitVec 64)
  | 0, c, acc => rippleAdd c acc
  | _ + 1, _, [] => []
  | k + 1, c, x :: acc => x :: addAt k c acc

/-- The row of one slot of the first factor: `j` runs over the slots of the second. -/
def mulRow (i : Nat) (x : BitVec 64) : (j : Nat) → List (BitVec 64) → List (BitVec 64)
    → List (BitVec 64)
  | _, [], acc => acc
  | j, y :: ys, acc =>
    let p := x * y
    mulRow i x (j + 1) ys (addAt (i + j + 1) (p >>> 32) (addAt (i + j) (p &&& 0xffffffff) acc))

def mulRows : (i : Nat) → List (BitVec 64) → List (BitVec 64) → List (BitVec 64)
    → List (BitVec 64)
  | _, [], _, acc => acc
  | i, x :: xs, ys, acc => mulRows (i + 1) xs ys (mulRow i x 0 ys acc)

def halves (l : List (BitVec 64)) : List (BitVec 64) :=
  l.flatMap fun x => [x &&& 0xffffffff, x >>> 32]

def joined : List (BitVec 64) → List (BitVec 64)
  | x :: y :: acc => (x ||| (y <<< 32)) :: joined acc
  | _ => []

def slotsOf (a b : Zu256) : List (BitVec 64) :=
  mulRows 0 (halves a.l) (halves b.l) (List.replicate 17 0)

/-- The value of slots of 32 bits, each held in a word. -/
def slots : List (BitVec 64) → Nat
  | [] => 0
  | x :: acc => x.toNat + 2 ^ 32 * slots acc

def Normal (acc : List (BitVec 64)) : Prop := ∀ x ∈ acc, x.toNat < 2 ^ 32

theorem normal_cons {x : BitVec 64} {acc : List (BitVec 64)}
    : Normal (x :: acc) ↔ x.toNat < 2 ^ 32 ∧ Normal acc :=
  List.forall_mem_cons

theorem low_toNat (x : BitVec 64) : (x &&& 0xffffffff).toNat = x.toNat % 2 ^ 32 := by
  have mask : (0xffffffff : BitVec 64).toNat = 2 ^ 32 - 1 := rfl
  rw [BitVec.toNat_and, mask, Nat.and_two_pow_sub_one_eq_mod]

theorem high_toNat (x : BitVec 64) : (x >>> 32).toNat = x.toNat / 2 ^ 32 := by
  rw [BitVec.toNat_ushiftRight, Nat.shiftRight_eq_div_pow]

theorem rippleAdd_spec {acc : List (BitVec 64)} (normal : Normal acc) {c : BitVec 64}
    (small : c.toNat < 2 ^ 32) (room : slots acc + c.toNat < 2 ^ (32 * acc.length))
    : slots (rippleAdd c acc) = slots acc + c.toNat ∧ Normal (rippleAdd c acc)
      ∧ (rippleAdd c acc).length = acc.length := by
  induction acc generalizing c with
  | nil =>
    have empty : c.toNat = 0 := by simpa [slots] using room
    exact ⟨by simp [rippleAdd, slots, empty], normal, rfl⟩
  | cons x acc ih =>
    obtain ⟨first, rest⟩ := normal_cons.mp normal
    have sum : (x + c).toNat = x.toNat + c.toNat := by
      rw [BitVec.toNat_add]
      omega
    rw [List.length_cons, two_pow_words, slots] at room
    rw [rippleAdd]
    split
    case isTrue =>
      have carry : ((x + c) >>> 32).toNat = (x.toNat + c.toNat) / 2 ^ 32 := by
        rw [high_toNat, sum]
      have kept : ((x + c) &&& 0xffffffff).toNat = (x.toNat + c.toNat) % 2 ^ 32 := by
        rw [low_toNat, sum]
      obtain ⟨value, normal', length⟩ := ih rest (c := (x + c) >>> 32) (by omega) (by omega)
      refine ⟨?_, normal_cons.mpr ⟨by omega, normal'⟩, congrArg (· + 1) length⟩
      rw [slots, slots, value]
      omega
    case isFalse none =>
      have below : (x + c).toNat < 2 ^ 32 := by
        have zero : ((x + c) >>> 32).toNat = 0 := by
          rw [not_not.mp none]
          rfl
        rw [high_toNat] at zero
        omega
      refine ⟨?_, normal_cons.mpr ⟨below, rest⟩, rfl⟩
      rw [slots, slots, sum]
      omega

theorem addAt_spec {acc : List (BitVec 64)} (normal : Normal acc) {k : Nat} {c : BitVec 64}
    (small : c.toNat < 2 ^ 32) (room : slots acc + 2 ^ (32 * k) * c.toNat < 2 ^ (32 * acc.length))
    : slots (addAt k c acc) = slots acc + 2 ^ (32 * k) * c.toNat ∧ Normal (addAt k c acc)
      ∧ (addAt k c acc).length = acc.length := by
  induction k generalizing acc with
  | zero =>
    rw [Nat.mul_zero, Nat.pow_zero, Nat.one_mul] at room ⊢
    exact rippleAdd_spec normal small room
  | succ k ih =>
    rw [two_pow_words, Nat.mul_assoc] at room ⊢
    cases acc with
    | nil =>
      have empty : slots [] + 2 ^ 32 * (2 ^ (32 * k) * c.toNat) < 1 := room
      refine ⟨?_, normal, rfl⟩
      rw [addAt]
      omega
    | cons x acc =>
      obtain ⟨first, rest⟩ := normal_cons.mp normal
      rw [List.length_cons, two_pow_words, slots] at room
      obtain ⟨value, normal', length⟩ := ih rest (by omega)
      refine ⟨?_, normal_cons.mpr ⟨first, normal'⟩, congrArg (· + 1) length⟩
      rw [addAt, slots, slots, value]
      omega

theorem mulRow_spec {ys : List (BitVec 64)} {acc : List (BitVec 64)} {i j : Nat} {x : BitVec 64}
    (normal : Normal acc) (small : x.toNat < 2 ^ 32) (normal' : Normal ys)
    (room : slots acc + 2 ^ (32 * (i + j)) * (x.toNat * slots ys) < 2 ^ (32 * acc.length))
    : slots (mulRow i x j ys acc) = slots acc + 2 ^ (32 * (i + j)) * (x.toNat * slots ys)
      ∧ Normal (mulRow i x j ys acc) ∧ (mulRow i x j ys acc).length = acc.length := by
  induction ys generalizing acc j with
  | nil => exact ⟨by simp [mulRow, slots], normal, rfl⟩
  | cons y ys ih =>
    obtain ⟨first, later⟩ := normal_cons.mp normal'
    have fits : x.toNat * y.toNat < 2 ^ 64 := by
      calc x.toNat * y.toNat < 2 ^ 32 * 2 ^ 32 := Nat.mul_lt_mul'' small first
        _ = 2 ^ 64 := by decide
    have product : (x * y).toNat = x.toNat * y.toNat := by
      rw [BitVec.toNat_mul, Nat.mod_eq_of_lt fits]
    have low := low_toNat (x * y)
    have high := high_toNat (x * y)
    rw [product] at low high
    have whole := Nat.mod_add_div (x.toNat * y.toNat) (2 ^ 32)
    have parts : 2 ^ (32 * (i + j)) * (x.toNat * slots (y :: ys))
        = 2 ^ (32 * (i + j)) * ((x * y) &&& 0xffffffff).toNat
          + 2 ^ (32 * (i + j + 1)) * ((x * y) >>> 32).toNat
          + 2 ^ (32 * (i + (j + 1))) * (x.toNat * slots ys) := by
      rw [low, high, ← Nat.add_assoc, two_pow_words, slots]
      calc 2 ^ (32 * (i + j)) * (x.toNat * (y.toNat + 2 ^ 32 * slots ys))
          = 2 ^ (32 * (i + j)) * (x.toNat * y.toNat)
            + 2 ^ 32 * 2 ^ (32 * (i + j)) * (x.toNat * slots ys) := by ring
        _ = 2 ^ (32 * (i + j))
              * (x.toNat * y.toNat % 2 ^ 32 + 2 ^ 32 * (x.toNat * y.toNat / 2 ^ 32))
            + 2 ^ 32 * 2 ^ (32 * (i + j)) * (x.toNat * slots ys) := by rw [whole]
        _ = _ := by ring
    rw [parts] at room ⊢
    obtain ⟨value, kept, length⟩ := @addAt_spec acc normal (i + j) ((x * y) &&& 0xffffffff)
      (by omega) (by omega)
    rw [← length] at room
    obtain ⟨value', kept', length'⟩ := addAt_spec kept (k := i + j + 1) (c := (x * y) >>> 32)
      (by omega) (by omega)
    rw [← length'] at room
    obtain ⟨value'', kept'', length''⟩ := ih kept' later (j := j + 1) (by omega)
    rw [mulRow]
    refine ⟨?_, kept'', length''.trans (length'.trans length)⟩
    rw [value'', value', value]
    omega

theorem mulRows_spec {xs ys : List (BitVec 64)} {acc : List (BitVec 64)} {i : Nat}
    (normal : Normal acc) (normal' : Normal xs) (normal'' : Normal ys)
    (room : slots acc + 2 ^ (32 * i) * (slots xs * slots ys) < 2 ^ (32 * acc.length))
    : slots (mulRows i xs ys acc) = slots acc + 2 ^ (32 * i) * (slots xs * slots ys)
      ∧ Normal (mulRows i xs ys acc) ∧ (mulRows i xs ys acc).length = acc.length := by
  induction xs generalizing acc i with
  | nil => exact ⟨by simp [mulRows, slots], normal, rfl⟩
  | cons x xs ih =>
    obtain ⟨first, later⟩ := normal_cons.mp normal'
    have parts : 2 ^ (32 * i) * (slots (x :: xs) * slots ys)
        = 2 ^ (32 * (i + 0)) * (x.toNat * slots ys)
          + 2 ^ (32 * (i + 1)) * (slots xs * slots ys) := by
      rw [two_pow_words, slots, Nat.add_zero]
      ring
    rw [parts] at room ⊢
    obtain ⟨value, kept, length⟩ := mulRow_spec normal first normal'' (i := i) (j := 0) (by omega)
    rw [← length] at room
    obtain ⟨value', kept', length'⟩ := ih kept later (i := i + 1) (by omega)
    rw [mulRows]
    refine ⟨?_, kept', length'.trans length⟩
    rw [value', value]
    omega

theorem normal_halves (l : List (BitVec 64)) : Normal (halves l) := by
  intro y member
  obtain ⟨x, -, half⟩ := List.mem_flatMap.mp member
  have bound := x.isLt
  rcases List.mem_cons.mp half with rfl | half
  · rw [low_toNat]
    omega
  · obtain rfl := List.mem_singleton.mp half
    rw [high_toNat]
    omega

theorem slots_halves (l : List (BitVec 64)) : slots (halves l) = value l := by
  induction l with
  | nil => rfl
  | cons x l ih =>
    have whole := Nat.mod_add_div x.toNat (2 ^ 32)
    have parts : slots (halves (x :: l))
        = (x &&& 0xffffffff).toNat + 2 ^ 32 * ((x >>> 32).toNat + 2 ^ 32 * slots (halves l)) :=
      rfl
    rw [parts, low_toNat, high_toNat, ih, value]
    omega

theorem value_joined {acc : List (BitVec 64)} (normal : Normal acc) (n : Nat)
    (even : acc.length = 2 * n)
    : value (joined acc) = slots acc ∧ (joined acc).length = n := by
  induction n generalizing acc with
  | zero =>
    obtain rfl := List.eq_nil_of_length_eq_zero even
    exact ⟨rfl, rfl⟩
  | succ n ih =>
    match acc, even with
    | x :: y :: acc, even =>
      obtain ⟨low, above⟩ := normal_cons.mp normal
      obtain ⟨high, later⟩ := normal_cons.mp above
      have word : (x ||| (y <<< 32)).toNat = x.toNat + 2 ^ 32 * y.toNat := by
        have fits : y.toNat <<< 32 < 2 ^ 64 := by
          rw [Nat.shiftLeft_eq]
          omega
        rw [BitVec.toNat_or, BitVec.toNat_shiftLeft, Nat.mod_eq_of_lt fits, Nat.or_comm,
          ← Nat.shiftLeft_add_eq_or_of_lt low, Nat.shiftLeft_eq]
        omega
      have rest_even : acc.length = 2 * n := by
        simp only [List.length_cons] at even
        omega
      obtain ⟨rest, length⟩ := ih later rest_even
      rw [joined, value, word, rest, slots, slots]
      exact ⟨by omega, congrArg (· + 1) length⟩

theorem slots_append (xs ys : List (BitVec 64))
    : slots (xs ++ ys) = slots xs + 2 ^ (32 * xs.length) * slots ys := by
  induction xs with
  | nil => simp [slots]
  | cons x xs ih =>
    rw [List.cons_append, slots, ih, slots, List.length_cons, two_pow_words]
    ring

theorem slots_lt {acc : List (BitVec 64)} (normal : Normal acc)
    : slots acc < 2 ^ (32 * acc.length) := by
  induction acc with
  | nil => decide
  | cons x acc ih =>
    obtain ⟨first, later⟩ := normal_cons.mp normal
    have rest := ih later
    rw [slots, List.length_cons, two_pow_words]
    omega

theorem slots_eq_zero_iff {acc : List (BitVec 64)} : slots acc = 0 ↔ ∀ x ∈ acc, x = 0 := by
  induction acc with
  | nil => simp [slots]
  | cons x acc ih =>
    have word : x = 0 ↔ x.toNat = 0 := BitVec.toNat_inj.symm
    rw [slots, List.forall_mem_cons, ← ih, word]
    omega

theorem slotsOf_spec (a b : Zu256)
    : slots (slotsOf a b) = a.toNat * b.toNat ∧ Normal (slotsOf a b)
      ∧ (slotsOf a b).length = 17 := by
  have bound : a.toNat * b.toNat < 2 ^ 256 * 2 ^ 256 := Nat.mul_lt_mul'' a.toNat_lt b.toNat_lt
  have empty : slots (List.replicate 17 0) = 0 := by decide
  have normal : Normal (List.replicate 17 0) := by
    intro x member
    rw [List.eq_of_mem_replicate member]
    decide
  obtain ⟨total, kept, length⟩ := mulRows_spec normal (normal_halves a.l) (normal_halves b.l)
    (i := 0) (by
      rw [empty, slots_halves, slots_halves, List.length_replicate]
      change 0 + 2 ^ (32 * 0) * (a.toNat * b.toNat) < _
      omega)
  refine ⟨?_, kept, length⟩
  rw [slotsOf, total, empty, slots_halves, slots_halves]
  change 0 + 2 ^ (32 * 0) * (a.toNat * b.toNat) = _
  omega

def mul (a b : Zu256) : Zu256 × Bool :=
  let acc := slotsOf a b
  (⟨joined (acc.take 8), (value_joined (fun x member => (slotsOf_spec a b).2.1 x
      (List.mem_of_mem_take member)) 4 (by rw [List.length_take, (slotsOf_spec a b).2.2]; rfl)).2⟩,
    (acc.drop 8).any (· ≠ 0))

theorem mul_exact (a b : Zu256)
    : (a.mul b).1.toNat = a.toNat * b.toNat % 2 ^ 256
      ∧ ((a.mul b).2 = true ↔ 2 ^ 256 ≤ a.toNat * b.toNat) := by
  obtain ⟨product, normal, length⟩ := slotsOf_spec a b
  have eight : ((slotsOf a b).take 8).length = 8 := by rw [List.length_take, length]; rfl
  have low : Normal ((slotsOf a b).take 8) :=
    fun x member => normal x (List.mem_of_mem_take member)
  have kept : (a.mul b).1.toNat = slots ((slotsOf a b).take 8) := (value_joined low 4 eight).1
  have bound := slots_lt low
  rw [eight] at bound
  have parts : slots ((slotsOf a b).take 8) + 2 ^ 256 * slots ((slotsOf a b).drop 8)
      = a.toNat * b.toNat := by
    rw [← product]
    nth_rw 3 [← List.take_append_drop 8 (slotsOf a b)]
    rw [slots_append, eight]
  have flagged : (a.mul b).2 = true ↔ 0 < slots ((slotsOf a b).drop 8) := by
    rw [Nat.pos_iff_ne_zero, ne_eq, slots_eq_zero_iff]
    simp [mul]
  rw [kept, flagged]
  omega

-- Bits, comparison and the shift by one

theorem isZero_iff (a : Zu256) : a.isZero = true ↔ a.toNat = 0 := by
  unfold isZero toNat
  induction a.l with
  | nil => simp [value]
  | cons x xs ih =>
    have word : x = 0 ↔ x.toNat = 0 := BitVec.toNat_inj.symm
    rw [List.all_cons, Bool.and_eq_true, beq_iff_eq, ih, value, word]
    omega

theorem cmpLoop_eq (xs ys : List (BitVec 64)) : cmpLoop xs ys = compareLoop xs ys := by
  induction xs generalizing ys with
  | nil => cases ys <;> rfl
  | cons x xs ih =>
    cases ys with
    | nil => rfl
    | cons y ys =>
      rw [cmpLoop, compareLoop, ih]
      rcases lt_trichotomy x.toNat y.toNat with below | same | above
      · have less : x < y := below
        have differ : x ≠ y := fun equal => absurd (equal ▸ below) (lt_irrefl _)
        rw [if_pos differ, if_pos less, if_pos less]
      · obtain rfl := BitVec.toNat_inj.mp same
        simp
      · have less : y < x := above
        have differ : x ≠ y := fun equal => absurd (equal ▸ above) (lt_irrefl _)
        have after : ¬x < y := fun below => absurd (below.trans above) (lt_irrefl _)
        rw [if_pos differ, if_neg after, if_neg after, if_pos less]

theorem cmp_nonneg_iff (a b : Zu256) : 0 ≤ a.cmp b ↔ b.toNat ≤ a.toNat := by
  have same : a.l.reverse.length = b.l.reverse.length := by
    rw [List.length_reverse, List.length_reverse, same_size a b]
  rw [cmp, cmpLoop_eq, compareLoop_nonneg_iff same, valueHigh_reverse, valueHigh_reverse,
    List.reverse_reverse, List.reverse_reverse]
  rfl

theorem wordBits_spec {fuel : Nat} {x : BitVec 64} (small : x.toNat < 2 ^ fuel)
    : x.toNat < 2 ^ wordBits fuel x ∧ wordBits fuel x ≤ fuel := by
  induction fuel generalizing x with
  | zero => exact ⟨small, Nat.le_refl _⟩
  | succ fuel ih =>
    have half : (x >>> 1).toNat = x.toNat / 2 := by
      rw [BitVec.toNat_ushiftRight, Nat.shiftRight_eq_div_pow]
    rw [wordBits]
    split
    case isTrue none => simp [none]
    case isFalse =>
      obtain ⟨below, few⟩ := ih (x := x >>> 1) (by rw [half]; omega)
      rw [half] at below
      exact ⟨by omega, Nat.succ_le_succ few⟩

theorem bitlenLoop_spec (xs : List (BitVec 64))
    : valueHigh xs < 2 ^ bitlenLoop xs ∧ bitlenLoop xs ≤ 64 * xs.length := by
  induction xs with
  | nil => simp [valueHigh, bitlenLoop]
  | cons x xs ih =>
    rw [valueHigh, bitlenLoop, List.length_cons]
    split
    case isTrue =>
      obtain ⟨below, few⟩ := @wordBits_spec 64 x x.isLt
      refine ⟨?_, by omega⟩
      calc x.toNat * 2 ^ (64 * xs.length) + valueHigh xs
          < x.toNat * 2 ^ (64 * xs.length) + 2 ^ (64 * xs.length) :=
            Nat.add_lt_add_left (valueHigh_lt xs) _
        _ = (x.toNat + 1) * 2 ^ (64 * xs.length) := by ring
        _ ≤ 2 ^ wordBits 64 x * 2 ^ (64 * xs.length) := Nat.mul_le_mul_right _ below
        _ = 2 ^ (64 * xs.length + wordBits 64 x) := by ring
    case isFalse none =>
      have zero : x.toNat = 0 := congrArg BitVec.toNat (not_not.mp none)
      rw [zero]
      exact ⟨by simpa using ih.1, by omega⟩

theorem bitlen_spec (a : Zu256) : a.toNat < 2 ^ a.bitlen ∧ a.bitlen ≤ 256 := by
  obtain ⟨below, few⟩ := bitlenLoop_spec a.l.reverse
  rw [valueHigh_reverse, List.reverse_reverse] at below
  rw [List.length_reverse, a.size_l] at few
  exact ⟨below, few⟩

/-- What the word `i` of a shifted number takes from two words of the number. -/
def shlWord (l : List (BitVec 64)) (limb bits i : Nat) : BitVec 64 :=
  if limb ≤ i then
    (l.getD (i - limb) 0 <<< bits)
      ||| (if bits ≠ 0 ∧ limb + 1 ≤ i then l.getD (i - limb - 1) 0 >>> (64 - bits) else 0)
  else 0

def shl (a : Zu256) (n : Nat) : Zu256 :=
  if n ≥ 256 then zero
  else if n = 0 then a
  else ⟨(List.range 4).map (shlWord a.l (n / 64) (n % 64)),
    by rw [List.length_map, List.length_range]⟩

def bit (a : Zu256) (n : Nat) : Bool := if n ≥ 256 then false else limbBit a.l (n / 64) (n % 64)

theorem toNat_shl_word (x y : BitVec 64)
    : ((x <<< 1) ||| (y >>> 63)).toNat = 2 * x.toNat % 2 ^ 64 + y.toNat / 2 ^ 63 := by
  have small := y.isLt
  have top : (y >>> 63).toNat = y.toNat / 2 ^ 63 := by
    rw [BitVec.toNat_ushiftRight, Nat.shiftRight_eq_div_pow]
  have moved : (x <<< 1).toNat = (2 * x.toNat % 2 ^ 64 / 2) <<< 1 := by
    rw [BitVec.toNat_shiftLeft, Nat.shiftLeft_eq, Nat.shiftLeft_eq]
    omega
  rw [BitVec.toNat_or, moved, top, ← Nat.shiftLeft_add_eq_or_of_lt (by omega), Nat.shiftLeft_eq]
  omega

theorem toNat_shl_one (a : Zu256) : (a.shl 1).toNat = 2 * a.toNat % 2 ^ 256 := by
  obtain ⟨l, size⟩ := a
  match l, size with
  | [x, y, z, t], size =>
    have words : (shl ⟨[x, y, z, t], size⟩ 1).l
        = [(x <<< 1) ||| 0, (y <<< 1) ||| (x >>> 63), (z <<< 1) ||| (y >>> 63),
          (t <<< 1) ||| (z >>> 63)] := rfl
    have first : ((x <<< 1) ||| 0).toNat = 2 * x.toNat % 2 ^ 64 := by
      rw [BitVec.toNat_or, BitVec.toNat_shiftLeft, Nat.shiftLeft_eq]
      change x.toNat * 2 ^ 1 % 2 ^ 64 ||| 0 = _
      rw [Nat.or_zero]
      omega
    unfold toNat
    rw [words]
    simp only [value, first, toNat_shl_word]
    omega

theorem bit_eq {a : Zu256} {n : Nat} (inside : n < 256) : a.bit n = a.toNat.testBit n := by
  rw [bit, if_neg (by omega), toNat, ← testBit_value a.l (n / 64) (Nat.mod_lt n (by decide)),
    Nat.div_add_mod]

-- The long division

/-- One turn of the division: the next bit of the dividend goes to the remainder. -/
def divStep (a b : Zu256) (i : Nat) (quot rem : Zu256) : Zu256 × Zu256 :=
  let shifted := rem.shl 1
  let rem : Zu256 :=
    if a.bit i then ⟨setBit shifted.l 0, by rw [setBit_length, shifted.size_l]⟩ else shifted
  if rem.cmp b ≥ 0 then
    (⟨setBit quot.l i, by rw [setBit_length, quot.size_l]⟩, (rem.sub b).1)
  else (quot, rem)

def divLoop (a b : Zu256) : Nat → Zu256 × Zu256 → Zu256 × Zu256
  | 0, parts => parts
  | i + 1, parts => divLoop a b i (divStep a b i parts.1 parts.2)

def divmod (a b : Zu256) : Option (Zu256 × Zu256) :=
  if b.isZero then none else some (divLoop a b a.bitlen (zero, zero))

/-- The quotient and the remainder of the bits above the first `i`. -/
structure Divided (a b : Zu256) (i : Nat) (quot rem : Zu256) : Prop where
  quot : quot.toNat = 2 ^ i * (a.toNat / 2 ^ i / b.toNat)
  rem : rem.toNat = a.toNat / 2 ^ i % b.toNat

theorem div_two_pow_succ (n i : Nat)
    : n / 2 ^ i = 2 * (n / 2 ^ (i + 1)) + (n.testBit i).toNat := by
  rw [Nat.toNat_testBit, Nat.pow_succ, ← Nat.div_div_eq_div_mul]
  omega

theorem div_mod_double {n b bit : Nat} (positive : 0 < b)
    : (2 * n + bit) / b = 2 * (n / b) + (2 * (n % b) + bit) / b
      ∧ (2 * n + bit) % b = (2 * (n % b) + bit) % b := by
  have whole := Nat.div_add_mod n b
  have grown : 2 * n + bit = b * (2 * (n / b)) + (2 * (n % b) + bit) := by
    calc 2 * n + bit = 2 * (b * (n / b) + n % b) + bit := by rw [whole]
      _ = _ := by ring
  rw [grown, Nat.mul_add_div positive, Nat.mul_add_mod]
  exact ⟨rfl, rfl⟩

theorem toNat_lowest (a : Zu256) (n : Nat) (size) (even : a.toNat = 2 * n)
    : (⟨setBit a.l 0, size⟩ : Zu256).toNat = 2 * n + 1 := by
  have set := @value_setBit 64 a.l 0 (by rw [a.size_l]; decide) ⟨n, even⟩
  exact set.trans (congrArg (· + 1) even)

theorem Divided.step {a b : Zu256} {i : Nat} {quot rem : Zu256} (positive : 0 < b.toNat)
    (inside : i < 256) (divided : Divided a b (i + 1) quot rem)
    : Divided a b i (divStep a b i quot rem).1 (divStep a b i quot rem).2 := by
  have next := div_two_pow_succ a.toNat i
  have bounded : a.toNat / 2 ^ i < 2 ^ 256 := Nat.lt_of_le_of_lt (Nat.div_le_self _ _) a.toNat_lt
  have rem_le : rem.toNat ≤ a.toNat / 2 ^ (i + 1) := by
    rw [divided.rem]
    exact Nat.mod_le _ _
  have rem_lt : rem.toNat < b.toNat := by
    rw [divided.rem]
    exact Nat.mod_lt _ positive
  -- the dividend so far is below 2^256, so the shift loses nothing, however large the divisor is
  have shifted : (rem.shl 1).toNat = 2 * rem.toNat := by
    rw [toNat_shl_one]
    omega
  obtain ⟨quotient, remainder⟩ :=
    @div_mod_double (a.toNat / 2 ^ (i + 1)) b.toNat (a.toNat.testBit i).toNat positive
  rw [← next, ← divided.rem] at quotient remainder
  unfold divStep
  extract_lets start grown
  have grown_eq : grown.toNat = 2 * rem.toNat + (a.toNat.testBit i).toNat := by
    unfold grown
    rw [bit_eq inside]
    split
    case isTrue set => rw [toNat_lowest start rem.toNat _ shifted, set, Bool.toNat_true]
    case isFalse clear => rw [shifted, Bool.eq_false_iff.mpr clear, Bool.toNat_false, Nat.add_zero]
  have bit_le := (a.toNat.testBit i).toNat_le
  have place : 2 ^ (i + 1) * (a.toNat / 2 ^ (i + 1) / b.toNat)
      = 2 ^ i * (2 * (a.toNat / 2 ^ (i + 1) / b.toNat)) := by
    rw [Nat.pow_succ]
    ring
  split
  case isTrue reached =>
    rw [ge_iff_le, cmp_nonneg_iff, grown_eq] at reached
    have once : (2 * rem.toNat + (a.toNat.testBit i).toNat) / b.toNat = 1 :=
      Nat.div_eq_of_lt_le (by omega) (by omega)
    constructor
    · have set := @value_setBit 64 quot.l i (by rw [quot.size_l]; omega)
        ⟨_, divided.quot⟩
      refine set.trans ?_
      change quot.toNat + 2 ^ i = _
      rw [quotient, once, divided.quot, place]
      ring
    · obtain ⟨difference, -⟩ := sub_exact grown b
      have small := grown.toNat_lt
      have left : (grown.sub b).1.toNat = grown.toNat - b.toNat := by omega
      rw [remainder, left, grown_eq, Nat.mod_eq_sub_mod reached, Nat.mod_eq_of_lt (by omega)]
  case isFalse short =>
    rw [ge_iff_le, cmp_nonneg_iff, grown_eq, not_le] at short
    constructor
    · rw [quotient, Nat.div_eq_of_lt short, Nat.add_zero, divided.quot, place]
    · rw [remainder, grown_eq, Nat.mod_eq_of_lt short]

theorem Divided.loop {a b : Zu256} {i : Nat} {quot rem : Zu256} (positive : 0 < b.toNat)
    (inside : i ≤ 256) (divided : Divided a b i quot rem)
    : Divided a b 0 (divLoop a b i (quot, rem)).1 (divLoop a b i (quot, rem)).2 := by
  induction i generalizing quot rem with
  | zero => exact divided
  | succ i ih => exact ih (Nat.le_of_succ_le inside) (divided.step positive inside)

theorem divmod_exact (a : Zu256) {b : Zu256} (nonzero : b.toNat ≠ 0)
    : ∃ q r, a.divmod b = some (q, r) ∧ a.toNat = q.toNat * b.toNat + r.toNat
        ∧ q.toNat = a.toNat / b.toNat ∧ r.toNat = a.toNat % b.toNat := by
  obtain ⟨below, few⟩ := a.bitlen_spec
  have positive := Nat.pos_of_ne_zero nonzero
  have started : Divided a b a.bitlen zero zero := by
    constructor
    · rw [Nat.div_eq_of_lt below, Nat.zero_div]
      rfl
    · rw [Nat.div_eq_of_lt below, Nat.zero_mod]
      rfl
  obtain ⟨quot, rem⟩ := started.loop positive few
  rw [Nat.pow_zero, Nat.one_mul, Nat.div_one] at quot
  rw [Nat.pow_zero, Nat.div_one] at rem
  refine ⟨_, _, if_neg (mt (isZero_iff b).mp nonzero), ?_, quot, rem⟩
  rw [quot, rem]
  exact (Nat.div_add_mod' _ _).symm

-- Decimal texts

/-- The digits of a number from the lowest on, as bytes. -/
def decLoop : (fuel : Nat) → Zu256 → List UInt8
  | 0, _ => []
  | fuel + 1, a =>
    if a.isZero then []
    else
      match a.divmod (fromU64 10) with
      | some (q, r) => UInt8.ofNat (48 + (r.l.getD 0 0).toNat) :: decLoop fuel q
      | none => []

/-- The buffer takes the digits of any number of 256 bits. -/
def toDec (a : Zu256) (outCap : Nat) : Option (List UInt8) :=
  if outCap = 0 then none
  else
    let tmp := if a.isZero then [48] else decLoop 79 a
    if tmp.length + 1 > outCap then none else some tmp.reverse

def fromDecLoop : List UInt8 → Zu256 → Option Zu256
  | [], r => some r
  | p :: rest, r =>
    if p < 48 ∨ p > 57 then none
    else
      let (r, overflow) := r.mul (fromU64 10)
      if overflow then none
      else
        let (r, overflow) := r.add (fromU64 (BitVec.ofNat 64 (p.toNat - 48)))
        if overflow then none else fromDecLoop rest r

def fromDec (s : List UInt8) : Option Zu256 := if s = [] then none else fromDecLoop s zero

def isDigit (p : UInt8) : Prop := 48 ≤ p.toNat ∧ p.toNat ≤ 57

/-- The number a text of digits stands for, after those already read. -/
def decValue (start : Nat) (s : List UInt8) : Nat :=
  s.foldl (fun v p => 10 * v + (p.toNat - 48)) start

theorem toNat_fromU64 (v : BitVec 64) : (fromU64 v).toNat = v.toNat := by
  simp [fromU64, toNat, value]

theorem ext_toNat {a b : Zu256} (same : a.toNat = b.toNat) : a = b := by
  have words := value_injective (same_size a b) same
  cases a
  cases b
  cases words
  rfl

theorem le_decValue (start : Nat) (s : List UInt8) : start ≤ decValue start s := by
  induction s generalizing start with
  | nil => exact Nat.le_refl _
  | cons p rest ih => exact Nat.le_trans (by omega) (ih (10 * start + (p.toNat - 48)))

theorem isDigit_iff {p : UInt8} : isDigit p ↔ ¬(p < 48 ∨ p > 57) := by
  rw [isDigit, not_or, UInt8.not_lt, gt_iff_lt, UInt8.not_lt, UInt8.le_iff_toNat_le,
    UInt8.le_iff_toNat_le]
  rfl

theorem fromDecLoop_digit {p : UInt8} (digit : isDigit p) (rest : List UInt8) (r : Zu256)
    : (∃ r', r'.toNat = 10 * r.toNat + (p.toNat - 48)
          ∧ fromDecLoop (p :: rest) r = fromDecLoop rest r')
      ∨ (2 ^ 256 ≤ 10 * r.toNat + (p.toNat - 48) ∧ fromDecLoop (p :: rest) r = none) := by
  have top : p.toNat ≤ 57 := digit.2
  obtain ⟨product, carried⟩ := mul_exact r (fromU64 10)
  rw [toNat_fromU64] at product carried
  have ten : (10 : BitVec 64).toNat = 10 := rfl
  rw [ten] at product carried
  simp only [fromDecLoop, if_neg (isDigit_iff.mp digit)]
  split
  case isTrue overflow => exact .inr ⟨by have := carried.mp overflow; omega, rfl⟩
  case isFalse fits =>
    rw [carried] at fits
    obtain ⟨sum, carried'⟩ :=
      add_exact (r.mul (fromU64 10)).1 (fromU64 (BitVec.ofNat 64 (p.toNat - 48)))
    rw [toNat_fromU64, product, BitVec.toNat_ofNat] at sum carried'
    split
    case isTrue overflow => exact .inr ⟨by have := carried'.mp overflow; omega, rfl⟩
    case isFalse fits' =>
      rw [carried'] at fits'
      exact .inl ⟨_, by omega, rfl⟩

theorem fromDecLoop_cases (s : List UInt8) (r : Zu256)
    : (∃ x, fromDecLoop s r = some x ∧ (∀ p ∈ s, isDigit p) ∧ decValue r.toNat s = x.toNat)
      ∨ (fromDecLoop s r = none ∧ ((∀ p ∈ s, isDigit p) → 2 ^ 256 ≤ decValue r.toNat s)) := by
  induction s generalizing r with
  | nil => exact .inl ⟨r, rfl, by simp, rfl⟩
  | cons p rest ih =>
    have value : decValue r.toNat (p :: rest)
        = decValue (10 * r.toNat + (p.toNat - 48)) rest := rfl
    rw [List.forall_mem_cons, value]
    by_cases digit : isDigit p
    · rcases fromDecLoop_digit digit rest r with ⟨r', grown, taken⟩ | ⟨overflow, refused⟩
      · simpa [taken, grown, digit] using ih r'
      · exact .inr ⟨refused, fun _ => overflow.trans (le_decValue _ rest)⟩
    · refine .inr ⟨?_, fun digits => absurd digits.1 digit⟩
      rw [fromDecLoop, if_pos (not_not.mp (mt isDigit_iff.mpr digit))]

theorem toNat_lowest_word {r : Zu256} (small : r.toNat < 2 ^ 64)
    : (r.l.getD 0 0).toNat = r.toNat := by
  obtain ⟨l, size⟩ := r
  match l, size with
  | x :: l, _ =>
    change x.toNat + 2 ^ 64 * value l < 2 ^ 64 at small
    change x.toNat = x.toNat + 2 ^ 64 * value l
    omega

theorem decLoop_spec {fuel k : Nat} {a : Zu256} (enough : k ≤ fuel) (small : a.toNat < 10 ^ k)
    : decValue 0 (decLoop fuel a).reverse = a.toNat ∧ (∀ p ∈ decLoop fuel a, isDigit p)
      ∧ (decLoop fuel a).length ≤ k := by
  induction fuel generalizing k a with
  | zero =>
    obtain rfl := Nat.le_zero.mp enough
    have none : a.toNat = 0 := by simpa using small
    exact ⟨none.symm, by simp [decLoop], Nat.le_refl _⟩
  | succ fuel ih =>
    rw [decLoop]
    split
    case isTrue none => exact ⟨((isZero_iff a).mp none).symm, by simp, Nat.zero_le _⟩
    case isFalse nonzero =>
      rw [isZero_iff] at nonzero
      cases k with
      | zero => exact absurd (Nat.lt_one_iff.mp small) nonzero
      | succ k =>
        obtain ⟨q, r, divided, whole, quotient, remainder⟩ :=
          a.divmod_exact (b := fromU64 10) (by decide)
        rw [toNat_fromU64] at whole quotient remainder
        change q.toNat = a.toNat / 10 at quotient
        change r.toNat = a.toNat % 10 at remainder
        change a.toNat = q.toNat * 10 + r.toNat at whole
        obtain ⟨value, digits, length⟩ := @ih k q (by omega) (by rw [Nat.pow_succ] at small; omega)
        have last : (UInt8.ofNat (48 + (r.l.getD 0 0).toNat)).toNat = 48 + r.toNat := by
          rw [toNat_lowest_word (by omega), UInt8.toNat_ofNat']
          omega
        simp only [divided]
        refine ⟨?_, ?_, Nat.succ_le_succ length⟩
        · rw [List.reverse_cons, decValue, List.foldl_append]
          change 10 * decValue 0 (decLoop fuel q).reverse + (_ - 48) = _
          rw [value, last]
          omega
        · intro p member
          rcases List.mem_cons.mp member with rfl | later
          · rw [isDigit, last]
            omega
          · exact digits p later

theorem toDec_spec {a : Zu256} {outCap : Nat} {s : List UInt8} (written : a.toDec outCap = some s)
    : fromDec s = some a := by
  have large : (2 : Nat) ^ 256 < 10 ^ 78 := by decide
  obtain ⟨value, digits, -⟩ := @decLoop_spec 79 78 a (by decide) (Nat.lt_trans a.toNat_lt large)
  unfold toDec at written
  split at written
  · cases written
  extract_lets tmp at written
  split at written
  · cases written
  obtain rfl := Option.some.inj written
  have read : (∀ p ∈ tmp.reverse, isDigit p) ∧ decValue 0 tmp.reverse = a.toNat := by
    unfold tmp
    split
    case isTrue none =>
      rw [(isZero_iff a).mp none]
      exact ⟨by simp [isDigit], rfl⟩
    case isFalse => exact ⟨fun p member => digits p (List.mem_reverse.mp member), value⟩
  have nonempty : tmp.reverse ≠ [] := by
    intro empty
    unfold tmp at empty
    split at empty
    · cases empty
    case isFalse nonzero =>
      rw [empty] at value
      exact nonzero ((isZero_iff a).mpr value.symm)
  rw [fromDec, if_neg nonempty]
  rcases fromDecLoop_cases tmp.reverse zero with ⟨x, found, -, value⟩ | ⟨-, large⟩
  · rw [found, ext_toNat (value.symm.trans read.2)]
  · exact absurd (read.2 ▸ large read.1) (not_le.mpr a.toNat_lt)

theorem toDec_isSome (a : Zu256) {outCap : Nat} (room : 79 ≤ outCap)
    : (a.toDec outCap).isSome = true := by
  have large : (2 : Nat) ^ 256 < 10 ^ 78 := by decide
  obtain ⟨-, -, length⟩ := @decLoop_spec 79 78 a (by decide) (Nat.lt_trans a.toNat_lt large)
  unfold toDec
  rw [if_neg (by omega)]
  extract_lets tmp
  have few : tmp.length ≤ 78 := by
    unfold tmp
    split
    · decide
    · exact length
  rw [if_neg (by omega)]
  rfl

end Zu256

open Zu256

/-- The arithmetic is exact for all operands, with flags for what does not fit, and decimal texts
are read back; the division needs no room above 256 bits. -/
theorem zu256_exact
    : (∀ a b : Zu256, (a.add b).1.toNat = (a.toNat + b.toNat) % 2 ^ 256
        ∧ ((a.add b).2 = true ↔ 2 ^ 256 ≤ a.toNat + b.toNat))
      ∧ (∀ a b : Zu256, ((a.sub b).1.toNat : Int) = ((a.toNat : Int) - b.toNat) % (2 ^ 256 : Nat)
        ∧ ((a.sub b).2 = true ↔ a.toNat < b.toNat))
      ∧ (∀ a b : Zu256, (a.mul b).1.toNat = a.toNat * b.toNat % 2 ^ 256
        ∧ ((a.mul b).2 = true ↔ 2 ^ 256 ≤ a.toNat * b.toNat))
      ∧ (∀ a b : Zu256, b.toNat ≠ 0 → ∃ q r, a.divmod b = some (q, r)
        ∧ a.toNat = q.toNat * b.toNat + r.toNat ∧ r.toNat < b.toNat)
      ∧ (∀ (a : Zu256) (outCap : Nat), (79 ≤ outCap → (a.toDec outCap).isSome = true)
        ∧ ∀ s, a.toDec outCap = some s → fromDec s = some a)
      ∧ ∀ s : List UInt8, (fromDec s).isSome = true
        ↔ s ≠ [] ∧ (∀ p ∈ s, isDigit p) ∧ decValue 0 s < 2 ^ 256 := by
  refine ⟨add_exact, sub_exact, mul_exact, ?_, ?_, ?_⟩
  · intro a b nonzero
    obtain ⟨q, r, divided, whole, -, remainder⟩ := a.divmod_exact nonzero
    exact ⟨q, r, divided, whole, remainder ▸ Nat.mod_lt _ (Nat.pos_of_ne_zero nonzero)⟩
  · exact fun a outCap => ⟨toDec_isSome a, fun s written => toDec_spec written⟩
  · intro s
    unfold fromDec
    split
    case isTrue empty => simp [empty]
    case isFalse nonempty =>
      rcases fromDecLoop_cases s zero with ⟨x, found, digits, value⟩ | ⟨refused, large⟩
      · rw [found]
        exact ⟨fun _ => ⟨nonempty, digits, value ▸ x.toNat_lt⟩, fun _ => rfl⟩
      · rw [refused]
        exact ⟨fun none => (by cases none), fun read => absurd read.2.2 (not_lt.mpr (large read.2.1))⟩

/-- A divisor above 2^255. -/
theorem zu256_exact_large
    : ∃ q r, (fromU64 7).divmod ⟨[0, 0, 0, 0x8000000000000001], rfl⟩ = some (q, r)
        ∧ (fromU64 7).toNat
            = q.toNat * (⟨[0, 0, 0, 0x8000000000000001], rfl⟩ : Zu256).toNat + r.toNat
        ∧ r.toNat < (⟨[0, 0, 0, 0x8000000000000001], rfl⟩ : Zu256).toNat :=
  zu256_exact.2.2.2.1 (fromU64 7) _ (by decide)

end Z23.Commons
