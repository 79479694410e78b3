import Mathlib.Algebra.Order.Ring.Nat
import Mathlib.Tactic.Ring

/-!
Numbers of several machine words, least significant word first: ripple addition, row by row
multiplication, shifts, comparison and the position of the top bit, each with what it does to the
value.
-/

namespace Z23.Lib.Limbs

variable {w : Nat}

def value : List (BitVec w) → Nat
  | [] => 0
  | x :: xs => x.toNat + 2 ^ w * value xs

/-- A bit of a word of the number. -/
def limbBit (xs : List (BitVec w)) (j b : Nat) : Bool := (xs.getD j 0).getLsbD b

-- Values

theorem two_pow_words (w n : Nat) : 2 ^ (w * (n + 1)) = 2 ^ w * 2 ^ (w * n) := by
  rw [Nat.mul_add, Nat.mul_one, Nat.pow_add, Nat.mul_comm]

theorem value_lt (xs : List (BitVec w)) : value xs < 2 ^ (w * xs.length) := by
  induction xs with
  | nil => simp [value]
  | cons x xs ih =>
    have low := x.isLt
    rw [List.length_cons, two_pow_words, value]
    calc x.toNat + 2 ^ w * value xs < 2 ^ w + 2 ^ w * value xs := by omega
      _ = 2 ^ w * (value xs + 1) := by ring
      _ ≤ 2 ^ w * 2 ^ (w * xs.length) := Nat.mul_le_mul_left _ ih

theorem value_injective {xs ys : List (BitVec w)} (length : xs.length = ys.length)
    (same : value xs = value ys)
    : xs = ys := by
  induction xs generalizing ys with
  | nil => exact (List.eq_nil_of_length_eq_zero length.symm).symm
  | cons x xs ih =>
    cases ys with
    | nil => cases length
    | cons y ys =>
      rw [value, value] at same
      have word : x.toNat = y.toNat := by
        have low := congrArg (· % 2 ^ w) same
        simpa [Nat.mod_eq_of_lt x.isLt, Nat.mod_eq_of_lt y.isLt] using low
      have rest : value xs = value ys := by
        rw [word] at same
        exact Nat.eq_of_mul_eq_mul_left (Nat.two_pow_pos w) (Nat.add_left_cancel same)
      rw [BitVec.toNat_inj.mp word, ih (Nat.succ.inj length) rest]

theorem value_replicate_zero (n : Nat) : value (List.replicate n (0 : BitVec w)) = 0 := by
  induction n with
  | zero => rfl
  | succ n ih =>
    rw [List.replicate_succ, value, ih]
    rfl

theorem limbBit_of_ge (xs : List (BitVec w)) (j : Nat) {b : Nat} (outside : w ≤ b)
    : limbBit xs j b = false := BitVec.getLsbD_of_ge _ _ outside

@[simp] theorem limbBit_nil (j b : Nat) : limbBit ([] : List (BitVec w)) j b = false := by
  simp [limbBit]

theorem testBit_value (xs : List (BitVec w)) (j : Nat) {b : Nat} (inside : b < w)
    : (value xs).testBit (w * j + b) = limbBit xs j b := by
  induction xs generalizing j with
  | nil => simp [value]
  | cons x xs ih =>
    rw [value, Nat.add_comm, Nat.testBit_two_pow_mul_add _ x.isLt]
    cases j with
    | zero =>
      rw [Nat.mul_zero, Nat.zero_add, if_pos inside]
      rfl
    | succ j =>
      have above : w * (j + 1) + b - w = w * j + b := by
        rw [Nat.mul_add, Nat.mul_one]
        omega
      rw [if_neg (by rw [Nat.mul_add]; omega), above, ih]
      rfl

/-- Numbers are equal when their bits are, word by word. -/
theorem eq_of_limbBits (positive : 0 < w) {m n : Nat}
    (same : ∀ j b, b < w → m.testBit (w * j + b) = n.testBit (w * j + b)) : m = n := by
  apply Nat.eq_of_testBit_eq
  intro i
  have parts := same (i / w) (i % w) (Nat.mod_lt i positive)
  rwa [Nat.div_add_mod] at parts

theorem limbBit_of_length_le {xs : List (BitVec w)} {j : Nat} (outside : xs.length ≤ j) (b : Nat)
    : limbBit xs j b = false := by
  unfold limbBit
  rw [List.getD_eq_getElem?_getD, List.getElem?_eq_none outside]
  exact BitVec.getLsbD_zero

theorem limbBit_replicate_zero (n j b : Nat)
    : limbBit (List.replicate n (0 : BitVec w)) j b = false := by
  unfold limbBit
  rw [List.getD_eq_getElem?_getD, List.getElem?_replicate]
  split
  · exact BitVec.getLsbD_zero
  · exact BitVec.getLsbD_zero

-- Addition

def addLoop (carry : Nat) : List (BitVec w) → List (BitVec w) → List (BitVec w)
  | x :: xs, y :: ys =>
    let n := carry + x.toNat + y.toNat
    BitVec.ofNat w n :: addLoop (n / 2 ^ w) xs ys
  | _, _ => []

theorem addLoop_length (carry : Nat) {xs ys : List (BitVec w)} (same : xs.length = ys.length)
    : (addLoop carry xs ys).length = xs.length := by
  induction xs generalizing ys carry with
  | nil => rfl
  | cons x xs ih =>
    cases ys with
    | nil => cases same
    | cons y ys => exact congrArg (· + 1) (ih _ (Nat.succ.inj same))

/-- The word that is kept, and what is carried on. -/
theorem kept_add_carried (w n rest size : Nat)
    : n % 2 ^ w + 2 ^ w * ((n / 2 ^ w + rest) % size) = (n + 2 ^ w * rest) % (2 ^ w * size) := by
  have split := Nat.mod_add_div n (2 ^ w)
  have low : n % 2 ^ w < 2 ^ w := Nat.mod_lt _ (Nat.two_pow_pos w)
  have regroup : n + 2 ^ w * rest = n % 2 ^ w + 2 ^ w * (n / 2 ^ w + rest) := by
    rw [Nat.mul_add]
    omega
  rw [regroup, Nat.mod_mul, Nat.add_mul_mod_self_left, Nat.mod_mod,
    Nat.add_mul_div_left _ _ (Nat.two_pow_pos w), Nat.div_eq_of_lt low, Nat.zero_add]

theorem value_addLoop (carry : Nat) {xs ys : List (BitVec w)} (same : xs.length = ys.length)
    : value (addLoop carry xs ys) = (carry + value xs + value ys) % 2 ^ (w * xs.length) := by
  induction xs generalizing ys carry with
  | nil => simp [addLoop, value, Nat.mod_one]
  | cons x xs ih =>
    cases ys with
    | nil => cases same
    | cons y ys =>
      rw [addLoop, value, ih _ (Nat.succ.inj same), BitVec.toNat_ofNat, List.length_cons,
        two_pow_words, Nat.add_assoc (_ / _), kept_add_carried, value, value]
      congr 1
      ring

-- Complement and increment

def complement (xs : List (BitVec w)) : List (BitVec w) := xs.map (~~~ ·)

theorem value_complement (xs : List (BitVec w))
    : value (complement xs) = 2 ^ (w * xs.length) - 1 - value xs := by
  have total : value (complement xs) + value xs + 1 = 2 ^ (w * xs.length) := by
    induction xs with
    | nil => rfl
    | cons x xs ih =>
      have low := x.isLt
      have word : (~~~x).toNat + x.toNat + 1 = 2 ^ w := by
        rw [BitVec.toNat_not]
        omega
      rw [List.length_cons, two_pow_words, ← ih]
      change (~~~x).toNat + 2 ^ w * value (complement xs) + (x.toNat + 2 ^ w * value xs) + 1 = _
      calc (~~~x).toNat + 2 ^ w * value (complement xs) + (x.toNat + 2 ^ w * value xs) + 1
          = ((~~~x).toNat + x.toNat + 1) + 2 ^ w * (value (complement xs) + value xs) := by ring
        _ = 2 ^ w * (value (complement xs) + value xs + 1) := by rw [word]; ring
  omega

/-- Adds one to the first word, and goes on while a word becomes zero. -/
def increment : List (BitVec w) → List (BitVec w)
  | [] => []
  | x :: xs => if x + 1 = 0 then (x + 1) :: increment xs else (x + 1) :: xs

theorem increment_length (xs : List (BitVec w)) : (increment xs).length = xs.length := by
  induction xs with
  | nil => rfl
  | cons x xs ih =>
    rw [increment]
    split
    · exact congrArg (· + 1) ih
    · rfl

theorem value_increment (positive : 0 < w) (xs : List (BitVec w))
    : value (increment xs) = (value xs + 1) % 2 ^ (w * xs.length) := by
  induction xs with
  | nil => simp [increment, value]
  | cons x xs ih =>
    have low := x.isLt
    have one : (1 : BitVec w).toNat = 1 := BitVec.toNat_one positive
    have next : (x + 1).toNat = (x.toNat + 1) % 2 ^ w := by rw [BitVec.toNat_add, one]
    have bound := value_lt (x :: xs)
    rw [increment]
    by_cases wraps : x + 1 = 0
    · have full : x.toNat + 1 = 2 ^ w := by
        have zero : (x.toNat + 1) % 2 ^ w = 0 := by
          rw [← next, wraps]
          rfl
        by_contra below
        rw [Nat.mod_eq_of_lt (by omega)] at zero
        omega
      rw [if_pos wraps, value, ih, next, full, Nat.mod_self, Nat.zero_add, value,
        List.length_cons, two_pow_words, ← Nat.mul_mod_mul_left]
      congr 1
      rw [Nat.mul_add]
      omega
    · have room : x.toNat + 1 < 2 ^ w := by
        by_contra full
        apply wraps
        apply BitVec.eq_of_toNat_eq
        rw [next, show x.toNat + 1 = 2 ^ w by omega, Nat.mod_self]
        rfl
      have above : value ((x + 1) :: xs) = value (x :: xs) + 1 := by
        rw [value, value, next, Nat.mod_eq_of_lt room]
        omega
      have fits := value_lt ((x + 1) :: xs)
      rw [above, List.length_cons] at fits
      rw [if_neg wraps, above, List.length_cons, Nat.mod_eq_of_lt fits]

-- Multiplication

/-- One row: adds the multiple of a number by a word, as far as the sum has words. -/
def mulAddLoop (carry : Nat) (a : BitVec w)
    : List (BitVec w) → List (BitVec w) → List (BitVec w)
  | x :: xs, y :: ys =>
    let n := carry + x.toNat + a.toNat * y.toNat
    BitVec.ofNat w n :: mulAddLoop (n / 2 ^ w) a xs ys
  | xs, _ => xs

/-- The rows; each starts one word higher than the one before it. -/
def mulLoop : List (BitVec w) → List (BitVec w) → List (BitVec w) → List (BitVec w)
  | [], _, _ => []
  | r, [], _ => r
  | x :: xs, a :: as, ys =>
    match mulAddLoop 0 a (x :: xs) ys with
    | [] => []
    | low :: high => low :: mulLoop high as ys

theorem mulAddLoop_length (carry : Nat) (a : BitVec w) (xs ys : List (BitVec w))
    : (mulAddLoop carry a xs ys).length = xs.length := by
  induction xs generalizing ys carry with
  | nil => cases ys <;> rfl
  | cons x xs ih =>
    cases ys with
    | nil => rfl
    | cons y ys => exact congrArg (· + 1) (ih _ ys)

theorem value_mulAddLoop (carry : Nat) (a : BitVec w) {xs ys : List (BitVec w)}
    (covers : xs.length ≤ ys.length)
    : value (mulAddLoop carry a xs ys)
        = (carry + value xs + a.toNat * value ys) % 2 ^ (w * xs.length) := by
  induction xs generalizing ys carry with
  | nil => cases ys <;> simp [mulAddLoop, value, Nat.mod_one]
  | cons x xs ih =>
    cases ys with
    | nil => cases covers
    | cons y ys =>
      rw [mulAddLoop, value, ih _ (Nat.le_of_succ_le_succ covers), BitVec.toNat_ofNat,
        List.length_cons, two_pow_words, Nat.add_assoc (_ / _), kept_add_carried, value,
        value]
      congr 1
      ring

theorem mulLoop_length (r as ys : List (BitVec w)) : (mulLoop r as ys).length = r.length := by
  induction as generalizing r with
  | nil => cases r <;> rfl
  | cons a as ih =>
    cases r with
    | nil => rfl
    | cons x xs =>
      have size := mulAddLoop_length 0 a (x :: xs) ys
      rw [mulLoop]
      cases row : mulAddLoop 0 a (x :: xs) ys with
      | nil =>
        rw [row] at size
        cases size
      | cons low high =>
        rw [row] at size
        exact (congrArg (· + 1) (ih high)).trans size

theorem value_mulLoop (r as : List (BitVec w)) {ys : List (BitVec w)}
    (covers : r.length ≤ ys.length)
    : value (mulLoop r as ys) = (value r + value as * value ys) % 2 ^ (w * r.length) := by
  induction as generalizing r with
  | nil =>
    have bound := value_lt r
    have same : mulLoop r [] ys = r := by cases r <;> rfl
    rw [same, value, Nat.zero_mul, Nat.add_zero, Nat.mod_eq_of_lt bound]
  | cons a as ih =>
    cases r with
    | nil => simp [mulLoop, value, Nat.mod_one]
    | cons x xs =>
      have size := mulAddLoop_length 0 a (x :: xs) ys
      have whole := value_mulAddLoop 0 a covers
      rw [mulLoop]
      cases row : mulAddLoop 0 a (x :: xs) ys with
      | nil =>
        rw [row] at size
        cases size
      | cons low high =>
        rw [row] at size whole
        have count : high.length = xs.length := Nat.succ.inj size
        have shorter : high.length ≤ ys.length := by
          rw [count]
          exact Nat.le_of_succ_le covers
        have carried := kept_add_carried w (value (low :: high)) (value as * value ys)
          (2 ^ (w * xs.length))
        have lowWord : value (low :: high) % 2 ^ w = low.toNat := by
          rw [value, Nat.add_mul_mod_self_left, Nat.mod_eq_of_lt low.isLt]
        have highWords : value (low :: high) / 2 ^ w = value high := by
          rw [value, Nat.add_mul_div_left _ _ (Nat.two_pow_pos w),
            Nat.div_eq_of_lt low.isLt, Nat.zero_add]
        rw [lowWord, highWords] at carried
        change low.toNat + 2 ^ w * value (mulLoop high as ys) = _
        rw [ih high shorter, count, carried, whole, List.length_cons, two_pow_words,
          Nat.mod_add_mod]
        congr 1
        change _ = value (x :: xs) + (a.toNat + 2 ^ w * value as) * value ys
        ring

-- Comparison and the top bit

/-- The value of words that start with the most significant one. -/
def valueHigh : List (BitVec w) → Nat
  | [] => 0
  | x :: xs => x.toNat * 2 ^ (w * xs.length) + valueHigh xs

theorem value_append (xs ys : List (BitVec w))
    : value (xs ++ ys) = value xs + 2 ^ (w * xs.length) * value ys := by
  induction xs with
  | nil => simp [value]
  | cons x xs ih =>
    rw [List.cons_append, value, value, ih, List.length_cons, two_pow_words]
    ring

theorem valueHigh_reverse (xs : List (BitVec w)) : valueHigh xs = value xs.reverse := by
  induction xs with
  | nil => rfl
  | cons x xs ih =>
    rw [valueHigh, ih, List.reverse_cons, value_append, List.length_reverse, value, value]
    ring

theorem valueHigh_lt (xs : List (BitVec w)) : valueHigh xs < 2 ^ (w * xs.length) := by
  have bound := value_lt xs.reverse
  rwa [List.length_reverse, ← valueHigh_reverse] at bound

/-- From the most significant word on, the first difference decides. -/
def compareLoop : List (BitVec w) → List (BitVec w) → Int
  | x :: xs, y :: ys => if x < y then -1 else if y < x then 1 else compareLoop xs ys
  | _, _ => 0

theorem compareLoop_nonneg_iff {xs ys : List (BitVec w)} (same : xs.length = ys.length)
    : 0 ≤ compareLoop xs ys ↔ valueHigh ys ≤ valueHigh xs := by
  induction xs generalizing ys with
  | nil =>
    cases ys with
    | nil => simp [compareLoop, valueHigh]
    | cons y ys => cases same
  | cons x xs ih =>
    cases ys with
    | nil => cases same
    | cons y ys =>
      have count : xs.length = ys.length := Nat.succ.inj same
      have left := valueHigh_lt xs
      have right := valueHigh_lt ys
      have size : 0 < 2 ^ (w * xs.length) := Nat.two_pow_pos _
      rw [← count] at right
      rw [compareLoop, valueHigh, valueHigh, ← count]
      by_cases below : x < y
      · have step : (x.toNat + 1) * 2 ^ (w * xs.length) ≤ y.toNat * 2 ^ (w * xs.length) :=
          Nat.mul_le_mul_right _ (BitVec.lt_def.mp below)
        rw [if_pos below]
        rw [Nat.add_mul, Nat.one_mul] at step
        omega
      · rw [if_neg below]
        by_cases above : y < x
        · have step : (y.toNat + 1) * 2 ^ (w * xs.length) ≤ x.toNat * 2 ^ (w * xs.length) :=
            Nat.mul_le_mul_right _ (BitVec.lt_def.mp above)
          rw [if_pos above]
          rw [Nat.add_mul, Nat.one_mul] at step
          omega
        · have equal : x = y := by
            apply BitVec.eq_of_toNat_eq
            rw [BitVec.lt_def] at below above
            omega
          rw [if_neg above, ih count, equal]
          omega

theorem compareLoop_swap (xs ys : List (BitVec w)) : compareLoop ys xs = -compareLoop xs ys := by
  induction xs generalizing ys with
  | nil =>
    cases ys with
    | nil => rfl
    | cons y ys => rfl
  | cons x xs ih =>
    cases ys with
    | nil => rfl
    | cons y ys =>
      rw [compareLoop, compareLoop]
      by_cases below : x < y
      · rw [if_pos below, if_neg (BitVec.not_lt.mpr (BitVec.le_of_lt below)), if_pos below]
        rfl
      · rw [if_neg below, if_neg below]
        by_cases above : y < x
        · rw [if_pos above, if_pos above]
        · rw [if_neg above, if_neg above, ih]

/-- Scans a word down from a position for a set bit; the lowest one is not looked at. -/
def topBit (x : BitVec w) : Nat → Nat
  | 0 => 0
  | n + 1 => if x.getLsbD (n + 1) then n + 1 else topBit x n

/-- From the most significant word on, the first one that is not zero decides. -/
def bitsLoop : List (BitVec w) → Nat
  | [] => 0
  | x :: xs => if x ≠ 0 then w * xs.length + topBit x (w - 1) + 1 else bitsLoop xs

theorem topBit_bounds {x : BitVec w} (nonzero : x ≠ 0) (n : Nat) (small : x.toNat < 2 ^ (n + 1))
    : 2 ^ topBit x n ≤ x.toNat ∧ x.toNat < 2 ^ (topBit x n + 1) := by
  induction n with
  | zero =>
    have positive : x.toNat ≠ 0 := by
      intro zero
      exact nonzero (BitVec.eq_of_toNat_eq zero)
    rw [topBit]
    omega
  | succ n ih =>
    rw [topBit]
    by_cases top : x.getLsbD (n + 1) = true
    · rw [if_pos top]
      exact ⟨Nat.ge_two_pow_of_testBit top, small⟩
    · rw [if_neg top]
      apply ih
      apply Nat.lt_pow_two_of_testBit
      intro i above
      by_cases here : i = n + 1
      · rw [here]
        exact Bool.eq_false_iff.mpr top
      · exact Nat.testBit_lt_two_pow
          (Nat.lt_of_lt_of_le small (Nat.pow_le_pow_right (by decide) (by omega)))

/-- The number of bits of a number. -/
theorem bitsLoop_bounds (xs : List (BitVec w))
    : valueHigh xs < 2 ^ bitsLoop xs ∧ (bitsLoop xs ≠ 0 → 2 ^ (bitsLoop xs - 1) ≤ valueHigh xs)
      ∧ bitsLoop xs ≤ w * xs.length := by
  induction xs with
  | nil => simp [bitsLoop, valueHigh]
  | cons x xs ih =>
    rw [bitsLoop, valueHigh]
    by_cases nonzero : x ≠ 0
    · have positive : 0 < w := by
        by_contra none
        obtain rfl : w = 0 := by omega
        exact nonzero (Subsingleton.elim x 0)
      have word : x.toNat < 2 ^ (w - 1 + 1) := by
        rw [Nat.sub_add_cancel positive]
        exact x.isLt
      obtain ⟨low, high⟩ := topBit_bounds nonzero (w - 1) word
      have rest := valueHigh_lt xs
      have inside : topBit x (w - 1) < w := by
        by_contra outside
        have large := Nat.pow_le_pow_right (show 0 < 2 by decide) (Nat.le_of_not_lt outside)
        have bound := x.isLt
        omega
      rw [if_pos nonzero]
      refine ⟨?_, ?_, ?_⟩
      · calc x.toNat * 2 ^ (w * xs.length) + valueHigh xs
            < (x.toNat + 1) * 2 ^ (w * xs.length) := by
              rw [Nat.add_mul, Nat.one_mul]
              omega
          _ ≤ 2 ^ (topBit x (w - 1) + 1) * 2 ^ (w * xs.length) := Nat.mul_le_mul_right _ high
          _ = 2 ^ (w * xs.length + topBit x (w - 1) + 1) := by
              rw [← Nat.pow_add]
              congr 1
              omega
      · intro _
        calc 2 ^ (w * xs.length + topBit x (w - 1) + 1 - 1)
            = 2 ^ topBit x (w - 1) * 2 ^ (w * xs.length) := by
              rw [← Nat.pow_add]
              congr 1
              omega
          _ ≤ x.toNat * 2 ^ (w * xs.length) := Nat.mul_le_mul_right _ low
          _ ≤ x.toNat * 2 ^ (w * xs.length) + valueHigh xs := Nat.le_add_right _ _
      · rw [List.length_cons, Nat.mul_add]
        omega
    · have zero : x.toNat = 0 := by
        rw [Classical.not_not.mp nonzero]
        rfl
      obtain ⟨below, above, size⟩ := ih
      rw [if_neg nonzero, zero, Nat.zero_mul, Nat.zero_add, List.length_cons, Nat.mul_add]
      exact ⟨below, above, Nat.le_add_right_of_le size⟩

-- Single bits and shifts

theorem limbBit_modify_or (xs : List (BitVec w)) (i : Nat) (y : BitVec w) (j b : Nat)
    : limbBit (xs.modify i (· ||| y)) j b
        = (limbBit xs j b || (decide (i = j ∧ j < xs.length) && y.getLsbD b)) := by
  unfold limbBit
  rw [List.getD_eq_getElem?_getD, List.getD_eq_getElem?_getD, List.getElem?_modify]
  by_cases here : i = j
  · by_cases inside : j < xs.length
    · simp [here, inside]
    · simp [here, inside]
  · simp [here]

/-- Sets the bit at a position. -/
def setBit (xs : List (BitVec w)) (position : Nat) : List (BitVec w) :=
  xs.modify (position / w) (· ||| (1#w <<< (position % w)))

theorem setBit_length (xs : List (BitVec w)) (position : Nat)
    : (setBit xs position).length = xs.length := List.length_modify _ _ _

theorem value_setBit {xs : List (BitVec w)} {position : Nat} (inside : position < w * xs.length)
    (clear : 2 ^ (position + 1) ∣ value xs)
    : value (setBit xs position) = value xs + 2 ^ position := by
  have positive : 0 < w := by
    by_contra none
    obtain rfl : w = 0 := by omega
    omega
  have word : position / w < xs.length := Nat.div_lt_of_lt_mul inside
  obtain ⟨high, multiple⟩ := clear
  have apart : value xs + 2 ^ position = value xs ||| 2 ^ position := by
    rw [multiple, Nat.two_pow_add_eq_or_of_lt (Nat.pow_lt_pow_right (by decide) (by omega))]
  rw [apart]
  apply eq_of_limbBits positive
  intro j b low
  have mask : (1#w <<< (position % w)).getLsbD b = decide (b = position % w) := by
    have small := Nat.mod_lt position positive
    rw [BitVec.getLsbD_shiftLeft, BitVec.getLsbD_one]
    by_cases here : b = position % w
    · simp [here, positive, small]
    · rw [decide_eq_false here]
      by_cases under : b < position % w
      · simp [under]
      · have later : b - position % w ≠ 0 := by omega
        simp [later]
  have place : (position = w * j + b) ↔ position / w = j ∧ b = position % w := by
    constructor
    · rintro rfl
      rw [Nat.mul_add_div positive, Nat.div_eq_of_lt low, Nat.add_zero, Nat.mul_add_mod,
        Nat.mod_eq_of_lt low]
      exact ⟨rfl, rfl⟩
    · rintro ⟨rfl, rfl⟩
      exact (Nat.div_add_mod position w).symm
  rw [testBit_value _ _ low, setBit, limbBit_modify_or, mask, Nat.testBit_or,
    testBit_value _ _ low, Nat.testBit_two_pow]
  congr 1
  by_cases here : position = w * j + b
  · obtain ⟨limb, bit⟩ := place.mp here
    rw [decide_eq_true here, decide_eq_true bit, decide_eq_true ⟨limb, limb ▸ word⟩]
    rfl
  · rw [decide_eq_false here]
    by_cases limb : position / w = j
    · rw [decide_eq_false (fun bit => here (place.mpr ⟨limb, bit⟩)), Bool.and_false]
    · rw [decide_eq_false (fun both => limb both.1), Bool.false_and]

/-- A word of a list is the first one or one of the rest. -/
theorem exists_limb_cons (place : Nat → Prop) (x : BitVec w) (xs : List (BitVec w)) (b : Nat)
    : (∃ p, place p ∧ limbBit (x :: xs) p b = true)
      ↔ (place 0 ∧ x.getLsbD b = true) ∨ ∃ p, place (p + 1) ∧ limbBit xs p b = true := by
  constructor
  · rintro ⟨p, here, set⟩
    cases p with
    | zero => exact .inl ⟨here, set⟩
    | succ p => exact .inr ⟨p, here, set⟩
  · rintro (⟨here, set⟩ | ⟨p, here, set⟩)
    · exact ⟨0, here, set⟩
    · exact ⟨p + 1, here, set⟩

theorem limbBit_modify_or_iff {xs : List (BitVec w)} {i j b : Nat} (y : BitVec w)
    (inside : j < xs.length)
    : limbBit (xs.modify i (· ||| y)) j b = true
      ↔ limbBit xs j b = true ∨ i = j ∧ y.getLsbD b = true := by
  rw [limbBit_modify_or, Bool.or_eq_true, Bool.and_eq_true, decide_eq_true_eq]
  exact or_congr Iff.rfl (and_congr (and_iff_left inside) Iff.rfl)

theorem or_gather (p a b c d : Prop) : (p ∨ a ∨ b) ∨ c ∨ d ↔ p ∨ (a ∨ c) ∨ (b ∨ d) := by tauto

section ShiftLeft

variable (k s : Nat)

def shlStep (i : Nat) (x : BitVec w) (r : List (BitVec w)) : List (BitVec w) :=
  let r := if i + k + 1 < r.length ∧ s ≠ 0 then r.modify (i + k + 1) (· ||| (x >>> (w - s))) else r
  if i + k < r.length then r.modify (i + k) (· ||| (x <<< s)) else r

/-- Spreads the words from an index on over the result, by words and bits. -/
def shlLoop : Nat → List (BitVec w) → List (BitVec w) → List (BitVec w)
  | _, [], r => r
  | i, x :: xs, r => shlLoop (i + 1) xs (shlStep k s i x r)

def shl (xs : List (BitVec w)) (shift : Nat) : List (BitVec w) :=
  shlLoop (shift / w) (shift % w) 0 xs (List.replicate xs.length 0)

variable {k s}

theorem shlStep_length (i : Nat) (x : BitVec w) (r : List (BitVec w))
    : (shlStep k s i x r).length = r.length := by
  unfold shlStep
  simp only
  split <;> split <;> simp only [List.length_modify]

theorem shlLoop_length (i : Nat) (xs r : List (BitVec w))
    : (shlLoop k s i xs r).length = r.length := by
  induction xs generalizing i r with
  | nil => rfl
  | cons x xs ih => rw [shlLoop, ih, shlStep_length]

theorem shl_length (xs : List (BitVec w)) (shift : Nat) : (shl xs shift).length = xs.length := by
  rw [shl, shlLoop_length, List.length_replicate]

/-- The bits of a word that go to the next word, and those that stay. -/
theorem limbBit_shlStep (i : Nat) (x : BitVec w) {r : List (BitVec w)} {j b : Nat}
    (inside : j < r.length) (low : b < w)
    : limbBit (shlStep k s i x r) j b = true
      ↔ limbBit r j b = true ∨ (i + k + 1 = j ∧ x.getLsbD (w - s + b) = true)
        ∨ (s ≤ b ∧ i + k = j ∧ x.getLsbD (b - s) = true) := by
  have upper : ∀ r : List (BitVec w), j < r.length →
      (limbBit (if i + k + 1 < r.length ∧ s ≠ 0
        then r.modify (i + k + 1) (· ||| (x >>> (w - s))) else r) j b = true
        ↔ limbBit r j b = true ∨ (i + k + 1 = j ∧ x.getLsbD (w - s + b) = true)) := by
    intro r inside
    split
    · rw [limbBit_modify_or_iff _ inside, BitVec.getLsbD_ushiftRight]
    · rename_i skipped
      apply (or_iff_left _).symm
      rintro ⟨here, set⟩
      have whole : s = 0 := by
        by_contra shifted
        exact skipped ⟨by omega, shifted⟩
      rw [BitVec.getLsbD_of_ge x _ (by omega)] at set
      cases set
  have lower : ∀ r : List (BitVec w), j < r.length →
      (limbBit (if i + k < r.length then r.modify (i + k) (· ||| (x <<< s)) else r) j b = true
        ↔ limbBit r j b = true ∨ (s ≤ b ∧ i + k = j ∧ x.getLsbD (b - s) = true)) := by
    intro r inside
    split
    · rw [limbBit_modify_or_iff _ inside, BitVec.getLsbD_shiftLeft]
      simp only [low, decide_true, Bool.true_and, Bool.and_eq_true, Bool.not_eq_true',
        decide_eq_false_iff_not, Nat.not_lt]
      tauto
    · apply (or_iff_left _).symm
      rintro ⟨-, here, -⟩
      omega
  have grown : j < (if i + k + 1 < r.length ∧ s ≠ 0
      then r.modify (i + k + 1) (· ||| (x >>> (w - s))) else r).length := by
    split
    · rwa [List.length_modify]
    · exact inside
  unfold shlStep
  simp only
  rw [lower _ grown, upper r inside, or_assoc]

theorem limbBit_shlLoop (i : Nat) (xs : List (BitVec w)) {r : List (BitVec w)} {j b : Nat}
    (inside : j < r.length) (low : b < w)
    : limbBit (shlLoop k s i xs r) j b = true
      ↔ limbBit r j b = true ∨ (∃ p, i + p + k + 1 = j ∧ limbBit xs p (w - s + b) = true)
        ∨ (s ≤ b ∧ ∃ p, i + p + k = j ∧ limbBit xs p (b - s) = true) := by
  induction xs generalizing i r with
  | nil => simp [shlLoop]
  | cons x xs ih =>
    have next := ih (i + 1) (show j < (shlStep k s i x r).length by rwa [shlStep_length])
    have later : ∀ p, i + 1 + p = i + (p + 1) := by
      intro p
      omega
    simp only [later] at next
    rw [shlLoop, next, limbBit_shlStep i x inside low,
      exists_limb_cons (fun p => i + p + k + 1 = j), exists_limb_cons (fun p => i + p + k = j)]
    rw [Nat.add_zero, and_or_left]
    exact or_gather _ _ _ _ _

theorem value_shl (positive : 0 < w) (xs : List (BitVec w)) (shift : Nat)
    : value (shl xs shift) = value xs * 2 ^ shift % 2 ^ (w * xs.length) := by
  apply eq_of_limbBits positive
  intro j b low
  have split := Nat.div_add_mod shift w
  have rest := Nat.mod_lt shift positive
  rw [testBit_value _ _ low, Nat.testBit_mod_two_pow, Nat.mul_comm (value xs),
    Nat.testBit_two_pow_mul]
  by_cases inside : j < xs.length
  · have below : w * j + b < w * xs.length := by
      calc w * j + b < w * j + w := by omega
        _ = w * (j + 1) := by ring
        _ ≤ w * xs.length := Nat.mul_le_mul_left _ inside
    have bit := limbBit_shlLoop (k := shift / w) (s := shift % w) 0 xs
      (show j < (List.replicate xs.length (0 : BitVec w)).length by simpa using inside) low
    rw [decide_eq_true below, Bool.true_and, shl, Bool.eq_iff_iff, bit, limbBit_replicate_zero]
    simp only [Bool.false_eq_true, false_or, Nat.zero_add, Bool.and_eq_true, decide_eq_true_eq]
    constructor
    · rintro (⟨p, rfl, set⟩ | ⟨stays, p, rfl, set⟩)
      · have room : w - shift % w + b < w := by
          by_contra outside
          rw [limbBit_of_ge _ _ (Nat.le_of_not_lt outside)] at set
          cases set
        have moved : w * (p + shift / w + 1) + b
            = shift + (w * p + (w - shift % w + b)) := by
          rw [Nat.mul_add, Nat.mul_add, Nat.mul_one]
          omega
        rw [moved, Nat.add_sub_cancel_left, testBit_value _ _ room]
        exact ⟨Nat.le_add_right _ _, set⟩
      · have moved : w * (p + shift / w) + b = shift + (w * p + (b - shift % w)) := by
          rw [Nat.mul_add]
          omega
        rw [moved, Nat.add_sub_cancel_left, testBit_value _ _ (by omega)]
        exact ⟨Nat.le_add_right _ _, set⟩
    · rintro ⟨enough, set⟩
      by_cases stays : shift % w ≤ b
      · have word : shift / w ≤ j := by
          by_contra above
          have far : w * (j + 1) ≤ w * (shift / w) := Nat.mul_le_mul_left _ (by omega)
          rw [Nat.mul_add, Nat.mul_one] at far
          omega
        obtain ⟨p, rfl⟩ : ∃ p, j = p + shift / w := ⟨j - shift / w, by omega⟩
        have moved : w * (p + shift / w) + b = shift + (w * p + (b - shift % w)) := by
          rw [Nat.mul_add]
          omega
        rw [moved, Nat.add_sub_cancel_left, testBit_value _ _ (by omega)] at set
        exact .inr ⟨stays, p, rfl, set⟩
      · have word : shift / w < j := by
          by_contra above
          have far : w * j ≤ w * (shift / w) := Nat.mul_le_mul_left _ (by omega)
          omega
        obtain ⟨p, rfl⟩ : ∃ p, j = p + shift / w + 1 := ⟨j - shift / w - 1, by omega⟩
        have moved : w * (p + shift / w + 1) + b
            = shift + (w * p + (w - shift % w + b)) := by
          rw [Nat.mul_add, Nat.mul_add, Nat.mul_one]
          omega
        rw [moved, Nat.add_sub_cancel_left, testBit_value _ _ (by omega)] at set
        exact .inl ⟨p, rfl, set⟩
  · have outside : w * xs.length ≤ w * j + b := by
      calc w * xs.length ≤ w * j := Nat.mul_le_mul_left _ (Nat.le_of_not_lt inside)
        _ ≤ w * j + b := Nat.le_add_right _ _
    rw [decide_eq_false (Nat.not_lt.mpr outside), Bool.false_and, limbBit_of_length_le]
    rw [shl_length]
    exact Nat.le_of_not_lt inside

end ShiftLeft

section ShiftRight

variable (k s : Nat)

def shrStep (i : Nat) (x : BitVec w) (r : List (BitVec w)) : List (BitVec w) :=
  let r := if k + 1 ≤ i ∧ s ≠ 0 then r.modify (i - k - 1) (· ||| (x <<< (w - s))) else r
  if k ≤ i then r.modify (i - k) (· ||| (x >>> s)) else r

/-- Gathers the words from an index on into the result, by words and bits. -/
def shrLoop : Nat → List (BitVec w) → List (BitVec w) → List (BitVec w)
  | _, [], r => r
  | i, x :: xs, r => shrLoop (i + 1) xs (shrStep k s i x r)

def shr (xs : List (BitVec w)) (shift : Nat) : List (BitVec w) :=
  shrLoop (shift / w) (shift % w) 0 xs (List.replicate xs.length 0)

variable {k s}

theorem shrStep_length (i : Nat) (x : BitVec w) (r : List (BitVec w))
    : (shrStep k s i x r).length = r.length := by
  unfold shrStep
  simp only
  split <;> split <;> simp only [List.length_modify]

theorem shrLoop_length (i : Nat) (xs r : List (BitVec w))
    : (shrLoop k s i xs r).length = r.length := by
  induction xs generalizing i r with
  | nil => rfl
  | cons x xs ih => rw [shrLoop, ih, shrStep_length]

theorem shr_length (xs : List (BitVec w)) (shift : Nat) : (shr xs shift).length = xs.length := by
  rw [shr, shrLoop_length, List.length_replicate]

theorem limbBit_shrStep (i : Nat) (x : BitVec w) {r : List (BitVec w)} {j b : Nat}
    (inside : j < r.length) (low : b < w)
    : limbBit (shrStep k s i x r) j b = true
      ↔ limbBit r j b = true ∨ (w - s ≤ b ∧ i = j + k + 1 ∧ x.getLsbD (b - (w - s)) = true)
        ∨ (i = j + k ∧ x.getLsbD (s + b) = true) := by
  have lower : ∀ r : List (BitVec w), j < r.length →
      (limbBit (if k + 1 ≤ i ∧ s ≠ 0
        then r.modify (i - k - 1) (· ||| (x <<< (w - s))) else r) j b = true
        ↔ limbBit r j b = true
          ∨ (w - s ≤ b ∧ i = j + k + 1 ∧ x.getLsbD (b - (w - s)) = true)) := by
    intro r inside
    split
    · rename_i shifted
      have place : i - k - 1 = j ↔ i = j + k + 1 := by omega
      rw [limbBit_modify_or_iff _ inside, BitVec.getLsbD_shiftLeft, place]
      simp only [low, decide_true, Bool.true_and, Bool.and_eq_true, Bool.not_eq_true',
        decide_eq_false_iff_not, Nat.not_lt]
      tauto
    · rename_i skipped
      apply (or_iff_left _).symm
      rintro ⟨moved, here, -⟩
      have whole : s = 0 := by
        by_contra shifted
        exact skipped ⟨by omega, shifted⟩
      omega
  have upper : ∀ r : List (BitVec w), j < r.length →
      (limbBit (if k ≤ i then r.modify (i - k) (· ||| (x >>> s)) else r) j b = true
        ↔ limbBit r j b = true ∨ (i = j + k ∧ x.getLsbD (s + b) = true)) := by
    intro r inside
    split
    · have place : i - k = j ↔ i = j + k := by omega
      rw [limbBit_modify_or_iff _ inside, BitVec.getLsbD_ushiftRight, place]
    · apply (or_iff_left _).symm
      rintro ⟨here, -⟩
      omega
  have grown : j < (if k + 1 ≤ i ∧ s ≠ 0
      then r.modify (i - k - 1) (· ||| (x <<< (w - s))) else r).length := by
    split
    · rwa [List.length_modify]
    · exact inside
  unfold shrStep
  simp only
  rw [upper _ grown, lower r inside, or_assoc]

theorem limbBit_shrLoop (i : Nat) (xs : List (BitVec w)) {r : List (BitVec w)} {j b : Nat}
    (inside : j < r.length) (low : b < w)
    : limbBit (shrLoop k s i xs r) j b = true
      ↔ limbBit r j b = true
        ∨ (w - s ≤ b ∧ ∃ p, i + p = j + k + 1 ∧ limbBit xs p (b - (w - s)) = true)
        ∨ ∃ p, i + p = j + k ∧ limbBit xs p (s + b) = true := by
  induction xs generalizing i r with
  | nil => simp [shrLoop]
  | cons x xs ih =>
    have next := ih (i + 1) (show j < (shrStep k s i x r).length by rwa [shrStep_length])
    have later : ∀ p, i + 1 + p = i + (p + 1) := by
      intro p
      omega
    simp only [later] at next
    rw [shrLoop, next, limbBit_shrStep i x inside low,
      exists_limb_cons (fun p => i + p = j + k + 1), exists_limb_cons (fun p => i + p = j + k)]
    rw [Nat.add_zero, and_or_left]
    exact or_gather _ _ _ _ _

theorem value_shr (positive : 0 < w) (xs : List (BitVec w)) (shift : Nat)
    : value (shr xs shift) = value xs / 2 ^ shift := by
  apply eq_of_limbBits positive
  intro j b low
  have split := Nat.div_add_mod shift w
  have rest := Nat.mod_lt shift positive
  rw [testBit_value _ _ low, ← Nat.shiftRight_eq_div_pow, Nat.testBit_shiftRight]
  have wordHere : shift + (w * j + b) = w * (j + shift / w) + (shift % w + b) := by
    rw [Nat.mul_add]
    omega
  have wordNext : w - shift % w ≤ b →
      shift + (w * j + b) = w * (j + shift / w + 1) + (b - (w - shift % w)) := by
    intro moved
    rw [Nat.mul_add, Nat.mul_add, Nat.mul_one]
    omega
  by_cases inside : j < xs.length
  · have bit := limbBit_shrLoop (k := shift / w) (s := shift % w) 0 xs
      (show j < (List.replicate xs.length (0 : BitVec w)).length by simpa using inside) low
    rw [shr, Bool.eq_iff_iff, bit, limbBit_replicate_zero]
    simp only [Bool.false_eq_true, false_or, Nat.zero_add]
    by_cases moved : w - shift % w ≤ b
    · rw [wordNext moved, testBit_value _ _ (by omega)]
      constructor
      · rintro (⟨-, p, rfl, set⟩ | ⟨p, -, set⟩)
        · exact set
        · rw [limbBit_of_ge _ _ (by omega)] at set
          cases set
      · intro set
        exact .inl ⟨moved, _, rfl, set⟩
    · rw [wordHere, testBit_value _ _ (by omega)]
      constructor
      · rintro (⟨past, -⟩ | ⟨p, rfl, set⟩)
        · exact absurd past moved
        · exact set
      · intro set
        exact .inr ⟨_, rfl, set⟩
  · have outside : value xs < 2 ^ (shift + (w * j + b)) := by
      calc value xs < 2 ^ (w * xs.length) := value_lt xs
        _ ≤ 2 ^ (w * j) :=
            Nat.pow_le_pow_right (by decide) (Nat.mul_le_mul_left _ (Nat.le_of_not_lt inside))
        _ ≤ 2 ^ (shift + (w * j + b)) := Nat.pow_le_pow_right (by decide) (by omega)
    rw [Nat.testBit_lt_two_pow outside, limbBit_of_length_le]
    rw [shr_length]
    exact Nat.le_of_not_lt inside

end ShiftRight

end Z23.Lib.Limbs
