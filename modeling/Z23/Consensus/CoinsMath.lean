import Mathlib.Data.Set.Function
import Mathlib.Tactic.Ring
import Z23.Primitives

/-!
The compression of amounts: trailing zeros are stripped, at most nine, and their number, the last
digit and what stands before it go into one word. Up to the largest amount the expansion gives the
amount back, and no operation on 64-bit words wraps.
-/

namespace Z23.Consensus

-- The code

/-- The loop that divides by ten while the number ends in zero, for so many turns at most: what is
left and the number of turns made. -/
def stripZeros : Nat → UInt64 → UInt64 × Nat
  | 0, n => (n, 0)
  | turns + 1, n =>
    if n % 10 = 0 then
      let (rest, e) := stripZeros turns (n / 10)
      (rest, e + 1)
    else (n, 0)

def coinsMathCompressAmount (n : UInt64) : UInt64 :=
  if n = 0 then 0
  else
    let (n, e) := stripZeros 9 n
    if e < 9 then
      let d := n % 10
      let n := n / 10
      1 + (n * 9 + d - 1) * 10 + UInt64.ofNat e
    else 1 + (n - 1) * 10 + 9

/-- The loop that multiplies by ten. -/
def scaleTens : Nat → UInt64 → UInt64
  | 0, n => n
  | e + 1, n => scaleTens e (n * 10)

def coinsMathDecompressAmount (x : UInt64) : UInt64 :=
  if x = 0 then 0
  else
    let x := x - 1
    let e := x % 10
    let x := x / 10
    let n :=
      if e < 9 then
        let d := x % 9 + 1
        let x := x / 9
        x * 10 + d
      else x + 1
    scaleTens e.toNat n

-- The code with checked operations

/-- A result, refused where it does not fit a word. -/
def fit64 (x : Nat) : Option Nat := if x < 2 ^ 64 then some x else none

/-- The predecessor, refused where the word would wrap below zero. -/
def less64 (x : Nat) : Option Nat := if x = 0 then none else some (x - 1)

theorem fit64_of_lt {x : Nat} (fits : x < 2 ^ 64) : fit64 x = some x := if_pos fits

theorem less64_of_ne {x : Nat} (nonzero : x ≠ 0) : less64 x = some (x - 1) := if_neg nonzero

def stripZerosExact : Nat → Nat → Nat × Nat
  | 0, n => (n, 0)
  | turns + 1, n =>
    if n % 10 = 0 then
      let (rest, e) := stripZerosExact turns (n / 10)
      (rest, e + 1)
    else (n, 0)

/-- `coins_math_compress_amount` with operations that refuse to wrap. -/
def compressAmountChecked (n : Nat) : Option Nat :=
  if n = 0 then some 0
  else
    let (n, e) := stripZerosExact 9 n
    if e < 9 then do
      let scaled ← fit64 (n / 10 * 9)
      let added ← fit64 (scaled + n % 10)
      let digits ← less64 added
      let tens ← fit64 (digits * 10)
      let more ← fit64 (1 + tens)
      fit64 (more + e)
    else do
      let less ← less64 n
      let tens ← fit64 (less * 10)
      let more ← fit64 (1 + tens)
      fit64 (more + 9)

def scaleTensChecked : Nat → Nat → Option Nat
  | 0, n => some n
  | e + 1, n => do
    let next ← fit64 (n * 10)
    scaleTensChecked e next

/-- `coins_math_decompress_amount` with operations that refuse to wrap. -/
def decompressAmountChecked (x : Nat) : Option Nat :=
  if x = 0 then some 0
  else do
    let x ← less64 x
    let e := x % 10
    let x := x / 10
    if e < 9 then do
      let tens ← fit64 (x / 9 * 10)
      let n ← fit64 (tens + (x % 9 + 1))
      scaleTensChecked e n
    else do
      let n ← fit64 (x + 1)
      scaleTensChecked e n

-- Stripping and scaling

/-- A number without the zeros at its end, at most so many, and their number. -/
structure Stripped (turns n rest e : Nat) : Prop where
  whole : n = rest * 10 ^ e
  few : e ≤ turns
  ended : e < turns → rest % 10 ≠ 0

theorem stripZerosExact_stripped (turns n : Nat)
    : Stripped turns n (stripZerosExact turns n).1 (stripZerosExact turns n).2 := by
  induction turns generalizing n with
  | zero => exact { whole := (Nat.mul_one n).symm, few := Nat.le_refl 0, ended := by omega }
  | succ turns ih =>
    rw [stripZerosExact]
    split
    · rename_i zero
      obtain ⟨whole, few, ended⟩ := ih (n / 10)
      refine {
        whole := ?_
        few := Nat.succ_le_succ few
        ended := fun less => ended (Nat.lt_of_succ_lt_succ less) }
      calc n = n / 10 * 10 := by omega
        _ = (stripZerosExact turns (n / 10)).1 * 10 ^ (stripZerosExact turns (n / 10)).2 * 10 := by
            rw [← whole]
        _ = _ := by
            rw [Nat.pow_succ, Nat.mul_assoc]
    · rename_i digit
      exact { whole := (Nat.mul_one n).symm, few := Nat.zero_le _, ended := fun _ => digit }

theorem stripZeros_exact (turns : Nat) (n : UInt64)
    : (stripZeros turns n).1.toNat = (stripZerosExact turns n.toNat).1
      ∧ (stripZeros turns n).2 = (stripZerosExact turns n.toNat).2 := by
  induction turns generalizing n with
  | zero => exact ⟨rfl, rfl⟩
  | succ turns ih =>
    have tens : n % 10 = 0 ↔ n.toNat % 10 = 0 := by
      rw [← UInt64.toNat_inj, UInt64.toNat_mod]
      rfl
    have divided : (n / 10).toNat = n.toNat / 10 := UInt64.toNat_div n 10
    rw [stripZeros, stripZerosExact]
    by_cases zero : n % 10 = 0
    · obtain ⟨rest, count⟩ := ih (n / 10)
      rw [if_pos zero, if_pos (tens.mp zero), ← divided]
      exact ⟨rest, congrArg (· + 1) count⟩
    · rw [if_neg zero, if_neg (mt tens.mpr zero)]
      exact ⟨rfl, rfl⟩

theorem scaleTens_exact (e : Nat) {n : UInt64} (fits : n.toNat * 10 ^ e < 2 ^ 64)
    : (scaleTens e n).toNat = n.toNat * 10 ^ e
      ∧ scaleTensChecked e n.toNat = some (n.toNat * 10 ^ e) := by
  induction e generalizing n with
  | zero => exact ⟨(Nat.mul_one _).symm, congrArg some (Nat.mul_one _).symm⟩
  | succ e ih =>
    have more : n.toNat * 10 ^ (e + 1) = n.toNat * 10 * 10 ^ e := by
      rw [Nat.pow_succ, Nat.mul_comm (10 ^ e), Nat.mul_assoc]
    have positive : 0 < 10 ^ e := Nat.pow_pos (by decide)
    have next : n.toNat * 10 < 2 ^ 64 :=
      Nat.lt_of_le_of_lt (Nat.le_mul_of_pos_right _ positive) (more ▸ fits)
    have word : (n * 10).toNat = n.toNat * 10 := by
      rw [UInt64.toNat_mul]
      exact Nat.mod_eq_of_lt next
    rw [more] at fits ⊢
    rw [scaleTens, scaleTensChecked, fit64, if_pos next]
    rw [← word] at fits ⊢
    exact ih fits

-- Packing

/-- The word of a stripped number. -/
def packed (rest e : Nat) : Nat :=
  if e < 9 then 1 + (rest / 10 * 9 + rest % 10 - 1) * 10 + e else 1 + (rest - 1) * 10 + 9

def maxAmount : Nat := 2100000000000000

theorem Stripped.bounds {turns n rest e : Nat} (stripped : Stripped turns n rest e)
    (positive : n ≠ 0) : 0 < rest ∧ rest ≤ n := by
  have whole := stripped.whole
  constructor
  · refine Nat.pos_of_ne_zero fun zero => positive ?_
    rw [whole, zero, Nat.zero_mul]
  · rw [whole]
    exact Nat.le_mul_of_pos_right _ (Nat.pow_pos (by decide))

theorem compressAmount_packed {n : UInt64} {rest e : Nat} (nonzero : n ≠ 0)
    (small : n.toNat ≤ maxAmount) (ran : stripZerosExact 9 n.toNat = (rest, e))
    (stripped : Stripped 9 n.toNat rest e)
    : (coinsMathCompressAmount n).toNat = packed rest e
      ∧ compressAmountChecked n.toNat = some (packed rest e) := by
  have positive : n.toNat ≠ 0 := fun zero => nonzero (UInt64.toNat_inj.mp zero)
  obtain ⟨notZero, below⟩ := stripped.bounds positive
  have digit := stripped.ended
  obtain ⟨word, count⟩ := stripZeros_exact 9 n
  rw [ran] at word count
  dsimp only at word count
  simp only [maxAmount] at small
  rw [coinsMathCompressAmount, if_neg nonzero, compressAmountChecked, if_neg positive, ran, packed]
  generalize stripZeros 9 n = run at word count ⊢
  obtain ⟨left, turns⟩ := run
  dsimp only at word count ⊢
  subst count
  split
  · rename_i less
    have last := digit less
    constructor
    · simp only [UInt64.toNat_add, UInt64.toNat_mul, UInt64.toNat_sub, UInt64.toNat_div,
        UInt64.toNat_mod, UInt64.toNat_ofNat', UInt64.reduceToNat, word]
      omega
    · simp only [Option.bind_eq_bind]
      rw [fit64_of_lt (by omega), Option.bind_some, fit64_of_lt (by omega), Option.bind_some,
        less64_of_ne (by omega), Option.bind_some, fit64_of_lt (by omega), Option.bind_some,
        fit64_of_lt (by omega), Option.bind_some, fit64_of_lt (by omega)]
  · constructor
    · simp only [UInt64.toNat_add, UInt64.toNat_mul, UInt64.toNat_sub, UInt64.reduceToNat, word]
      omega
    · simp only [Option.bind_eq_bind]
      rw [less64_of_ne (by omega), Option.bind_some, fit64_of_lt (by omega), Option.bind_some,
        fit64_of_lt (by omega), Option.bind_some, fit64_of_lt (by omega)]

theorem decompressAmount_packed {x : UInt64} {rest e n : Nat} (word : x.toNat = packed rest e)
    (stripped : Stripped 9 n rest e) (positive : n ≠ 0) (small : n ≤ maxAmount)
    : (coinsMathDecompressAmount x).toNat = n ∧ decompressAmountChecked x.toNat = some n := by
  obtain ⟨notZero, below⟩ := stripped.bounds positive
  have digit := stripped.ended
  have few := stripped.few
  have fits : rest * 10 ^ e < 2 ^ 64 := by
    rw [← stripped.whole]
    exact Nat.lt_of_le_of_lt small (by decide)
  have nonzero : x ≠ 0 := by
    rintro rfl
    rw [packed] at word
    split at word
    · simp at word
      omega
    · simp at word
  have some : x.toNat ≠ 0 := fun zero => nonzero (UInt64.toNat_inj.mp zero)
  simp only [maxAmount] at small
  rw [packed] at word
  have bound := x.toNat_lt
  have before : (x - 1).toNat = x.toNat - 1 := by
    simp only [UInt64.toNat_sub, UInt64.reduceToNat]
    omega
  have exponent : ((x - 1) % 10).toNat = e ∧ (x.toNat - 1) % 10 = e := by
    simp only [UInt64.toNat_mod, before, UInt64.reduceToNat]
    split at word <;> omega
  have size : (x - 1) % 10 < 9 ↔ e < 9 := by
    rw [UInt64.lt_iff_toNat_lt, exponent.1]
    rfl
  rw [coinsMathDecompressAmount, if_neg nonzero, decompressAmountChecked, if_neg some,
    less64_of_ne some]
  dsimp only [Option.bind_eq_bind, Option.bind_some]
  rw [exponent.1, exponent.2]
  by_cases less : e < 9
  · have last := digit less
    rw [if_pos less] at word
    have number : ((x - 1) / 10 / 9 * 10 + ((x - 1) / 10 % 9 + 1)).toNat = rest := by
      simp only [UInt64.toNat_add, UInt64.toNat_mul, UInt64.toNat_div, UInt64.toNat_mod, before,
        UInt64.reduceToNat]
      omega
    have sum : (x.toNat - 1) / 10 / 9 * 10 + ((x.toNat - 1) / 10 % 9 + 1) = rest := by omega
    rw [if_pos (size.mpr less), if_pos less, fit64_of_lt (by omega), Option.bind_some, sum,
      fit64_of_lt (by omega), Option.bind_some, stripped.whole]
    rw [← number] at fits ⊢
    exact scaleTens_exact e fits
  · rw [if_neg less] at word
    have number : ((x - 1) / 10 + 1).toNat = rest := by
      simp only [UInt64.toNat_add, UInt64.toNat_div, before, UInt64.reduceToNat]
      omega
    have sum : (x.toNat - 1) / 10 + 1 = rest := by omega
    rw [if_neg (mt size.mp less), if_neg less, sum, fit64_of_lt (by omega), Option.bind_some,
      stripped.whole]
    rw [← number] at fits ⊢
    exact scaleTens_exact e fits

-- Compression is lossless

/-- The word of an amount and back, with no operation that wraps. -/
structure Lossless (n : UInt64) : Prop where
  back : coinsMathDecompressAmount (coinsMathCompressAmount n) = n
  compresses : compressAmountChecked n.toNat = some (coinsMathCompressAmount n).toNat
  expands : decompressAmountChecked (coinsMathCompressAmount n).toNat = some n.toNat

theorem lossless_of_le {n : UInt64} (small : n.toNat ≤ maxAmount) : Lossless n := by
  by_cases zero : n = 0
  · rw [zero]
    exact ⟨rfl, rfl, rfl⟩
  · have positive : n.toNat ≠ 0 := fun none => zero (UInt64.toNat_inj.mp none)
    have stripped := stripZerosExact_stripped 9 n.toNat
    obtain ⟨word, checked⟩ := compressAmount_packed zero small rfl stripped
    obtain ⟨back, expanded⟩ := decompressAmount_packed word stripped positive small
    exact {
      back := UInt64.toNat_inj.mp back
      compresses := word ▸ checked
      expands := expanded }

/-- Amounts up to the largest are compressed without loss, without wrapping and to different
words. -/
theorem compressAmount_lossless
    : (∀ n : UInt64, n.toNat ≤ maxAmount → Lossless n)
      ∧ Set.InjOn coinsMathCompressAmount { n | n.toNat ≤ maxAmount } := by
  refine ⟨fun n small => lossless_of_le small, ?_⟩
  intro a aSmall b bSmall same
  have back := (lossless_of_le bSmall).back
  rw [← same, (lossless_of_le aSmall).back] at back
  exact back

/-- The largest amount has eight zeros of a coin and six before them. -/
theorem compressAmount_lossless_max
    : (2100000000000000 : UInt64).toNat ≤ maxAmount
      ∧ coinsMathCompressAmount 2100000000000000 = 21000000
      ∧ coinsMathDecompressAmount 21000000 = 2100000000000000 := by
  have lossless := compressAmount_lossless.1 2100000000000000 (by decide)
  have word : coinsMathCompressAmount 2100000000000000 = 21000000 := by decide
  refine ⟨by decide, word, ?_⟩
  rw [← word]
  exact lossless.back

end Z23.Consensus
