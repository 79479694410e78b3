import Z23.Lib.Limbs
import Z23.Primitives

/-!
The 256-bit integers of the node: eight words of 32 bits, least significant word first. Every
operation is exact modulo 2^256, and the division is exact.
-/

namespace Z23

open Z23.Lib.Limbs

structure ArithUint256 where
  pn : List (BitVec 32)
  size_pn : pn.length = 8
deriving DecidableEq

namespace ArithUint256

-- Operations

def toNat (a : ArithUint256) : Nat := value a.pn

def setZero : ArithUint256 := ⟨List.replicate 8 0, rfl⟩

def setU64 (v : Nat) : ArithUint256 :=
  ⟨[BitVec.ofNat 32 v, BitVec.ofNat 32 (v / 2 ^ 32), 0, 0, 0, 0, 0, 0], rfl⟩

/-- Reads the words of a hash, least significant first. -/
def uint256ToArith (a : Uint256) : ArithUint256 :=
  ⟨(List.range 8).map fun x => BitVec.ofNat 32 (Lib.Bytes.natLE ((a.data.drop (4 * x)).take 4)),
    by rw [List.length_map, List.length_range]⟩

def isZero (a : ArithUint256) : Bool := a.pn.all (· == 0)

/-- Negative, zero or positive as the first number is below, equal to or above the second. -/
def compare (a b : ArithUint256) : Int := compareLoop a.pn.reverse b.pn.reverse

def complement (a : ArithUint256) : ArithUint256 :=
  ⟨Lib.Limbs.complement a.pn, by rw [Lib.Limbs.complement, List.length_map, a.size_pn]⟩

def negate (a : ArithUint256) : ArithUint256 :=
  ⟨increment a.complement.pn, by rw [increment_length, a.complement.size_pn]⟩

def add (a b : ArithUint256) : ArithUint256 :=
  ⟨addLoop 0 a.pn b.pn, by rw [addLoop_length 0 (a.size_pn.trans b.size_pn.symm), a.size_pn]⟩

def sub (a b : ArithUint256) : ArithUint256 := a.add b.negate

def mul (a b : ArithUint256) : ArithUint256 :=
  ⟨mulLoop setZero.pn a.pn b.pn, by rw [mulLoop_length, setZero.size_pn]⟩

def shl (a : ArithUint256) (shift : Nat) : ArithUint256 :=
  ⟨Lib.Limbs.shl a.pn shift, by rw [shl_length, a.size_pn]⟩

def shr (a : ArithUint256) (shift : Nat) : ArithUint256 :=
  ⟨Lib.Limbs.shr a.pn shift, by rw [shr_length, a.size_pn]⟩

def bits (a : ArithUint256) : Nat := bitsLoop a.pn.reverse

/-- Sets the bit of the quotient for a shift. -/
def setBit (a : ArithUint256) (shift : Nat) : ArithUint256 :=
  ⟨Lib.Limbs.setBit a.pn shift, by rw [setBit_length, a.size_pn]⟩

/-- The loop of the division; a turn is left for every shift down to zero. -/
def divLoop : Nat → ArithUint256 → ArithUint256 → ArithUint256 → ArithUint256
  | 0, _, _, r => r
  | shift + 1, num, div, r =>
    if 0 ≤ num.compare div then divLoop shift (num.sub div) (div.shr 1) (r.setBit shift)
    else divLoop shift num (div.shr 1) r

def div (a b : ArithUint256) : ArithUint256 :=
  if b.bits = 0 then setZero
  else if a.bits < b.bits then setZero
  else divLoop (a.bits - b.bits + 1) a (b.shl (a.bits - b.bits)) setZero

-- Values

theorem toNat_lt (a : ArithUint256) : a.toNat < 2 ^ 256 := by
  have bound := value_lt a.pn
  rwa [a.size_pn] at bound

theorem toNat_setZero : setZero.toNat = 0 := value_replicate_zero 8

theorem toNat_setU64 {v : Nat} (small : v < 2 ^ 64) : (setU64 v).toNat = v := by
  have high : v / 2 ^ 32 < 2 ^ 32 := Nat.div_lt_of_lt_mul small
  have split := Nat.mod_add_div v (2 ^ 32)
  unfold toNat setU64
  simp only [value, BitVec.toNat_ofNat, Nat.mod_eq_of_lt high]
  exact split

theorem isZero_iff (a : ArithUint256) : a.isZero = true ↔ a.toNat = 0 := by
  unfold isZero toNat
  induction a.pn with
  | nil => simp [value]
  | cons x xs ih =>
    have word : x = 0 ↔ x.toNat = 0 := BitVec.toNat_inj.symm
    rw [List.all_cons, Bool.and_eq_true, beq_iff_eq, ih, value, word, Nat.add_eq_zero_iff]
    exact and_congr Iff.rfl (by simp)

theorem compare_nonneg_iff (a b : ArithUint256) : 0 ≤ a.compare b ↔ b.toNat ≤ a.toNat := by
  have same : a.pn.reverse.length = b.pn.reverse.length := by
    rw [List.length_reverse, List.length_reverse, a.size_pn, b.size_pn]
  rw [compare, compareLoop_nonneg_iff same, valueHigh_reverse, valueHigh_reverse,
    List.reverse_reverse, List.reverse_reverse]
  rfl

theorem compare_pos_iff (a b : ArithUint256) : 0 < a.compare b ↔ b.toNat < a.toNat := by
  have swapped : b.compare a = -a.compare b := compareLoop_swap _ _
  have other := compare_nonneg_iff b a
  rw [swapped] at other
  omega

theorem toNat_complement (a : ArithUint256) : a.complement.toNat = 2 ^ 256 - 1 - a.toNat := by
  have whole := value_complement a.pn
  rwa [a.size_pn] at whole

theorem toNat_negate (a : ArithUint256) : a.negate.toNat = (2 ^ 256 - a.toNat) % 2 ^ 256 := by
  have bound := a.toNat_lt
  have next := value_increment (by decide) a.complement.pn
  have opposite := a.toNat_complement
  rw [a.complement.size_pn] at next
  change value (increment a.complement.pn) = _
  rw [next]
  change (a.complement.toNat + 1) % 2 ^ 256 = _
  rw [opposite]
  congr 1
  omega

theorem toNat_add (a b : ArithUint256) : (a.add b).toNat = (a.toNat + b.toNat) % 2 ^ 256 := by
  have whole := value_addLoop 0 (a.size_pn.trans b.size_pn.symm)
  rw [a.size_pn, Nat.zero_add] at whole
  exact whole

theorem toNat_sub (a b : ArithUint256)
    : (a.sub b).toNat = (a.toNat + (2 ^ 256 - b.toNat)) % 2 ^ 256 := by
  rw [sub, toNat_add, toNat_negate, Nat.add_mod_mod]

theorem toNat_sub_of_le {a b : ArithUint256} (below : b.toNat ≤ a.toNat)
    : (a.sub b).toNat = a.toNat - b.toNat := by
  have bound := a.toNat_lt
  have other := b.toNat_lt
  have moved : a.toNat + (2 ^ 256 - b.toNat) = a.toNat - b.toNat + 2 ^ 256 := by omega
  rw [toNat_sub, moved, Nat.add_mod_right, Nat.mod_eq_of_lt (by omega)]

theorem toNat_mul (a b : ArithUint256) : (a.mul b).toNat = a.toNat * b.toNat % 2 ^ 256 := by
  have covers : setZero.pn.length ≤ b.pn.length := by rw [b.size_pn, setZero.size_pn]
  have whole := value_mulLoop setZero.pn a.pn covers
  rw [setZero.size_pn] at whole
  change value (mulLoop setZero.pn a.pn b.pn) = _
  rw [whole]
  change (setZero.toNat + a.toNat * b.toNat) % 2 ^ 256 = _
  rw [toNat_setZero, Nat.zero_add]

theorem toNat_shl (a : ArithUint256) (shift : Nat)
    : (a.shl shift).toNat = a.toNat * 2 ^ shift % 2 ^ 256 := by
  have whole := value_shl (by decide) a.pn shift
  rwa [a.size_pn] at whole

theorem toNat_shr (a : ArithUint256) (shift : Nat)
    : (a.shr shift).toNat = a.toNat / 2 ^ shift := value_shr (by decide) a.pn shift

theorem toNat_setBit {a : ArithUint256} {shift : Nat} (inside : shift < 256)
    (clear : 2 ^ (shift + 1) ∣ a.toNat) : (a.setBit shift).toNat = a.toNat + 2 ^ shift :=
  value_setBit (by rw [a.size_pn]; exact inside) clear

theorem bits_bounds (a : ArithUint256)
    : a.toNat < 2 ^ a.bits ∧ (a.bits ≠ 0 → 2 ^ (a.bits - 1) ≤ a.toNat) ∧ a.bits ≤ 256 := by
  have bounds := bitsLoop_bounds a.pn.reverse
  rw [valueHigh_reverse, List.reverse_reverse, List.length_reverse, a.size_pn] at bounds
  exact bounds

-- Division

/--
With some shifts left, the divisor stands at the highest of them, the rest of the number is below
the next one, and the quotient has only higher bits.
-/
structure Dividing (divisor shifts : Nat) (num div r : ArithUint256) : Prop where
  aligned : ∀ shift, shifts = shift + 1 → div.toNat = divisor * 2 ^ shift
  rest : num.toNat < divisor * 2 ^ shifts
  clear : 2 ^ shifts ∣ r.toNat
  few : shifts ≤ 256

theorem Dividing.shifted {divisor shift : Nat} {num div r num' r' : ArithUint256}
    (dividing : Dividing divisor (shift + 1) num div r) (rest : num'.toNat < divisor * 2 ^ shift)
    (clear : 2 ^ shift ∣ r'.toNat) : Dividing divisor shift num' (div.shr 1) r' where
  aligned := by
    intro next same
    rw [toNat_shr, dividing.aligned shift rfl, same, Nat.pow_one, Nat.pow_succ, ← Nat.mul_assoc,
      Nat.mul_div_cancel _ (by decide)]
  rest := rest
  clear := clear
  few := Nat.le_of_succ_le dividing.few

theorem divLoop_toNat {divisor shifts : Nat} {num div r : ArithUint256}
    (dividing : Dividing divisor shifts num div r)
    : (divLoop shifts num div r).toNat = r.toNat + num.toNat / divisor := by
  induction shifts generalizing num div r with
  | zero =>
    have small := dividing.rest
    rw [Nat.pow_zero, Nat.mul_one] at small
    rw [divLoop, Nat.div_eq_of_lt small, Nat.add_zero]
  | succ shift ih =>
    have aligned := dividing.aligned shift rfl
    have rest := dividing.rest
    have lower : 2 ^ shift ∣ 2 ^ (shift + 1) := Nat.pow_dvd_pow 2 (Nat.le_succ shift)
    rw [Nat.pow_succ, ← Nat.mul_assoc, ← aligned] at rest
    rw [divLoop]
    by_cases fits : div.toNat ≤ num.toNat
    · have left := toNat_sub_of_le fits
      have set := toNat_setBit (Nat.lt_of_succ_le dividing.few) dividing.clear
      have positive : 0 < divisor := by
        by_contra zero
        rw [Nat.eq_zero_of_not_pos zero, Nat.zero_mul] at aligned
        omega
      have shrunk : (num.sub div).toNat < divisor * 2 ^ shift := by
        rw [left, ← aligned]
        omega
      have marked : 2 ^ shift ∣ (r.setBit shift).toNat := by
        rw [set]
        exact Nat.dvd_add (lower.trans dividing.clear) (Nat.dvd_refl _)
      have split : num.toNat = num.toNat - div.toNat + divisor * 2 ^ shift := by
        rw [← aligned]
        omega
      rw [if_pos ((compare_nonneg_iff num div).mpr fits), ih (dividing.shifted shrunk marked),
        set, left, split, Nat.add_mul_div_left _ _ positive, ← aligned, Nat.add_sub_cancel]
      omega
    · have small : num.toNat < divisor * 2 ^ shift := by
        rw [← aligned]
        omega
      rw [if_neg (mt (compare_nonneg_iff num div).mp fits),
        ih (dividing.shifted small (lower.trans dividing.clear))]

theorem toNat_div (a b : ArithUint256) : (a.div b).toNat = a.toNat / b.toNat := by
  obtain ⟨numBelow, -, numBits⟩ := a.bits_bounds
  obtain ⟨divBelow, divAbove, -⟩ := b.bits_bounds
  unfold div
  by_cases zero : b.bits = 0
  · have none : b.toNat = 0 := by
      rw [zero] at divBelow
      omega
    rw [if_pos zero, toNat_setZero, none, Nat.div_zero]
  · have large := divAbove zero
    rw [if_neg zero]
    by_cases shorter : a.bits < b.bits
    · have below : a.toNat < b.toNat := by
        calc a.toNat < 2 ^ a.bits := numBelow
          _ ≤ 2 ^ (b.bits - 1) := Nat.pow_le_pow_right (by decide) (by omega)
          _ ≤ b.toNat := large
      rw [if_pos shorter, toNat_setZero, Nat.div_eq_of_lt below]
    · have fits : b.toNat * 2 ^ (a.bits - b.bits) < 2 ^ 256 := by
        calc b.toNat * 2 ^ (a.bits - b.bits)
            < 2 ^ b.bits * 2 ^ (a.bits - b.bits) :=
              Nat.mul_lt_mul_of_pos_right divBelow (Nat.two_pow_pos _)
          _ = 2 ^ a.bits := by
              rw [← Nat.pow_add]
              congr 1
              omega
          _ ≤ 2 ^ 256 := Nat.pow_le_pow_right (by decide) numBits
      have dividing
          : Dividing b.toNat (a.bits - b.bits + 1) a (b.shl (a.bits - b.bits)) setZero := by
        refine { aligned := ?_, rest := ?_, clear := ?_, few := ?_ }
        · intro shift same
          obtain rfl : a.bits - b.bits = shift := Nat.succ.inj same
          rw [toNat_shl, Nat.mod_eq_of_lt fits]
        · calc a.toNat < 2 ^ a.bits := numBelow
            _ = 2 ^ (b.bits - 1) * 2 ^ (a.bits - b.bits + 1) := by
                rw [← Nat.pow_add]
                congr 1
                omega
            _ ≤ b.toNat * 2 ^ (a.bits - b.bits + 1) := Nat.mul_le_mul_right _ large
        · rw [toNat_setZero]
          exact Nat.dvd_zero _
        · omega
      rw [if_neg shorter, divLoop_toNat dividing, toNat_setZero, Nat.zero_add]

end ArithUint256

end Z23
