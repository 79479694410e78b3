import Mathlib.Data.Nat.Bitwise
import Z23.Core.ArithUint256

/-!
The work that a block proves. A compact encoding gives the target, and the work is the number of
hashes that meeting it takes on average, computed without a number of more than 256 bits.
-/

namespace Z23.Consensus

open ArithUint256

-- Compact targets

structure SetCompact where
  target : ArithUint256
  negative : Bool
  overflow : Bool
deriving DecidableEq

/-- The mantissa that is left after a small size has shifted it. -/
def compactWord (compact : UInt32) : Nat :=
  let size := compact.toNat >>> 24
  let word := compact.toNat &&& 0x007fffff
  if size ≤ 3 then word >>> (8 * (3 - size)) else word

def arithUint256SetCompact (compact : UInt32) : SetCompact :=
  let size := compact.toNat >>> 24
  let word := compactWord compact
  { target := if size ≤ 3 then setU64 word else (setU64 word).shl (8 * (size - 3))
    negative := word ≠ 0 && (compact.toNat &&& 0x00800000) ≠ 0
    overflow := word ≠ 0 && (size > 34 || (word > 0xff && size > 33)
      || (word > 0xffff && size > 32)) }

/-- The work of a block with the target; an unusable target counts as no work. -/
def domainConsensusBlockProof (nBits : UInt32) : ArithUint256 :=
  let compact := arithUint256SetCompact nBits
  if compact.negative || compact.overflow || compact.target.isZero then setZero
  else
    let notTarget := compact.target.complement
    let targetPlusOne := compact.target.add (setU64 1)
    (notTarget.div targetPlusOne).add (setU64 1)

-- The integer of a compact encoding

/-- A size in bytes, a sign and a mantissa of 23 bits. -/
def compactMagnitude (compact : UInt32) : Nat :=
  let size := compact.toNat / 2 ^ 24
  let mantissa := compact.toNat % 2 ^ 23
  if size ≤ 3 then mantissa / 256 ^ (3 - size) else mantissa * 256 ^ (size - 3)

def compactValue (compact : UInt32) : Int :=
  if compact.toNat.testBit 23 then -(compactMagnitude compact : Int) else compactMagnitude compact

theorem pow_eight_mul (n : Nat) : 2 ^ (8 * n) = 256 ^ n := Nat.pow_mul 2 8 n

theorem compactWord_lt (compact : UInt32) : compactWord compact < 2 ^ 23 := by
  have low : compact.toNat &&& 0x007fffff < 2 ^ 23 :=
    Nat.lt_of_le_of_lt Nat.and_le_right (by decide)
  unfold compactWord
  simp only
  split
  · exact Nat.lt_of_le_of_lt (Nat.shiftRight_le _ _) low
  · exact low

theorem compactMagnitude_eq (compact : UInt32)
    : compactMagnitude compact
        = if compact.toNat >>> 24 ≤ 3 then compactWord compact
          else compactWord compact * 2 ^ (8 * (compact.toNat >>> 24 - 3)) := by
  have mantissa : compact.toNat &&& 0x007fffff = compact.toNat % 2 ^ 23 :=
    Nat.and_two_pow_sub_one_eq_mod compact.toNat 23
  unfold compactMagnitude compactWord
  simp only [Nat.shiftRight_eq_div_pow, mantissa]
  split
  · rw [pow_eight_mul]
  · rw [pow_eight_mul]

theorem signBit_iff (n : Nat) : n &&& 0x00800000 ≠ 0 ↔ n.testBit 23 = true := by
  have mask : n &&& 0x00800000 = (n.testBit 23).toNat * 2 ^ 23 := Nat.and_two_pow n 23
  rw [mask]
  cases n.testBit 23 with
  | false => simp
  | true => simp

theorem setCompact_negative (compact : UInt32)
    : (arithUint256SetCompact compact).negative = true ↔ compactValue compact < 0 := by
  have zero : compactMagnitude compact = 0 ↔ compactWord compact = 0 := by
    rw [compactMagnitude_eq]
    split
    · rfl
    · exact Nat.mul_eq_zero.trans (or_iff_left (Nat.two_pow_pos _).ne')
  unfold arithUint256SetCompact compactValue
  simp only [Bool.and_eq_true, decide_eq_true_eq, signBit_iff]
  rw [Ne, ← zero]
  split
  · rename_i signed
    rw [and_iff_left signed]
    omega
  · rename_i unsigned
    constructor
    · rintro ⟨-, signed⟩
      exact absurd signed unsigned
    · omega

theorem setCompact_overflow (compact : UInt32)
    : (arithUint256SetCompact compact).overflow = true ↔ 2 ^ 256 ≤ compactMagnitude compact := by
  have small := compactWord_lt compact
  have guards : (arithUint256SetCompact compact).overflow = true
      ↔ compactWord compact ≠ 0 ∧ (34 < compact.toNat >>> 24
        ∨ 0xff < compactWord compact ∧ 33 < compact.toNat >>> 24
        ∨ 0xffff < compactWord compact ∧ 32 < compact.toNat >>> 24) := by
    unfold arithUint256SetCompact
    simp only [Bool.and_eq_true, Bool.or_eq_true, decide_eq_true_eq, or_assoc, gt_iff_lt]
  rw [guards, compactMagnitude_eq]
  generalize compactWord compact = word at small ⊢
  generalize compact.toNat >>> 24 = size
  by_cases tiny : size ≤ 3
  · rw [if_pos tiny]
    omega
  · rw [if_neg tiny]
    by_cases at32 : size ≤ 32
    · have bound : word * 2 ^ (8 * (size - 3)) ≤ word * 2 ^ (8 * (32 - 3)) :=
        Nat.mul_le_mul_left _ (Nat.pow_le_pow_right (by decide) (by omega))
      omega
    · by_cases at33 : size = 33
      · rw [at33]
        omega
      · by_cases at34 : size = 34
        · rw [at34]
          omega
        · have large : word * 2 ^ (8 * (35 - 3)) ≤ word * 2 ^ (8 * (size - 3)) :=
            Nat.mul_le_mul_left _ (Nat.pow_le_pow_right (by decide) (by omega))
          by_cases zero : word = 0
          · rw [zero, Nat.zero_mul]
            omega
          · omega

theorem setCompact_target {compact : UInt32} (fits : compactMagnitude compact < 2 ^ 256)
    : (arithUint256SetCompact compact).target.toNat = compactMagnitude compact := by
  have word := toNat_setU64 (Nat.lt_trans (compactWord_lt compact) (show 2 ^ 23 < 2 ^ 64 by decide))
  rw [compactMagnitude_eq] at fits ⊢
  unfold arithUint256SetCompact
  simp only
  split
  · exact word
  · rename_i large
    rw [if_neg large] at fits
    rw [toNat_shl, word, Nat.mod_eq_of_lt fits]

-- The proof of a block

theorem complement_div_succ {target size : Nat} (below : target < size)
    : (size - 1 - target) / (target + 1) + 1 = size / (target + 1) := by
  have whole : size = size - 1 - target + (target + 1) := by omega
  rw [whole, Nat.add_div_right _ (Nat.succ_pos target), ← whole]

theorem compactMagnitude_succ_lt {compact : UInt32} (fits : compactMagnitude compact < 2 ^ 256)
    : compactMagnitude compact + 1 < 2 ^ 256 := by
  have small := compactWord_lt compact
  rw [compactMagnitude_eq] at fits ⊢
  split at fits
  · rename_i tiny
    rw [if_pos tiny]
    omega
  · rename_i large
    have even : 2 ∣ compactWord compact * 2 ^ (8 * (compact.toNat >>> 24 - 3)) :=
      Dvd.dvd.mul_left (dvd_pow_self 2 (by omega)) _
    rw [if_neg large]
    omega

/-- The operations are those of the integers modulo 2^256. -/
structure ExactArithmetic : Prop where
  add : ∀ a b : ArithUint256, (a.add b).toNat = (a.toNat + b.toNat) % 2 ^ 256
  sub : ∀ a b : ArithUint256, ((a.sub b).toNat : Int) = ((a.toNat : Int) - b.toNat) % 2 ^ 256
  mul : ∀ a b : ArithUint256, (a.mul b).toNat = a.toNat * b.toNat % 2 ^ 256
  shl : ∀ (a : ArithUint256) shift, (a.shl shift).toNat = a.toNat * 2 ^ shift % 2 ^ 256
  shr : ∀ (a : ArithUint256) shift, (a.shr shift).toNat = a.toNat / 2 ^ shift
  complement : ∀ a : ArithUint256, (a.complement.toNat : Int) = (-1 - (a.toNat : Int)) % 2 ^ 256
  div : ∀ a b : ArithUint256, b.toNat ≠ 0 → (a.div b).toNat = a.toNat / b.toNat

theorem exactArithmetic : ExactArithmetic where
  add := toNat_add
  sub := by
    intro a b
    have left := a.toNat_lt
    have right := b.toNat_lt
    rw [toNat_sub]
    omega
  mul := toNat_mul
  shl := toNat_shl
  shr := toNat_shr
  complement := by
    intro a
    have bound := a.toNat_lt
    rw [toNat_complement]
    omega
  div := by
    intro a b _
    exact toNat_div a b

theorem blockProof_usable {nBits : UInt32} (positive : 0 < compactValue nBits)
    (fits : compactValue nBits < 2 ^ 256)
    : ((domainConsensusBlockProof nBits).toNat : Int) = 2 ^ 256 / (compactValue nBits + 1) := by
  have magnitude : compactValue nBits = compactMagnitude nBits := by
    unfold compactValue at positive ⊢
    split at positive
    · omega
    · rename_i unsigned
      rw [if_neg unsigned]
  rw [magnitude] at positive fits ⊢
  have below : compactMagnitude nBits < 2 ^ 256 := by omega
  have target := setCompact_target below
  have room := compactMagnitude_succ_lt below
  have unsigned : (arithUint256SetCompact nBits).negative = false := by
    rw [Bool.eq_false_iff, Ne, setCompact_negative, magnitude]
    omega
  have inside : (arithUint256SetCompact nBits).overflow = false := by
    rw [Bool.eq_false_iff, Ne, setCompact_overflow]
    omega
  have nonzero : (arithUint256SetCompact nBits).target.isZero = false := by
    rw [Bool.eq_false_iff, Ne, isZero_iff, target]
    omega
  have one : (setU64 1).toNat = 1 := toNat_setU64 (by decide)
  have work
      : (2 ^ 256 - 1 - compactMagnitude nBits) / (compactMagnitude nBits + 1) + 1 < 2 ^ 256 := by
    rw [complement_div_succ below]
    exact Nat.div_lt_self (by decide) (by omega)
  unfold domainConsensusBlockProof
  simp only [unsigned, inside, nonzero, Bool.or_false, Bool.false_eq_true, if_false]
  rw [toNat_add, toNat_div, toNat_complement, toNat_add, target, one, Nat.mod_eq_of_lt room,
    Nat.mod_eq_of_lt work, complement_div_succ below, Int.natCast_ediv]
  rfl

theorem blockProof_unusable {nBits : UInt32}
    (unusable : ¬(0 < compactValue nBits ∧ compactValue nBits < 2 ^ 256))
    : (domainConsensusBlockProof nBits).toNat = 0 := by
  have rejected : ((arithUint256SetCompact nBits).negative
      || (arithUint256SetCompact nBits).overflow
      || (arithUint256SetCompact nBits).target.isZero) = true := by
    rw [Bool.or_eq_true, Bool.or_eq_true, setCompact_negative, setCompact_overflow, isZero_iff]
    by_cases signed : compactValue nBits < 0
    · exact .inl (.inl signed)
    · by_cases large : 2 ^ 256 ≤ compactMagnitude nBits
      · exact .inl (.inr large)
      · apply Or.inr
        rw [setCompact_target (Nat.lt_of_not_le large)]
        unfold compactValue at unusable signed
        split at unusable
        · rename_i sign
          rw [if_pos sign] at signed
          omega
        · omega
  unfold domainConsensusBlockProof
  simp only [rejected, if_true]
  exact toNat_setZero

/--
The proof of a block is the quotient of 2^256 by the successor of the target, over the integers,
and zero where the encoding is no positive target below 2^256.
-/
theorem blockProof_exact
    : ExactArithmetic
      ∧ ∀ nBits, ((domainConsensusBlockProof nBits).toNat : Int)
        = if 0 < compactValue nBits ∧ compactValue nBits < 2 ^ 256
          then 2 ^ 256 / (compactValue nBits + 1) else 0 := by
  refine ⟨exactArithmetic, ?_⟩
  intro nBits
  split
  · rename_i usable
    exact blockProof_usable usable.1 usable.2
  · rename_i unusable
    rw [blockProof_unusable unusable]
    rfl

end Z23.Consensus
