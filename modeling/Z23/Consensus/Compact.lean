import Mathlib.Tactic.Ring
import Z23.Consensus.BlockProof
import Z23.Lib.LeadingBits

/-!
The compact encoding of targets. Of a 256-bit integer the leading bytes are kept, at most three and
one less where the highest bit would be taken for a sign. Decoding gives the integer with its other
bytes cleared, so that the order survives and the encoding of the decoded integer is the same.
-/

namespace Z23.Consensus

open ArithUint256
open Z23.Lib.LeadingBits

-- The code

def arithUint256GetLow64 (a : ArithUint256) : Nat :=
  (a.pn.getD 0 0).toNat ||| ((a.pn.getD 1 0).toNat <<< 32)

/-- A failed assertion gives nothing. -/
def arithUint256GetCompact (a : ArithUint256) (negative : Bool) : Option UInt32 :=
  let size := (a.bits + 7) / 8
  let compact :=
    if size ≤ 3 then UInt32.ofNat (arithUint256GetLow64 a <<< (8 * (3 - size)))
    else UInt32.ofNat (arithUint256GetLow64 (a.shr (8 * (size - 3))))
  let signed := compact &&& 0x00800000 ≠ 0
  let size := if signed then size + 1 else size
  let compact := if signed then compact >>> 8 else compact
  if compact &&& ~~~0x007fffff ≠ 0 then none
  else if ¬ size < 256 then none
  else
    let compact := compact ||| (UInt32.ofNat size <<< 24)
    some (compact ||| (if negative && compact &&& 0x007fffff ≠ 0 then 0x00800000 else 0))

-- Leading bytes

/-- The first three bytes of a number taken to have so many bytes. -/
def topBytes (n size : Nat) : Nat :=
  if size ≤ 3 then n * 256 ^ (3 - size) else n / 256 ^ (size - 3)

theorem topBytes_div (n size : Nat) : topBytes n size / 256 = topBytes n (size + 1) := by
  rw [topBytes, topBytes]
  by_cases small : size + 1 ≤ 3
  · have power : 256 ^ (3 - size) = 256 ^ (3 - (size + 1)) * 256 := by
      rw [← Nat.pow_succ]
      congr 1
      omega
    rw [if_pos (by omega), if_pos small, power, ← Nat.mul_assoc, Nat.mul_div_cancel _ (by decide)]
  · rw [if_neg small]
    split
    · have three : size = 3 := by omega
      rw [three]
      simp
    · rw [Nat.div_div_eq_div_mul, ← Nat.pow_succ]
      congr 2
      omega

theorem topBytes_lt_iff {n size e : Nat} (large : 24 ≤ e + 8 * size)
    : topBytes n size < 2 ^ e ↔ n.size + 24 ≤ e + 8 * size := by
  have bytes : ∀ k, 256 ^ k = 2 ^ (8 * k) := fun k => (pow_eight_mul k).symm
  have bound : n.size + 24 ≤ e + 8 * size ↔ n < 2 ^ (e + 8 * size - 24) := by
    rw [← Nat.size_le]
    omega
  rw [bound, topBytes]
  split
  · rename_i small
    have power : 2 ^ (8 * (3 - size)) * 2 ^ (e + 8 * size - 24) = 2 ^ e := by
      rw [← Nat.pow_add]
      congr 1
      omega
    rw [bytes, ← power, Nat.mul_comm n]
    exact Nat.mul_lt_mul_left (Nat.two_pow_pos _)
  · rw [bytes, Nat.div_lt_iff_lt_mul (Nat.two_pow_pos _), ← Nat.pow_add]
    have same : e + 8 * (size - 3) = e + 8 * size - 24 := by omega
    rw [same]

/-- The word of a number: its size and its leading bytes. -/
def compactCode (n : Nat) : Nat :=
  if n = 0 then 0 else (n.size / 8 + 1) * 2 ^ 24 + topBytes n (n.size / 8 + 1)

theorem topBytes_lt (n : Nat) : topBytes n (n.size / 8 + 1) < 2 ^ 23 := by
  rw [topBytes_lt_iff (by omega)]
  omega

-- The encoding

theorem getLow64_eq (a : ArithUint256) : arithUint256GetLow64 a = a.toNat % 2 ^ 64 := by
  obtain ⟨pn, size⟩ := a
  obtain ⟨low, pn, rfl⟩ := List.exists_cons_of_length_eq_add_one size
  obtain ⟨high, pn, rfl⟩ :=
    List.exists_cons_of_length_eq_add_one (Nat.succ.inj size : pn.length = 6 + 1)
  have lowSmall := low.isLt
  have highSmall := high.isLt
  have sum := Nat.two_pow_add_eq_or_of_lt lowSmall high.toNat
  rw [Nat.or_comm, Nat.mul_comm] at sum
  rw [arithUint256GetLow64, List.getD_cons_zero, List.getD_cons_succ, List.getD_cons_zero,
    Nat.shiftLeft_eq, ← sum, ArithUint256.toNat]
  simp only [Lib.Limbs.value]
  omega

theorem bits_eq_size (a : ArithUint256) : a.bits = a.toNat.size := by
  obtain ⟨below, above, -⟩ := bits_bounds a
  apply Nat.le_antisymm
  · by_cases zero : a.bits = 0
    · rw [zero]
      exact Nat.zero_le _
    · have top := Nat.lt_size.mpr (above zero)
      omega
  · exact Nat.size_le.mpr below

theorem firstBytes_eq (a : ArithUint256)
    : (if (a.bits + 7) / 8 ≤ 3 then
          UInt32.ofNat (arithUint256GetLow64 a <<< (8 * (3 - (a.bits + 7) / 8)))
        else UInt32.ofNat (arithUint256GetLow64 (a.shr (8 * ((a.bits + 7) / 8 - 3))))).toNat
      = topBytes a.toNat ((a.bits + 7) / 8) := by
  have small : topBytes a.toNat ((a.bits + 7) / 8) < 2 ^ 24 := by
    rw [topBytes_lt_iff (by omega), ← bits_eq_size]
    omega
  rw [topBytes] at small ⊢
  split
  · rename_i few
    rw [if_pos few, ← pow_eight_mul] at small
    have low : a.toNat < 2 ^ 64 :=
      Nat.lt_of_le_of_lt (Nat.le_mul_of_pos_right _ (Nat.two_pow_pos _))
        (Nat.lt_trans small (by decide))
    rw [UInt32.toNat_ofNat', getLow64_eq, Nat.mod_eq_of_lt low, Nat.shiftLeft_eq, ← pow_eight_mul]
    exact Nat.mod_eq_of_lt (Nat.lt_trans small (by decide))
  · rename_i many
    rw [if_neg many, ← pow_eight_mul] at small
    rw [UInt32.toNat_ofNat', getLow64_eq, toNat_shr, ← pow_eight_mul,
      Nat.mod_eq_of_lt (Nat.lt_trans small (by decide))]
    exact Nat.mod_eq_of_lt (Nat.lt_trans small (by decide))

theorem signBit_of_lt {compact : UInt32} (small : compact.toNat < 2 ^ 24)
    : compact &&& 0x00800000 ≠ 0 ↔ 2 ^ 23 ≤ compact.toNat := by
  have bit : compact &&& 0x00800000 ≠ 0 ↔ compact.toNat &&& 0x00800000 ≠ 0 := by
    rw [Ne, ← UInt32.toNat_inj, UInt32.toNat_and]
    rfl
  rw [bit, signBit_iff, Nat.testBit_eq_decide_div_mod_eq, decide_eq_true_eq]
  omega

theorem masked_of_lt {compact : UInt32} (small : compact.toNat < 2 ^ 23)
    : compact &&& ~~~0x007fffff = 0 := by
  apply UInt32.toNat_inj.mp
  rw [UInt32.toNat_and]
  apply Nat.eq_of_testBit_eq
  intro i
  rw [Nat.testBit_and]
  change (_ && (2 ^ 23 * 511).testBit i) = (0 : Nat).testBit i
  rw [Nat.testBit_two_pow_mul, Nat.zero_testBit]
  by_cases high : 23 ≤ i
  · have clear : compact.toNat.testBit i = false :=
      Nat.testBit_lt_two_pow (Nat.lt_of_lt_of_le small (Nat.pow_le_pow_right (by decide) high))
    rw [clear, Bool.false_and]
  · rw [decide_eq_false high, Bool.false_and, Bool.and_false]

theorem toNat_or_size {mantissa : UInt32} (small : mantissa.toNat < 2 ^ 23) {size : Nat}
    (fits : size < 256)
    : (mantissa ||| (UInt32.ofNat size <<< 24)).toNat = size * 2 ^ 24 + mantissa.toNat := by
  have shifted : (UInt32.ofNat size <<< 24).toNat = size * 2 ^ 24 := by
    simp only [UInt32.toNat_shiftLeft, UInt32.toNat_ofNat', UInt32.reduceToNat, Nat.shiftLeft_eq,
      Nat.reduceMod, Nat.reducePow]
    omega
  have sum := Nat.two_pow_add_eq_or_of_lt
    (Nat.lt_trans small (by decide) : mantissa.toNat < 2 ^ 24) size
  rw [UInt32.toNat_or, shifted, Nat.or_comm, Nat.mul_comm, ← sum]

/-- Once the sign bit is clear, the assertions hold and the word is put together. -/
theorem getCompact_tail {compact : UInt32} {size : Nat} (small : compact.toNat < 2 ^ 23)
    (fits : size < 256)
    : (if compact &&& ~~~0x007fffff ≠ 0 then none
        else if ¬ size < 256 then none
        else
          let compact := compact ||| (UInt32.ofNat size <<< 24)
          some (compact ||| (if false && compact &&& 0x007fffff ≠ 0 then 0x00800000 else 0)))
      = some (UInt32.ofNat (size * 2 ^ 24 + compact.toNat)) := by
  rw [if_neg (not_not.mpr (masked_of_lt small)), if_neg (not_not.mpr fits)]
  have word := toNat_or_size small fits
  simp only [Bool.false_and, Bool.false_eq_true, if_false, UInt32.or_zero, Option.some.injEq]
  rw [← word, UInt32.ofNat_toNat]

theorem getCompact_eq (a : ArithUint256)
    : arithUint256GetCompact a false = some (UInt32.ofNat (compactCode a.toNat)) := by
  have bits := bits_eq_size a
  have few : a.bits ≤ 256 := (bits_bounds a).2.2
  have first := firstBytes_eq a
  rw [arithUint256GetCompact]
  dsimp only
  generalize (if (a.bits + 7) / 8 ≤ 3 then _ else _ : UInt32) = compact at first ⊢
  have below : compact.toNat < 2 ^ 24 := by
    rw [first, topBytes_lt_iff (by omega), ← bits]
    omega
  have sign := signBit_of_lt below
  have full : 2 ^ 23 ≤ compact.toNat → 8 * ((a.bits + 7) / 8) ≤ a.bits := by
    intro large
    rw [first] at large
    by_contra less
    have small : topBytes a.toNat ((a.bits + 7) / 8) < 2 ^ 23 := by
      rw [topBytes_lt_iff (by omega), ← bits]
      omega
    exact Nat.not_lt.mpr large small
  by_cases signed : compact &&& 0x00800000 ≠ 0
  · have exact := full (sign.mp signed)
    have size : (a.bits + 7) / 8 + 1 = a.toNat.size / 8 + 1 := by
      rw [← bits]
      omega
    have positive : a.toNat ≠ 0 := by
      intro zero
      rw [first, zero, topBytes] at sign
      simp at sign
      exact signed sign
    have shifted : (compact >>> 8).toNat = topBytes a.toNat (a.toNat.size / 8 + 1) := by
      rw [UInt32.toNat_shiftRight, first, Nat.shiftRight_eq_div_pow, ← size, ← topBytes_div]
      rfl
    rw [if_pos signed, if_pos signed, compactCode, if_neg positive, ← shifted, ← size]
    exact getCompact_tail (shifted ▸ topBytes_lt _) (by omega)
  · have small : compact.toNat < 2 ^ 23 := Nat.lt_of_not_le fun large => signed (sign.mpr large)
    have tail := @getCompact_tail compact ((a.bits + 7) / 8) small (by omega)
    rw [if_neg signed, if_neg signed]
    refine tail.trans ?_
    by_cases zero : a.toNat = 0
    · have none : a.bits = 0 := by
        rw [bits, zero]
        rfl
      rw [first, none, zero, compactCode]
      rfl
    · have positive : 0 < a.bits := by
        rw [bits]
        exact Nat.size_pos.mpr (Nat.pos_of_ne_zero zero)
      have less : ¬ 8 * ((a.bits + 7) / 8) ≤ a.bits := by
        intro exact
        rw [first, topBytes_lt_iff (by omega), ← bits] at small
        omega
      have size : (a.bits + 7) / 8 = a.toNat.size / 8 + 1 := by
        rw [← bits]
        omega
      rw [first, compactCode, if_neg zero, size]

-- Decoding the encoding

/-- The bits that are lost of a number of so many bits. -/
def lostBits (size : Nat) : Nat := 8 * (size / 8 - 2)

theorem lostBits_keeps : Keeps 16 lostBits where
  mono a b below := by
    rw [lostBits, lostBits]
    omega
  leaves size some := by
    rw [lostBits] at some ⊢
    omega

theorem compactCode_lt (a : ArithUint256) : compactCode a.toNat < 2 ^ 32 := by
  have few : a.bits ≤ 256 := (bits_bounds a).2.2
  have mantissa := topBytes_lt a.toNat
  rw [bits_eq_size] at few
  rw [compactCode]
  split
  · decide
  · omega

theorem compactMagnitude_code (a : ArithUint256)
    : compactMagnitude (UInt32.ofNat (compactCode a.toNat)) = cleared lostBits a.toNat := by
  have fits := compactCode_lt a
  have word : (UInt32.ofNat (compactCode a.toNat)).toNat = compactCode a.toNat := by
    rw [UInt32.toNat_ofNat', Nat.mod_eq_of_lt fits]
  rw [compactMagnitude, word]
  by_cases zero : a.toNat = 0
  · rw [zero, cleared_zero]
    rfl
  · have mantissa := topBytes_lt a.toNat
    have size : compactCode a.toNat / 2 ^ 24 = a.toNat.size / 8 + 1 := by
      rw [compactCode, if_neg zero]
      omega
    have low : compactCode a.toNat % 2 ^ 23 = topBytes a.toNat (a.toNat.size / 8 + 1) := by
      rw [compactCode, if_neg zero]
      omega
    rw [size, low, topBytes, cleared, lostBits, pow_eight_mul]
    split
    · rename_i few
      have none : a.toNat.size / 8 - 2 = 0 := by omega
      rw [none, Nat.mul_div_cancel _ (Nat.pow_pos (by decide)), Nat.pow_zero, Nat.div_one,
        Nat.mul_one]
    · have same : a.toNat.size / 8 + 1 - 3 = a.toNat.size / 8 - 2 := by omega
      rw [same]

theorem unsigned_code (a : ArithUint256) : (compactCode a.toNat).testBit 23 = false := by
  have mantissa := topBytes_lt a.toNat
  rw [Nat.testBit_eq_decide_div_mod_eq, decide_eq_false_iff_not, compactCode]
  split
  · decide
  · omega


/-- What is decoded of the encoding of an integer. -/
def decoded (a : ArithUint256) : ArithUint256 :=
  (arithUint256SetCompact (UInt32.ofNat (compactCode a.toNat))).target

theorem decoded_eq (a : ArithUint256) : (decoded a).toNat = cleared lostBits a.toNat := by
  have fits : compactMagnitude (UInt32.ofNat (compactCode a.toNat)) < 2 ^ 256 := by
    rw [compactMagnitude_code]
    exact Nat.lt_of_le_of_lt (cleared_le _ _) a.toNat_lt
  rw [decoded, setCompact_target fits, compactMagnitude_code]

theorem compactCode_cleared (n : Nat) : compactCode (cleared lostBits n) = compactCode n := by
  have size := size_cleared lostBits_keeps n
  have zero : cleared lostBits n = 0 ↔ n = 0 := by
    rw [← Nat.size_eq_zero, size, Nat.size_eq_zero]
  have bytes : topBytes (cleared lostBits n) (n.size / 8 + 1) = topBytes n (n.size / 8 + 1) := by
    rw [topBytes, topBytes, cleared, lostBits, pow_eight_mul]
    split
    · rename_i few
      have none : n.size / 8 - 2 = 0 := by omega
      rw [none, Nat.pow_zero, Nat.div_one, Nat.mul_one]
    · have same : n.size / 8 + 1 - 3 = n.size / 8 - 2 := by omega
      rw [same, Nat.mul_div_cancel _ (Nat.pow_pos (by decide))]
  rw [compactCode, compactCode, size, bytes]
  simp only [zero]

/-- A compact word that stands for an integer. -/
structure Faithful (a : ArithUint256) (compact : UInt32) : Prop where
  nonnegative : (arithUint256SetCompact compact).negative = false
  fits : (arithUint256SetCompact compact).overflow = false
  below : (arithUint256SetCompact compact).target.toNat ≤ a.toNat
  leading
    : ∃ lost, (arithUint256SetCompact compact).target.toNat
        = a.toNat / 256 ^ lost * 256 ^ lost
  close
    : a.toNat ≠ 0 →
        (a.toNat - (arithUint256SetCompact compact).target.toNat) * 2 ^ 15 < a.toNat
  again : arithUint256GetCompact (arithUint256SetCompact compact).target false = some compact

theorem faithful_code (a : ArithUint256) : Faithful a (UInt32.ofNat (compactCode a.toNat)) := by
  have fits := compactCode_lt a
  have word : (UInt32.ofNat (compactCode a.toNat)).toNat = compactCode a.toNat := by
    rw [UInt32.toNat_ofNat', Nat.mod_eq_of_lt fits]
  have magnitude := compactMagnitude_code a
  have value := decoded_eq a
  refine {
    nonnegative := ?_
    fits := ?_
    below := ?_
    leading := ⟨a.toNat.size / 8 - 2, ?_⟩
    close := ?_
    again := ?_ }
  · rw [← Bool.not_eq_true, setCompact_negative, compactValue, word, unsigned_code]
    simp
  · rw [← Bool.not_eq_true, setCompact_overflow, magnitude]
    exact Nat.not_le.mpr (Nat.lt_of_le_of_lt (cleared_le _ _) a.toNat_lt)
  · exact value ▸ cleared_le _ _
  · refine value.trans ?_
    rw [cleared, lostBits, pow_eight_mul]
  · intro positive
    exact value ▸ cleared_close lostBits_keeps positive
  · refine (getCompact_eq (decoded a)).trans ?_
    rw [value, compactCode_cleared]

/-- The scaled mantissa leaves 256 bits, with a size below three moved to the other side. -/
theorem overflow_iff (compact : UInt32)
    : 2 ^ 256 ≤ compactMagnitude compact
      ↔ 2 ^ 256 * 256 ^ 3 ≤ compact.toNat % 2 ^ 23 * 256 ^ (compact.toNat / 2 ^ 24) := by
  have mantissa : compact.toNat % 2 ^ 23 < 2 ^ 23 := Nat.mod_lt _ (by decide)
  rw [compactMagnitude]
  generalize compact.toNat % 2 ^ 23 = word at mantissa ⊢
  generalize compact.toNat / 2 ^ 24 = size
  split
  · rename_i few
    have quotient : word / 256 ^ (3 - size) ≤ word := Nat.div_le_self _ _
    have scaled : word * 256 ^ size ≤ word * 256 ^ 3 :=
      Nat.mul_le_mul_left _ (Nat.pow_le_pow_right (by decide) few)
    omega
  · rename_i many
    have power : 256 ^ size = 256 ^ (size - 3) * 256 ^ 3 := by
      rw [← Nat.pow_add, Nat.sub_add_cancel (by omega)]
    rw [power, ← Nat.mul_assoc]
    exact (Nat.mul_le_mul_right_iff (by decide)).symm

/-- Encoding and decoding keeps leading bytes and order, and every word overflows exactly where its
mantissa, scaled by its size less three, leaves 256 bits. -/
theorem compact_faithful
    : (∀ a, ∃ compact, arithUint256GetCompact a false = some compact ∧ Faithful a compact)
      ∧ (∀ a b first second, arithUint256GetCompact a false = some first →
          arithUint256GetCompact b false = some second → a.toNat ≤ b.toNat →
          (arithUint256SetCompact first).target.toNat
            ≤ (arithUint256SetCompact second).target.toNat)
      ∧ (∀ compact : UInt32, (arithUint256SetCompact compact).overflow = true
          ↔ 2 ^ 256 * 256 ^ 3 ≤ compact.toNat % 2 ^ 23 * 256 ^ (compact.toNat / 2 ^ 24)) := by
  refine ⟨fun a => ⟨_, getCompact_eq a, faithful_code a⟩, ?_, ?_⟩
  · intro a b first second encodedA encodedB below
    rw [getCompact_eq] at encodedA encodedB
    cases encodedA
    cases encodedB
    have mono := cleared_mono lostBits_keeps below
    rw [← decoded_eq, ← decoded_eq] at mono
    exact mono
  · intro compact
    rw [setCompact_overflow, overflow_iff]

/-- The highest bit of three bytes makes room for the sign, and the lowest byte is lost. -/
theorem compact_faithful_signed
    : arithUint256GetCompact (setU64 0x8012ff) false = some 0x04008012
      ∧ arithUint256GetCompact (setU64 0x801300) false = some 0x04008013
      ∧ (arithUint256SetCompact 0x04008012).target.toNat
        ≤ (arithUint256SetCompact 0x04008013).target.toNat := by
  have first : arithUint256GetCompact (setU64 0x8012ff) false = some 0x04008012 := by decide
  have second : arithUint256GetCompact (setU64 0x801300) false = some 0x04008013 := by decide
  exact ⟨first, second, compact_faithful.2.1 _ _ _ _ first second (by decide)⟩

end Z23.Consensus
