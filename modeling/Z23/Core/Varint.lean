import Z23.Core.Serialize

/-!
Variable-length integers in base 128, most significant digit first. Every byte but the last has its
high bit set and stands for one more than its digit, so that each number has one encoding.
-/

namespace Z23

open Z23.Lib.Bytes

/-- The loop of `stream_write_varint`: digits from the least significant one, each put in front of
those already there. -/
def varintDigits : Nat → UInt64 → List UInt8 → List UInt8
  | 0, _, digits => digits
  | turns + 1, n, digits =>
    let digit := (n &&& 0x7f).toUInt8 ||| (if digits.isEmpty then 0x00 else 0x80)
    if n ≤ 0x7f then digit :: digits
    else varintDigits turns ((n >>> 7) - 1) (digit :: digits)

/-- The buffer of the source holds ten bytes. -/
def streamWriteVarint (n : UInt64) : List UInt8 := varintDigits 10 n []

def readVarintFrom : UInt64 → Reader UInt64
  | _, [] => none
  | n, ch :: rest =>
    let n := (n <<< 7) ||| (ch &&& 0x7f).toUInt64
    if ch &&& 0x80 ≠ 0 then readVarintFrom (n + 1) rest else some (n, rest)

def streamReadVarint : Reader UInt64 := readVarintFrom 0

-- Digits

/-- The byte of a digit, with or without the mark that another byte follows. -/
def varintByte (n : UInt64) (last : Bool) : UInt8 :=
  (n &&& 0x7f).toUInt8 ||| (if last then 0x00 else 0x80)

theorem toNat_high (n : UInt64) : (n >>> 7).toNat = n.toNat / 128 := by
  rw [UInt64.toNat_shiftRight, Nat.shiftRight_eq_div_pow]
  rfl

theorem toNat_digit (n : UInt64) : (n &&& 0x7f).toNat = n.toNat % 128 := by
  rw [UInt64.toNat_and]
  exact Nat.and_two_pow_sub_one_eq_mod n.toNat 7

theorem toNat_varintByte (n : UInt64) (last : Bool)
    : (varintByte n last).toNat = n.toNat % 128 + if last then 0 else 128 := by
  have small : n.toNat % 128 < 2 ^ 7 := Nat.mod_lt _ (by decide)
  have digit : (n &&& 0x7f).toUInt8.toNat = n.toNat % 128 := by
    rw [UInt64.toNat_toUInt8, toNat_digit]
    omega
  rw [varintByte, UInt8.toNat_or, digit]
  cases last with
  | true => exact Nat.or_zero _
  | false =>
    have sum := Nat.two_pow_add_eq_or_of_lt small 1
    rw [Nat.or_comm, Nat.mul_one] at sum
    exact sum.symm.trans (Nat.add_comm _ _)

theorem varintByte_marked (n : UInt64) (last : Bool)
    : varintByte n last &&& 0x80 ≠ 0 ↔ last = false := by
  have marks : ∀ byte : UInt8, byte &&& 0x80 ≠ 0 ↔ 128 ≤ byte.toNat := by
    rintro ⟨⟨byte⟩⟩
    revert byte
    decide +kernel
  have value := toNat_varintByte n last
  rw [marks, value]
  cases last with
  | true => simp; omega
  | false => simp

theorem shift_varintByte (n : UInt64) (last : Bool)
    : ((n >>> 7) <<< 7) ||| (varintByte n last &&& 0x7f).toUInt64 = n := by
  have digit : (varintByte n last &&& 0x7f).toUInt64.toNat = n.toNat % 128 := by
    rw [UInt8.toNat_toUInt64, UInt8.toNat_and, toNat_varintByte]
    refine (Nat.and_two_pow_sub_one_eq_mod _ 7).trans ?_
    cases last with
    | true => simp
    | false => simp
  have high : ((n >>> 7) <<< 7).toNat = n.toNat / 128 * 128 := by
    have bound := n.toNat_lt
    simp only [UInt64.toNat_shiftLeft, toNat_high, UInt64.reduceToNat, Nat.shiftLeft_eq,
      Nat.reduceMod, Nat.reducePow]
    omega
  apply UInt64.toNat_inj.mp
  rw [UInt64.toNat_or, digit, high]
  have sum := Nat.two_pow_add_eq_or_of_lt (Nat.mod_lt n.toNat (by decide : 0 < 2 ^ 7))
    (n.toNat / 128)
  rw [Nat.mul_comm] at sum
  rw [← sum]
  omega

-- The round trip

theorem readVarintFrom_front (n : UInt64) (digits rest : List UInt8)
    : readVarintFrom (n >>> 7) (varintByte n digits.isEmpty :: digits ++ rest)
      = if digits.isEmpty then some (n, rest) else readVarintFrom (n + 1) (digits ++ rest) := by
  rw [List.cons_append, readVarintFrom]
  simp only [shift_varintByte, varintByte_marked]
  cases digits with
  | nil => rfl
  | cons digit digits => rfl

theorem high_of_small {n : UInt64} (small : n ≤ 0x7f) : n >>> 7 = 0 := by
  rw [UInt64.le_iff_toNat_le] at small
  apply UInt64.toNat_inj.mp
  rw [toNat_high]
  exact Nat.div_eq_of_lt (Nat.lt_succ_of_le small)

theorem readVarintFrom_digits (turns : Nat) {n : UInt64} (enough : n.toNat < 128 ^ (turns + 1))
    (digits rest : List UInt8)
    : readVarintFrom 0 (varintDigits (turns + 1) n digits ++ rest)
      = if digits.isEmpty then some (n, rest) else readVarintFrom (n + 1) (digits ++ rest) := by
  induction turns generalizing n digits with
  | zero =>
    have small : n ≤ 0x7f := by
      rw [UInt64.le_iff_toNat_le]
      exact Nat.le_of_lt_succ enough
    rw [varintDigits, if_pos small, ← high_of_small small]
    exact readVarintFrom_front n digits rest
  | succ turns ih =>
    rw [varintDigits]
    split
    · rename_i small
      rw [← high_of_small small]
      exact readVarintFrom_front n digits rest
    · rename_i large
      have above : 0x7f < n.toNat := by
        rw [UInt64.le_iff_toNat_le] at large
        exact Nat.lt_of_not_le large
      have high : ((n >>> 7) - 1).toNat = n.toNat / 128 - 1 := by
        have bound := n.toNat_lt
        simp only [UInt64.toNat_sub, toNat_high, UInt64.reduceToNat]
        omega
      have fewer : ((n >>> 7) - 1).toNat < 128 ^ (turns + 1) := by
        rw [Nat.pow_succ] at enough
        omega
      have back := UInt64.sub_add_cancel (n >>> 7) 1
      rw [ih fewer, back]
      exact readVarintFrom_front n digits rest

theorem streamReadVarint_write : ReadsBack streamReadVarint streamWriteVarint := by
  intro n rest
  have bound := n.toNat_lt
  exact readVarintFrom_digits 9 (by omega) [] rest

theorem length_varintDigits (turns : Nat) (n : UInt64) (digits : List UInt8)
    : 0 < (varintDigits (turns + 1) n digits).length := by
  induction turns generalizing n digits with
  | zero =>
    rw [varintDigits]
    split
    · exact Nat.succ_pos _
    · exact Nat.succ_pos _
  | succ turns ih =>
    rw [varintDigits]
    split
    · exact Nat.succ_pos _
    · exact ih _ _

theorem length_streamWriteVarint (n : UInt64) : 0 < (streamWriteVarint n).length :=
  length_varintDigits 9 n []

end Z23
