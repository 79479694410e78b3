import Mathlib.Algebra.Order.Ring.Int
import Mathlib.Tactic.IntervalCases
import Mathlib.Tactic.Ring

/-!
The multiply and divide unit of the RV64 emulator against the exact products, quotients and
remainders of the integers.
-/

namespace Z23.Rvemu

def sext32 (v : BitVec 64) : BitVec 64 := (v.setWidth 32).signExtend 64

/-- The high half of the unsigned product, from four products of half words. -/
def mulhu64 (a b : BitVec 64) : BitVec 64 :=
  let al := a &&& 0xffffffff
  let ah := a >>> 32
  let bl := b &&& 0xffffffff
  let bh := b >>> 32
  let lh := al * bh
  let hl := ah * bl
  let mid := ((al * bl) >>> 32) + (lh &&& 0xffffffff) + (hl &&& 0xffffffff)
  ah * bh + (lh >>> 32) + (hl >>> 32) + (mid >>> 32)

def mulhs64 (a b : BitVec 64) : BitVec 64 :=
  let r := mulhu64 a b
  let r := if a.toInt < 0 then r - b else r
  if b.toInt < 0 then r - a else r

def mulhsu64 (a b : BitVec 64) : BitVec 64 :=
  let r := mulhu64 a b
  if a.toInt < 0 then r - b else r

def int64Min : Int := -9223372036854775808

def divS64 (a b : BitVec 64) : BitVec 64 :=
  if b.toInt = 0 then BitVec.allOnes 64
  else if b.toInt = -1 ∧ a.toInt = int64Min then a
  else BitVec.ofInt 64 (a.toInt.tdiv b.toInt)

def remS64 (a b : BitVec 64) : BitVec 64 :=
  if b.toInt = 0 then a
  else if b.toInt = -1 then 0
  else BitVec.ofInt 64 (a.toInt.tmod b.toInt)

def divU64 (a b : BitVec 64) : BitVec 64 :=
  if b = 0 then BitVec.allOnes 64 else BitVec.ofNat 64 (a.toNat / b.toNat)

def remU64 (a b : BitVec 64) : BitVec 64 :=
  if b = 0 then a else BitVec.ofNat 64 (a.toNat % b.toNat)

def muldiv64 (f3 : Nat) (a b : BitVec 64) : BitVec 64 :=
  match f3 with
  | 0 => a * b
  | 1 => mulhs64 a b
  | 2 => mulhsu64 a b
  | 3 => mulhu64 a b
  | 4 => divS64 a b
  | 5 => divU64 a b
  | 6 => remS64 a b
  | _ => remU64 a b

/-- `none` stands for the refused word forms of the high products. -/
def aluMuldiv (f3 : Nat) (word : Bool) (a b : BitVec 64) : Option (BitVec 64) :=
  if word then
    if f3 = 1 ∨ f3 = 2 ∨ f3 = 3 then none
    else
      let isUnsigned := f3 = 5 ∨ f3 = 7
      let wa := if isUnsigned then (a.setWidth 32).setWidth 64 else sext32 a
      let wb := if isUnsigned then (b.setWidth 32).setWidth 64 else sext32 b
      some (sext32 (muldiv64 f3 wa wb))
  else some (muldiv64 f3 a b)

-- The operations on exact integers

section Exact

variable {w : Nat}

/-- The low bits of the product, the same for signed and unsigned operands. -/
def exactMul (a b : BitVec w) : BitVec w := BitVec.ofInt w (a.toInt * b.toInt)

/-- The bits of a product above the low 64. -/
def highWord (product : Int) : BitVec 64 := BitVec.ofInt 64 (product / 18446744073709551616)

/-- The quotient rounded to zero; all ones for a zero divisor. What overflows is the quotient of
the least value by minus one, of which the low bits are kept. -/
def exactDiv (a b : BitVec w) : BitVec w :=
  if b = 0 then BitVec.allOnes w else BitVec.ofInt w (a.toInt.tdiv b.toInt)

def exactRem (a b : BitVec w) : BitVec w :=
  if b = 0 then a else BitVec.ofInt w (a.toInt.tmod b.toInt)

def exactDivu (a b : BitVec w) : BitVec w :=
  if b = 0 then BitVec.allOnes w else BitVec.ofNat w (a.toNat / b.toNat)

def exactRemu (a b : BitVec w) : BitVec w :=
  if b = 0 then a else BitVec.ofNat w (a.toNat % b.toNat)

theorem exactDiv_rem (a b : BitVec w) : exactDiv a b * b + exactRem a b = a := by
  unfold exactDiv exactRem
  split
  case isTrue zero => simp [zero]
  case isFalse =>
    have whole : a.toInt.tdiv b.toInt * b.toInt + a.toInt.tmod b.toInt = a.toInt :=
      Int.tdiv_mul_add_tmod a.toInt b.toInt
    calc BitVec.ofInt w (a.toInt.tdiv b.toInt) * b + BitVec.ofInt w (a.toInt.tmod b.toInt)
        = BitVec.ofInt w (a.toInt.tdiv b.toInt) * BitVec.ofInt w b.toInt
            + BitVec.ofInt w (a.toInt.tmod b.toInt) := by rw [BitVec.ofInt_toInt]
      _ = BitVec.ofInt w a.toInt := by rw [← BitVec.ofInt_mul, ← BitVec.ofInt_add, whole]
      _ = a := BitVec.ofInt_toInt

theorem exactDivu_remu (a b : BitVec w) : exactDivu a b * b + exactRemu a b = a := by
  unfold exactDivu exactRemu
  split
  case isTrue zero => simp [zero]
  case isFalse =>
    have whole : a.toNat / b.toNat * b.toNat + a.toNat % b.toNat = a.toNat :=
      Nat.div_add_mod' a.toNat b.toNat
    calc BitVec.ofNat w (a.toNat / b.toNat) * b + BitVec.ofNat w (a.toNat % b.toNat)
        = BitVec.ofNat w (a.toNat / b.toNat) * BitVec.ofNat w b.toNat
            + BitVec.ofNat w (a.toNat % b.toNat) := by rw [BitVec.ofNat_toNat, BitVec.setWidth_eq]
      _ = BitVec.ofNat w a.toNat := by rw [← BitVec.ofNat_mul, ← BitVec.ofNat_add, whole]
      _ = a := by rw [BitVec.ofNat_toNat, BitVec.setWidth_eq]

/-- What the bits of the unit's function code ask for, at either width. -/
def exactLow (f3 : Nat) (a b : BitVec w) : BitVec w :=
  match f3 with
  | 0 => exactMul a b
  | 4 => exactDiv a b
  | 5 => exactDivu a b
  | 6 => exactRem a b
  | _ => exactRemu a b

def exactMuldiv (f3 : Nat) (a b : BitVec 64) : BitVec 64 :=
  match f3 with
  | 1 => highWord (a.toInt * b.toInt)
  | 2 => highWord (a.toInt * b.toNat)
  | 3 => highWord (a.toNat * b.toNat)
  | f3 => exactLow f3 a b

end Exact

-- The high halves

theorem toNat_low (a : BitVec 64) : (a &&& 0xffffffff).toNat = a.toNat % 4294967296 := by
  have mask : (0xffffffff : BitVec 64).toNat = 2 ^ 32 - 1 := rfl
  rw [BitVec.toNat_and, mask, Nat.and_two_pow_sub_one_eq_mod]

theorem toNat_high (a : BitVec 64) : (a >>> 32).toNat = a.toNat / 4294967296 := by
  rw [BitVec.toNat_ushiftRight, Nat.shiftRight_eq_div_pow]

theorem mul_half_lt {x y : Nat} (left : x < 4294967296) (right : y < 4294967296)
    : x * y ≤ 18446744065119617025 :=
  Nat.mul_le_mul (Nat.le_of_lt_succ left) (Nat.le_of_lt_succ right)

theorem toNat_mulhu64 (a b : BitVec 64)
    : (mulhu64 a b).toNat = a.toNat * b.toNat / 18446744073709551616 := by
  have small := a.isLt
  have small' := b.isLt
  have al : a.toNat % 4294967296 < 4294967296 := Nat.mod_lt _ (by decide)
  have bl : b.toNat % 4294967296 < 4294967296 := Nat.mod_lt _ (by decide)
  have ah : a.toNat / 4294967296 < 4294967296 := by omega
  have bh : b.toNat / 4294967296 < 4294967296 := by omega
  have split : a.toNat * b.toNat = (a.toNat % 4294967296) * (b.toNat % 4294967296)
      + 4294967296 * ((a.toNat % 4294967296) * (b.toNat / 4294967296)
        + (a.toNat / 4294967296) * (b.toNat % 4294967296))
      + 18446744073709551616 * ((a.toNat / 4294967296) * (b.toNat / 4294967296)) := by
    have left := Nat.mod_add_div a.toNat 4294967296
    have right := Nat.mod_add_div b.toNat 4294967296
    calc a.toNat * b.toNat
        = (a.toNat % 4294967296 + 4294967296 * (a.toNat / 4294967296))
            * (b.toNat % 4294967296 + 4294967296 * (b.toNat / 4294967296)) := by
          rw [left, right]
      _ = _ := by ring
  have ll := mul_half_lt al bl
  have lh := mul_half_lt al bh
  have hl := mul_half_lt ah bl
  have hh := mul_half_lt ah bh
  rw [split]
  simp only [mulhu64, BitVec.toNat_add, BitVec.toNat_mul, toNat_low, toNat_high]
  -- the four products are now atoms of a linear goal
  generalize (a.toNat % 4294967296) * (b.toNat % 4294967296) = p at *
  generalize (a.toNat % 4294967296) * (b.toNat / 4294967296) = q at *
  generalize (a.toNat / 4294967296) * (b.toNat % 4294967296) = r at *
  generalize (a.toNat / 4294967296) * (b.toNat / 4294967296) = s at *
  omega

theorem mulhu64_eq (a b : BitVec 64) : mulhu64 a b = highWord (a.toNat * b.toNat) := by
  apply BitVec.eq_of_toNat_eq
  rw [toNat_mulhu64, highWord, BitVec.toNat_ofInt]
  have small : a.toNat * b.toNat / 18446744073709551616 < 18446744073709551616 := by
    apply Nat.div_lt_of_lt_mul
    exact Nat.mul_lt_mul'' a.isLt b.isLt
  rw [← Int.natCast_mul]
  generalize a.toNat * b.toNat = product at small ⊢
  omega

theorem highWord_sub (product : Int) (b : BitVec 64) (c : Int) (same : BitVec.ofInt 64 c = b)
    : highWord (product - 18446744073709551616 * c) = highWord product - b := by
  rw [highWord, highWord, sub_eq_add_neg, ← mul_neg, Int.add_mul_ediv_left _ _ (by decide),
    BitVec.ofInt_add, BitVec.ofInt_neg, same, BitVec.sub_eq_add_neg]

theorem toInt_eq_sub (a : BitVec 64)
    : a.toInt = if a.toInt < 0 then (a.toNat : Int) - 18446744073709551616 else a.toNat := by
  have cases := BitVec.toInt_eq_toNat_cond a
  have small := a.isLt
  split at cases <;> split <;> omega

theorem mulhsu64_eq (a b : BitVec 64) : mulhsu64 a b = highWord (a.toInt * b.toNat) := by
  unfold mulhsu64
  simp only [mulhu64_eq]
  have signed := toInt_eq_sub a
  split
  case isTrue negative =>
    rw [if_pos negative] at signed
    rw [signed, Int.sub_mul, highWord_sub _ b b.toNat (by simp)]
  case isFalse nonnegative =>
    rw [if_neg nonnegative] at signed
    rw [signed]

theorem mulhs64_eq (a b : BitVec 64) : mulhs64 a b = highWord (a.toInt * b.toInt) := by
  have first : mulhs64 a b = if b.toInt < 0 then mulhsu64 a b - a else mulhsu64 a b := rfl
  have signed := toInt_eq_sub b
  rw [first, mulhsu64_eq]
  split
  case isTrue negative =>
    rw [if_pos negative] at signed
    have parts : a.toInt * ((b.toNat : Int) - 18446744073709551616)
        = a.toInt * b.toNat - 18446744073709551616 * a.toInt := by ring
    rw [signed, parts, highWord_sub _ a a.toInt BitVec.ofInt_toInt]
  case isFalse nonnegative =>
    rw [if_neg nonnegative] at signed
    rw [signed]

-- The other operations

theorem toInt_eq_zero_iff {w : Nat} {b : BitVec w} : b.toInt = 0 ↔ b = 0 := by
  rw [← BitVec.toInt_inj]
  simp

theorem divS64_eq (a b : BitVec 64) : divS64 a b = exactDiv a b := by
  unfold divS64 exactDiv
  simp only [toInt_eq_zero_iff]
  split
  case isTrue => rfl
  case isFalse =>
    split
    case isTrue overflow =>
      have least : BitVec.ofInt 64 int64Min = BitVec.ofInt 64 (int64Min.tdiv (-1)) := by decide
      rw [overflow.1, overflow.2, ← least, ← overflow.2, BitVec.ofInt_toInt]
    case isFalse => rfl

theorem remS64_eq (a b : BitVec 64) : remS64 a b = exactRem a b := by
  unfold remS64 exactRem
  simp only [toInt_eq_zero_iff]
  split
  case isTrue => rfl
  case isFalse =>
    split
    case isTrue unit => simp [unit]
    case isFalse => rfl

theorem muldiv64_eq (f3 : Nat) (a b : BitVec 64) : muldiv64 f3 a b = exactMuldiv f3 a b := by
  rcases Nat.lt_or_ge f3 7 with listed | other
  · interval_cases f3
    · simp [muldiv64, exactMuldiv, exactLow, exactMul, BitVec.ofInt_mul]
    · exact mulhs64_eq a b
    · exact mulhsu64_eq a b
    · exact mulhu64_eq a b
    · exact divS64_eq a b
    · rfl
    · exact remS64_eq a b
  · obtain ⟨k, rfl⟩ := Nat.exists_eq_add_of_le' other
    rfl

-- The word forms

theorem toInt_sext32 (a : BitVec 64) : (sext32 a).toInt = (a.setWidth 32).toInt :=
  BitVec.toInt_signExtend_of_le (by decide)

theorem setWidth_ofInt (x : Int) : (BitVec.ofInt 64 x).setWidth 32 = BitVec.ofInt 32 x := by
  apply BitVec.eq_of_toNat_eq
  rw [BitVec.toNat_setWidth, BitVec.toNat_ofInt, BitVec.toNat_ofInt]
  omega

theorem setWidth_allOnes : (BitVec.allOnes 64).setWidth 32 = BitVec.allOnes 32 := by decide

theorem sext32_eq_zero_iff (b : BitVec 64) : sext32 b = 0 ↔ b.setWidth 32 = 0 := by
  rw [← toInt_eq_zero_iff, ← toInt_eq_zero_iff, toInt_sext32]

theorem setWidth_sext32 (a : BitVec 64) : (sext32 a).setWidth 32 = a.setWidth 32 := by
  have whole : BitVec.ofInt 64 (sext32 a).toInt = sext32 a := BitVec.ofInt_toInt
  rw [← whole, setWidth_ofInt, toInt_sext32, BitVec.ofInt_toInt]

/-- On sign-extended words the signed operations give the 32-bit result in their low half. -/
theorem setWidth_exact_signed (a b : BitVec 64)
    : (exactMul (sext32 a) (sext32 b)).setWidth 32 = exactMul (a.setWidth 32) (b.setWidth 32)
      ∧ (exactDiv (sext32 a) (sext32 b)).setWidth 32 = exactDiv (a.setWidth 32) (b.setWidth 32)
      ∧ (exactRem (sext32 a) (sext32 b)).setWidth 32
          = exactRem (a.setWidth 32) (b.setWidth 32) := by
  refine ⟨?_, ?_, ?_⟩
  · rw [exactMul, setWidth_ofInt, toInt_sext32, toInt_sext32, exactMul]
  · simp only [exactDiv, sext32_eq_zero_iff, toInt_sext32]
    split
    · exact setWidth_allOnes
    · exact setWidth_ofInt _
  · simp only [exactRem, sext32_eq_zero_iff, toInt_sext32]
    split
    · exact setWidth_sext32 a
    · exact setWidth_ofInt _

theorem zext32_eq_zero_iff (b : BitVec 64)
    : (b.setWidth 32).setWidth 64 = 0 ↔ b.setWidth 32 = 0 := by
  rw [← BitVec.toNat_inj, ← BitVec.toNat_inj]
  simp
  omega

theorem toNat_zext32 (a : BitVec 64)
    : ((a.setWidth 32).setWidth 64).toNat = (a.setWidth 32).toNat := by
  rw [BitVec.toNat_setWidth]
  exact Nat.mod_eq_of_lt (Nat.lt_trans (a.setWidth 32).isLt (by decide))

theorem setWidth_ofNat (x : Nat) : (BitVec.ofNat 64 x).setWidth 32 = BitVec.ofNat 32 x := by
  apply BitVec.eq_of_toNat_eq
  simp

theorem setWidth_exact_unsigned (a b : BitVec 64)
    : (exactDivu ((a.setWidth 32).setWidth 64) ((b.setWidth 32).setWidth 64)).setWidth 32
        = exactDivu (a.setWidth 32) (b.setWidth 32)
      ∧ (exactRemu ((a.setWidth 32).setWidth 64) ((b.setWidth 32).setWidth 64)).setWidth 32
          = exactRemu (a.setWidth 32) (b.setWidth 32) := by
  constructor
  · simp only [exactDivu, zext32_eq_zero_iff, toNat_zext32]
    split
    · exact setWidth_allOnes
    · exact setWidth_ofNat _
  · simp only [exactRemu, zext32_eq_zero_iff, toNat_zext32]
    split
    · simp
    · exact setWidth_ofNat _

theorem aluMuldiv_word {f3 : Nat} (listed : f3 < 8) (formed : ¬(f3 = 1 ∨ f3 = 2 ∨ f3 = 3))
    (a b : BitVec 64)
    : aluMuldiv f3 true a b
        = some ((exactLow f3 (a.setWidth 32) (b.setWidth 32)).signExtend 64) := by
  obtain ⟨mul, div, rem⟩ := setWidth_exact_signed a b
  obtain ⟨divu, remu⟩ := setWidth_exact_unsigned a b
  unfold aluMuldiv
  simp only [if_true, if_neg formed, muldiv64_eq]
  congr 1
  rw [sext32]
  congr 1
  interval_cases f3
  · exact mul
  · exact absurd (Or.inl rfl) formed
  · exact absurd (Or.inr (Or.inl rfl)) formed
  · exact absurd (Or.inr (Or.inr rfl)) formed
  · exact div
  · exact divu
  · exact rem
  · exact remu

/-- The unit returns the exact low or high words, quotients and remainders for all operands, and
of the quotient and the remainder the dividend is put together again. -/
theorem aluMuldiv_exact
    : (∀ f3 a b, aluMuldiv f3 false a b = some (exactMuldiv f3 a b))
      ∧ (∀ f3 a b, f3 < 8 → ¬(f3 = 1 ∨ f3 = 2 ∨ f3 = 3) → aluMuldiv f3 true a b
          = some ((exactLow f3 (a.setWidth 32) (b.setWidth 32)).signExtend 64))
      ∧ (∀ f3 a b, f3 = 1 ∨ f3 = 2 ∨ f3 = 3 → aluMuldiv f3 true a b = none)
      ∧ (∀ a b : BitVec 64, exactMuldiv 4 a b * b + exactMuldiv 6 a b = a
          ∧ exactMuldiv 5 a b * b + exactMuldiv 7 a b = a)
      ∧ ∀ a b : BitVec 32, exactLow 4 a b * b + exactLow 6 a b = a
          ∧ exactLow 5 a b * b + exactLow 7 a b = a := by
  refine ⟨?_, ?_, ?_, ?_, ?_⟩
  · intro f3 a b
    rw [← muldiv64_eq]
    rfl
  · exact fun f3 a b listed formed => aluMuldiv_word listed formed a b
  · intro f3 a b refused
    simp [aluMuldiv, refused]
  · exact fun a b => ⟨exactDiv_rem a b, exactDivu_remu a b⟩
  · exact fun a b => ⟨exactDiv_rem a b, exactDivu_remu a b⟩

/-- The word form of the overflowing quotient: the least word by minus one. -/
theorem aluMuldiv_exact_divw
    : aluMuldiv 4 true 0x80000000 0xffffffff
        = some ((exactLow 4 (0x80000000 : BitVec 32) 0xffffffff).signExtend 64) :=
  aluMuldiv_exact.2.1 4 0x80000000 0xffffffff (by decide) (by decide)

end Z23.Rvemu
