import Mathlib.Tactic.Ring
import Z23.Lib.FoldM
import Z23.Script.Interpreter

/-!
The numbers of a script have one accepted spelling: writing and reading them are inverse to each
other, and no result of an arithmetic opcode is too large to be written.
-/

namespace Z23.Script

open Z23.Lib.Bytes
open Z23.Lib.Failing
open Z23.Lib.FoldM (bind_eq_ok)

-- The top byte

theorem natLE_concat (front : Bytes) (top : UInt8)
    : natLE (front ++ [top]) = natLE front + 256 ^ front.length * top.toNat := by
  induction front with
  | nil => simp [natLE]
  | cons byte front ih =>
    rw [List.cons_append, natLE, natLE, ih, List.length_cons, Nat.pow_succ]
    ring

/-- A number other than zero is written with a top byte other than zero. -/
theorem exists_topped {x : Nat} (nonzero : x ≠ 0)
    : ∃ front top, top ≠ 0 ∧ natLE (front ++ [top]) = x := by
  induction x using Nat.strongRecOn with
  | ind x ih =>
    rcases Nat.lt_or_ge x 256 with small | large
    · refine ⟨[], UInt8.ofNat x, ?_, ?_⟩
      · intro zero
        have value := congrArg UInt8.toNat zero
        rw [UInt8.toNat_ofNat', Nat.mod_eq_of_lt small] at value
        exact nonzero value
      · simp [natLE, Nat.mod_eq_of_lt small]
    · obtain ⟨front, top, topNonzero, value⟩ := ih (x / 256) (by omega) (by omega)
      refine ⟨UInt8.ofNat x :: front, top, topNonzero, ?_⟩
      rw [List.cons_append, natLE, value, UInt8.toNat_ofNat']
      omega

variable {front : Bytes} {top : UInt8}

theorem pow_mul_le_natLE (least : Nat) (above : least ≤ top.toNat)
    : least * 256 ^ front.length ≤ natLE (front ++ [top]) := by
  rw [natLE_concat, Nat.mul_comm]
  exact le_add_left (Nat.mul_le_mul_left _ above)

theorem top_pos (nonzero : top ≠ 0) : 1 ≤ top.toNat :=
  Nat.pos_of_ne_zero fun zero => nonzero (UInt8.toNat_inj.mp zero)

theorem natLE_topped_pos (front : Bytes) (nonzero : top ≠ 0) : 0 < natLE (front ++ [top]) :=
  Nat.lt_of_lt_of_le (Nat.mul_pos Nat.one_pos (Nat.pow_pos (by decide)))
    (pow_mul_le_natLE 1 (top_pos nonzero))

theorem magnitudeBytes_zero (fuel : Nat) : magnitudeBytes fuel 0 = [] := by
  cases fuel with
  | zero => rfl
  | succ fuel => rfl

theorem magnitudeBytes_topped (nonzero : top ≠ 0) {fuel : Nat} (short : front.length < fuel)
    : magnitudeBytes fuel (natLE (front ++ [top])) = front ++ [top] := by
  induction front generalizing fuel with
  | nil =>
    obtain ⟨fuel, rfl⟩ := Nat.exists_eq_succ_of_ne_zero (Nat.ne_of_gt short)
    have small := top.toNat_lt
    have positive := top_pos nonzero
    rw [List.nil_append, natLE, natLE, magnitudeBytes, if_neg (by omega),
      show (top.toNat + 256 * 0) / 256 = 0 by omega, magnitudeBytes_zero]
    simp
  | cons byte front ih =>
    obtain ⟨fuel, rfl⟩ := Nat.exists_eq_succ_of_ne_zero (Nat.ne_of_gt (Nat.zero_lt_of_lt short))
    have small := byte.toNat_lt
    have positive := natLE_topped_pos front nonzero
    have low : UInt8.ofNat (byte.toNat + 256 * natLE (front ++ [top])) = byte := by
      apply UInt8.toNat.inj
      rw [UInt8.toNat_ofNat']
      omega
    rw [List.cons_append, natLE, magnitudeBytes, if_neg (by omega), low,
      show (byte.toNat + 256 * natLE (front ++ [top])) / 256 = natLE (front ++ [top]) by omega,
      ih (Nat.lt_of_succ_lt_succ short)]

-- The sign

theorem marked_iff (byte : UInt8) : (byte &&& 0x80 != 0) = decide (128 ≤ byte.toNat) := by
  obtain ⟨⟨byte⟩⟩ := byte
  revert byte
  decide +kernel

theorem low_or_mark (byte : UInt8)
    : byte = if 128 ≤ byte.toNat then (byte &&& 0x7f) ||| 0x80 else byte &&& 0x7f := by
  obtain ⟨⟨byte⟩⟩ := byte
  revert byte
  decide +kernel

theorem low_spec {byte : UInt8} (low : byte.toNat < 128)
    : byte &&& 0x7f = byte ∧ (byte ||| 0x80) &&& 0x7f = byte ∧ 128 ≤ (byte ||| 0x80).toNat := by
  revert low
  obtain ⟨⟨byte⟩⟩ := byte
  revert byte
  decide +kernel

theorem toNat_low (byte : UInt8)
    : byte.toNat = (byte &&& 0x7f).toNat + if 128 ≤ byte.toNat then 128 else 0 := by
  obtain ⟨⟨byte⟩⟩ := byte
  revert byte
  decide +kernel

theorem getD_concat (front : Bytes) (top : UInt8)
    : (front ++ [top]).getD ((front ++ [top]).length - 1) 0 = top := by
  simp

theorem signMagnitude_concat (front : Bytes) (top : UInt8)
    : signMagnitude (front ++ [top]) =
      if 128 ≤ top.toNat then -(natLE (front ++ [top &&& 0x7f]) : Int)
      else natLE (front ++ [top &&& 0x7f]) := by
  have split := toNat_low top
  rw [signMagnitude, getD_concat]
  simp only [marked_iff, decide_eq_true_eq]
  split
  case isTrue marked =>
    rw [if_pos marked] at split
    rw [natLE_concat, natLE_concat, split]
    push_cast
    simp only [List.length_append, List.length_singleton, Nat.add_sub_cancel]
    ring
  case isFalse plain =>
    rw [if_neg plain, Nat.add_zero] at split
    rw [natLE_concat, natLE_concat, split]

theorem natAbs_signMagnitude (front : Bytes) (top : UInt8)
    : (signMagnitude (front ++ [top])).natAbs = natLE (front ++ [top &&& 0x7f]) := by
  rw [signMagnitude_concat]
  split
  · simp
  · simp

theorem toNat_low_lt (byte : UInt8) : (byte &&& 0x7f).toNat < 128 := by
  rw [UInt8.toNat_and]
  exact Nat.lt_of_le_of_lt Nat.and_le_right (by decide)

theorem nonMinimal_concat (front : Bytes) (top : UInt8)
    : nonMinimal (front ++ [top]) = false ↔
      top &&& 0x7f ≠ 0 ∨ ∃ before last, front = before ++ [last] ∧ 128 ≤ last.toNat := by
  rw [nonMinimal, getD_concat]
  rcases List.eq_nil_or_concat front with rfl | ⟨before, last, rfl⟩
  · simp
  · have inner : (before ++ [last] ++ [top]).getD ((before ++ [last] ++ [top]).length - 2) 0
        = last := by
      simp
    have plain : (last &&& 0x80 == 0) = !decide (128 ≤ last.toNat) := by
      rw [← marked_iff, bne, Bool.not_not]
    rw [List.concat_eq_append, inner, plain]
    simp [or_iff_not_imp_left]

-- Writing

theorem scriptNumSerialize_topped {value : Int} (magnitude : value.natAbs = natLE (front ++ [top]))
    (nonzero : top ≠ 0) (short : front.length < 8)
    : scriptNumSerialize value =
      if 128 ≤ top.toNat then
        if (front ++ [top]).length + 1 > 8 then []
        else front ++ [top] ++ [if value < 0 then 0x80 else 0]
      else front ++ [if value < 0 then top ||| 0x80 else top] := by
  have written := magnitudeBytes_topped nonzero short
  have other : value ≠ 0 := by
    intro zero
    have positive := natLE_topped_pos front nonzero
    rw [← magnitude, zero] at positive
    exact absurd positive (Nat.lt_irrefl 0)
  simp only [scriptNumSerialize, magnitude, written, if_neg other, getD_concat, marked_iff,
    decide_eq_true_eq, List.dropLast_concat]
  split
  case isTrue => rfl
  case isFalse =>
    split
    · rfl
    · rfl

theorem scriptNumSerialize_signMagnitude {data : Bytes} (short : data.length ≤ 8)
    (minimal : nonMinimal data = false)
    : scriptNumSerialize (signMagnitude data) = data := by
  rcases List.eq_nil_or_concat data with rfl | ⟨front, top, rfl⟩
  · rfl
  rw [List.concat_eq_append] at short minimal ⊢
  rw [List.length_append, List.length_singleton] at short
  have magnitude := natAbs_signMagnitude front top
  have negative (positive : 0 < natLE (front ++ [top &&& 0x7f]))
      : signMagnitude (front ++ [top]) < 0 ↔ 128 ≤ top.toNat := by
    rw [signMagnitude_concat]
    split
    case isTrue marked => simp [marked, positive]
    case isFalse plain => simp [plain]
  have whole := low_or_mark top
  by_cases low : top &&& 0x7f = 0
  · obtain refused | ⟨before, last, rfl, high⟩ := (nonMinimal_concat front top).mp minimal
    · exact absurd low refused
    rw [List.length_append, List.length_singleton] at short
    have value : natLE (before ++ [last] ++ [top &&& 0x7f]) = natLE (before ++ [last]) := by
      rw [low, natLE_concat]
      simp
    have nonzero : last ≠ 0 := by
      rintro rfl
      exact absurd high (by decide)
    have positive := natLE_topped_pos before nonzero
    rw [scriptNumSerialize_topped (magnitude.trans value) nonzero (by omega), if_pos high,
      if_neg (by simp only [List.length_append, List.length_singleton]; omega)]
    simp only [negative (value ▸ positive)]
    rw [low] at whole
    rw [whole]
    split
    case isTrue marked => simp
    case isFalse plain => simp
  · have small := toNat_low_lt top
    have positive := natLE_topped_pos front low
    rw [scriptNumSerialize_topped magnitude low (by omega), if_neg (by omega)]
    simp only [negative positive]
    rw [← whole]

-- Reading

theorem scriptNumSerialize_spec {value : Int} (small : value.natAbs < 2 ^ 63)
    : (scriptNumSerialize value).length ≤ 8 ∧ nonMinimal (scriptNumSerialize value) = false ∧
      signMagnitude (scriptNumSerialize value) = value := by
  by_cases zero : value = 0
  · rw [zero]
    decide
  obtain ⟨front, top, nonzero, magnitude⟩ := exists_topped (Int.natAbs_ne_zero.mpr zero)
  have least (digit : Nat) (above : digit ≤ top.toNat) : digit * 256 ^ front.length < 2 ^ 63 :=
    Nat.lt_of_le_of_lt (pow_mul_le_natLE digit above) (magnitude ▸ small)
  have short : front.length < 8 :=
    (Nat.pow_lt_pow_iff_right (by decide : 1 < 256)).mp
      (Nat.lt_trans (by simpa using least 1 (top_pos nonzero)) (by decide))
  rw [scriptNumSerialize_topped magnitude.symm nonzero short]
  split
  case isTrue high =>
    have shorter : front.length < 7 :=
      (Nat.pow_lt_pow_iff_right (by decide : 1 < 256)).mp
        (Nat.lt_of_mul_lt_mul_left (a := 128) (Nat.lt_of_lt_of_eq (least 128 high) (by decide)))
    rw [if_neg (by simp only [List.length_append, List.length_singleton]; omega)]
    refine ⟨?_, (nonMinimal_concat _ _).mpr (.inr ⟨front, top, rfl, high⟩), ?_⟩
    · simp only [List.length_append, List.length_singleton]
      omega
    · have padded : natLE (front ++ [top] ++ [0]) = value.natAbs := by
        rw [natLE_concat, magnitude]
        simp
      rw [signMagnitude_concat]
      by_cases negative : value < 0
      · have mark : (0x80 : UInt8) &&& 0x7f = 0 := rfl
        rw [if_pos negative, if_pos (by decide), mark, padded]
        omega
      · have mark : (0 : UInt8) &&& 0x7f = 0 := rfl
        rw [if_neg negative, if_neg (by decide), mark, padded]
        omega
  case isFalse low =>
    obtain ⟨plain, unmarked, marked⟩ := low_spec (Nat.lt_of_not_le low)
    refine ⟨?_, (nonMinimal_concat _ _).mpr (.inl ?_), ?_⟩
    · rw [List.length_append]
      exact short
    · split
      · rwa [unmarked]
      · rwa [plain]
    · rw [signMagnitude_concat]
      by_cases negative : value < 0
      · rw [if_pos negative, if_pos marked, unmarked, magnitude]
        omega
      · rw [if_neg negative, if_neg low, plain, magnitude]
        omega

theorem scriptNumFromBytes_eq_ok {data : Bytes} {requireMinimal : Bool} {maxSize : Nat}
    {value : Int}
    : scriptNumFromBytes data requireMinimal maxSize = .ok value ↔
      data.length ≤ maxSize ∧ (requireMinimal = true → nonMinimal data = false) ∧
        signMagnitude data = value := by
  rw [scriptNumFromBytes]
  by_cases short : data.length ≤ maxSize
  · rw [require_bind (by simpa using short)]
    cases bad : requireMinimal && nonMinimal data with
    | true =>
      obtain ⟨asked, found⟩ := Bool.and_eq_true_iff.mp bad
      rw [require_bind_error Bool.not_true]
      simp [asked, found]
    | false =>
      rw [require_bind Bool.not_false]
      simp_all [pure, Except.pure]
  · rw [require_bind_error (by simpa using short)]
    simp [short]

theorem scriptNumFromBytes_serialize {value : Int} (small : value.natAbs < 2 ^ 63)
    : scriptNumFromBytes (scriptNumSerialize value) true 8 = .ok value := by
  obtain ⟨short, minimal, read⟩ := scriptNumSerialize_spec small
  exact scriptNumFromBytes_eq_ok.mpr ⟨short, fun _ => minimal, read⟩

-- Arithmetic

/-- An operand of an arithmetic opcode. -/
def operandAt (c : EvalCtx) (stack : Stack) (depth : Nat) : Eval Int :=
  snFromTop stack depth c.fRequireMinimal scriptNumDefaultMaxSize

/-- The number goes on the stack in its one spelling. -/
def PushesNumber (below : Stack) (value : Int) (after : Stack) : Prop :=
  ∃ item, after = item :: below ∧ scriptNumFromBytes item true 8 = .ok value

/-- The arithmetic opcodes that do not fail push their results without loss. -/
def ArithLossless (c : EvalCtx) (stack : Stack) (opcode : UInt8) : Prop :=
  (∀ after, evalopUnaryArith c stack opcode = .ok after →
    ∃ a, operandAt c stack 1 = .ok a ∧
      PushesNumber (stack.drop 1) (unaryArithValue opcode a) after) ∧
  (∀ after, evalopBinaryArith c stack opcode = .ok after →
    ∃ a b pushed, operandAt c stack 2 = .ok a ∧ operandAt c stack 1 = .ok b ∧
      PushesNumber (stack.drop 2) (binaryArithValue opcode a b) pushed ∧
      after = if opcode = opNumequalverify then stack.drop 2 else pushed) ∧
  (∀ after, evalopWithin c stack = .ok after →
    ∃ a low high, operandAt c stack 3 = .ok a ∧ operandAt c stack 2 = .ok low ∧
      operandAt c stack 1 = .ok high ∧
      PushesNumber (stack.drop 3) (boolValue (low ≤ a && a < high)) after)

theorem natAbs_operand_lt {c : EvalCtx} {stack : Stack} {depth : Nat} {value : Int}
    (read : operandAt c stack depth = .ok value)
    : value.natAbs < 2 ^ 31 := by
  obtain ⟨short, -, rfl⟩ := scriptNumFromBytes_eq_ok.mp read
  rcases List.eq_nil_or_concat (stackTop stack depth) with none | ⟨front, top, found⟩
  · rw [none]
    decide
  rw [found, List.concat_eq_append] at short ⊢
  rw [List.length_append, List.length_singleton, scriptNumDefaultMaxSize] at short
  have low := toNat_low_lt top
  rw [natAbs_signMagnitude, natLE_concat]
  calc natLE front + 256 ^ front.length * (top &&& 0x7f).toNat
      < 256 ^ front.length + 256 ^ front.length * (top &&& 0x7f).toNat :=
        Nat.add_lt_add_right (natLE_lt front) _
    _ = 256 ^ front.length * ((top &&& 0x7f).toNat + 1) := by ring
    _ ≤ 256 ^ 3 * 128 := Nat.mul_le_mul (Nat.pow_le_pow_right (by decide) (by omega)) (by omega)

theorem natAbs_boolValue_le (bound : Nat) (holds : Bool)
    : (boolValue holds).natAbs ≤ bound + 1 := by
  cases holds with
  | false => exact Nat.zero_le _
  | true => exact Nat.le_add_left 1 bound

theorem natAbs_ite_le {p : Prop} [Decidable p] {yes no : Int} {bound : Nat}
    (yesLe : yes.natAbs ≤ bound) (noLe : no.natAbs ≤ bound)
    : (if p then yes else no).natAbs ≤ bound := by
  split
  · exact yesLe
  · exact noLe

theorem natAbs_unaryArithValue_le (opcode : UInt8) (a : Int)
    : (unaryArithValue opcode a).natAbs ≤ a.natAbs + 1 := by
  have flag := natAbs_boolValue_le a.natAbs
  have same : (-a).natAbs ≤ a.natAbs + 1 := by omega
  refine natAbs_ite_le (by omega) (natAbs_ite_le (by omega) (natAbs_ite_le same ?_))
  refine natAbs_ite_le (natAbs_ite_le same (by omega)) ?_
  exact natAbs_ite_le (flag _) (natAbs_ite_le (flag _) (by omega))

theorem natAbs_binaryArithValue_le (opcode : UInt8) (a b : Int)
    : (binaryArithValue opcode a b).natAbs ≤ a.natAbs + b.natAbs + 1 := by
  have flag := natAbs_boolValue_le (a.natAbs + b.natAbs)
  have left : a.natAbs ≤ a.natAbs + b.natAbs + 1 := by omega
  have right : b.natAbs ≤ a.natAbs + b.natAbs + 1 := by omega
  refine natAbs_ite_le (by omega) (natAbs_ite_le (by omega) (natAbs_ite_le (flag _) ?_))
  refine natAbs_ite_le (flag _) (natAbs_ite_le (natAbs_ite_le left right) ?_)
  refine natAbs_ite_le (natAbs_ite_le left right) ?_
  -- the comparisons
  refine natAbs_ite_le (flag _) (natAbs_ite_le (flag _) (natAbs_ite_le (flag _) ?_))
  refine natAbs_ite_le (flag _) (natAbs_ite_le (flag _) (natAbs_ite_le (flag _) ?_))
  exact Nat.zero_le _

theorem stackPush_eq_ok {below after : Stack} {item : Bytes}
    (pushed : stackPush below item = .ok after)
    : after = item :: below := by
  rw [stackPush, bind_eq_ok] at pushed
  obtain ⟨-, -, done⟩ := pushed
  exact (Except.ok.inj done).symm

theorem pushesNumber_of_snPush {below after : Stack} {value : Int}
    (pushed : snPush below value = .ok after) (small : value.natAbs < 2 ^ 63)
    : PushesNumber below value after :=
  ⟨_, stackPush_eq_ok pushed, scriptNumFromBytes_serialize small⟩

theorem arithLossless (c : EvalCtx) (stack : Stack) (opcode : UInt8)
    : ArithLossless c stack opcode := by
  refine ⟨fun after ran => ?_, fun after ran => ?_, fun after ran => ?_⟩
  · rw [evalopUnaryArith, bind_eq_ok] at ran
    obtain ⟨-, -, ran⟩ := ran
    obtain ⟨a, read, pushed⟩ := bind_eq_ok.mp ran
    have operand := natAbs_operand_lt read
    have result := natAbs_unaryArithValue_le opcode a
    exact ⟨a, read, pushesNumber_of_snPush pushed (by omega)⟩
  · rw [evalopBinaryArith, bind_eq_ok] at ran
    obtain ⟨-, -, ran⟩ := ran
    obtain ⟨a, readFirst, ran⟩ := bind_eq_ok.mp ran
    obtain ⟨b, readSecond, ran⟩ := bind_eq_ok.mp ran
    obtain ⟨pushed, push, ran⟩ := bind_eq_ok.mp ran
    have first := natAbs_operand_lt readFirst
    have second := natAbs_operand_lt readSecond
    have result := natAbs_binaryArithValue_le opcode a b
    refine ⟨a, b, pushed, readFirst, readSecond, pushesNumber_of_snPush push (by omega), ?_⟩
    rw [verifyTailWhen, evalopVerifyTail] at ran
    by_cases verify : opcode = opNumequalverify
    · rw [if_pos (beq_iff_eq.mpr verify), bind_eq_ok] at ran
      obtain ⟨-, -, done⟩ := ran
      rw [if_pos verify, ← Except.ok.inj done, stackPush_eq_ok push, List.drop_one, List.tail_cons]
    · rw [if_neg (mt beq_iff_eq.mp verify)] at ran
      rw [if_neg verify, ← Except.ok.inj ran]
  · rw [evalopWithin, bind_eq_ok] at ran
    obtain ⟨-, -, ran⟩ := ran
    obtain ⟨a, readFirst, ran⟩ := bind_eq_ok.mp ran
    obtain ⟨low, readLow, ran⟩ := bind_eq_ok.mp ran
    obtain ⟨high, readHigh, ran⟩ := bind_eq_ok.mp ran
    refine ⟨a, low, high, readFirst, readLow, readHigh, _, stackPush_eq_ok ran, ?_⟩
    cases (low ≤ a && a < high : Bool) with
    | false => rfl
    | true => rfl

-- The result

/-- Numbers have one spelling, and arithmetic keeps to those that have it. -/
theorem scriptNum_canonical
    : (∀ value : Int, value.natAbs < 2 ^ 63 →
        scriptNumFromBytes (scriptNumSerialize value) true 8 = .ok value) ∧
      (∀ data maxSize value, maxSize ≤ 8 → scriptNumFromBytes data true maxSize = .ok value →
        scriptNumSerialize value = data) ∧
      ∀ c stack opcode, ArithLossless c stack opcode := by
  refine ⟨fun value small => scriptNumFromBytes_serialize small, ?_, arithLossless⟩
  intro data maxSize value fits read
  obtain ⟨short, minimal, rfl⟩ := scriptNumFromBytes_eq_ok.mp read
  exact scriptNumSerialize_signMagnitude (short.trans fits) (minimal rfl)

end Z23.Script
