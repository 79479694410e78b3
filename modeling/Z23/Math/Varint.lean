import Mathlib.Algebra.Order.Ring.Nat
import Z23.Lib.Codec

/-!
Base-128 varints, most significant group first, with one taken off for each continuation byte.
-/

namespace Z23.Math

open Z23.Lib.Bytes Z23.Lib.Codec

/-- The entries that the loop puts into `tmp` from place `len` on, with `left` places free. -/
def varintTmp : (left n len : Nat) → List UInt8
  | 0, _, _ => []
  | left + 1, n, len =>
    UInt8.ofNat (n % 128 + if len = 0 then 0 else 128)
      :: if n ≤ 127 then [] else varintTmp left (n / 128 - 1) (len + 1)

/-- The ten places of `tmp` are written out from the last one that was filled. -/
def streamWriteVarint (n : UInt64) : List UInt8 := (varintTmp 10 n.toNat 0).reverse

def readVarintLoop : (n : Nat) → Reader Nat
  | _, [] => none
  | n, ch :: rest =>
    let n := n * 128 % 2 ^ 64 + ch.toNat % 128
    if 128 ≤ ch.toNat then readVarintLoop ((n + 1) % 2 ^ 64) rest else some (n, rest)

def streamReadVarint : Reader UInt64 := fun bytes => do
  let (n, rest) ← readVarintLoop 0 bytes
  some (UInt64.ofNat n, rest)

theorem length_varintTmp (left n len : Nat) : (varintTmp left n len).length ≤ left := by
  induction left generalizing n len with
  | zero => exact Nat.le_refl _
  | succ left ih =>
    rw [varintTmp, List.length_cons]
    split
    · exact Nat.succ_le_succ (Nat.zero_le _)
    · exact Nat.succ_le_succ (ih _ _)

theorem readVarintLoop_last {n : Nat} (fits : n < 2 ^ 64) (rest : List UInt8)
    : readVarintLoop (n / 128) (UInt8.ofNat (n % 128) :: rest) = some (n, rest) := by
  have byte : (UInt8.ofNat (n % 128)).toNat = n % 128 :=
    UInt8.toNat_ofNat_of_lt' (show n % 128 < 256 by omega)
  rw [readVarintLoop, byte, if_neg (by omega)]
  congr 2
  omega

theorem readVarintLoop_more {n : Nat} (fits : n + 1 < 2 ^ 64) (rest : List UInt8)
    : readVarintLoop (n / 128) (UInt8.ofNat (n % 128 + 128) :: rest)
      = readVarintLoop (n + 1) rest := by
  have byte : (UInt8.ofNat (n % 128 + 128)).toNat = n % 128 + 128 :=
    UInt8.toNat_ofNat_of_lt' (show n % 128 + 128 < 256 by omega)
  rw [readVarintLoop, byte, if_pos (by omega)]
  congr 1
  omega

/-- Continuation bytes bring in their number and one more; `left` places are enough for it. -/
theorem readVarintLoop_tmp {left n len : Nat} (inside : 0 < len) (room : n < 128 ^ (left + 1))
    (fits : n + 1 < 2 ^ 64) (rest : List UInt8)
    : readVarintLoop 0 ((varintTmp (left + 1) n len).reverse ++ rest)
      = readVarintLoop (n + 1) rest := by
  induction left generalizing n len rest with
  | zero =>
    have zero : n / 128 = 0 := by omega
    rw [varintTmp, if_neg inside.ne', if_pos (by omega), ← readVarintLoop_more fits rest, zero]
    rfl
  | succ left ih =>
    rw [varintTmp, if_neg inside.ne', List.reverse_cons, List.append_assoc,
      ← readVarintLoop_more fits rest]
    split
    case isTrue small =>
      have zero : n / 128 = 0 := by omega
      rw [zero]
      rfl
    case isFalse large =>
      rw [Nat.pow_succ] at room
      rw [ih (Nat.succ_pos len) (by omega) (by omega), Nat.sub_add_cancel (by omega)]
      rfl

theorem streamVarint_readsBack : ReadsBack streamReadVarint streamWriteVarint := by
  intro n rest
  have fits := n.toNat_lt
  have read : readVarintLoop 0 (streamWriteVarint n ++ rest) = some (n.toNat, rest) := by
    rw [← readVarintLoop_last fits rest, streamWriteVarint, varintTmp, if_pos rfl]
    split
    case isTrue small =>
      have zero : n.toNat / 128 = 0 := by omega
      rw [zero]
      rfl
    case isFalse large =>
      rw [List.reverse_cons, List.append_assoc,
        readVarintLoop_tmp Nat.one_pos (by omega) (by omega), Nat.sub_add_cancel (by omega)]
      rfl
  rw [streamReadVarint, read, Option.bind_eq_bind, Option.bind_some]
  dsimp only
  rw [UInt64.ofNat_toNat]

theorem streamVarint_prefixFree
    : (∀ n rest, streamReadVarint (streamWriteVarint n ++ rest) = some (n, rest)) ∧
      (∀ n, (streamWriteVarint n).length ≤ 10) ∧
      (∀ a b, streamWriteVarint a = streamWriteVarint b → a = b) ∧
      ∀ a b, streamWriteVarint a <+: streamWriteVarint b → a = b := by
  have back := streamVarint_readsBack
  refine ⟨back, fun n => ?_, fun a b same => ?_, fun a b starts => ?_⟩
  · rw [streamWriteVarint, List.length_reverse]
    exact length_varintTmp 10 _ _
  · have appended := congrArg (· ++ []) same
    exact (ReadsBack.append_inj back appended).1
  · obtain ⟨rest, split⟩ := starts
    rw [← List.append_nil (streamWriteVarint b)] at split
    exact (ReadsBack.append_inj back split).1

end Z23.Math
