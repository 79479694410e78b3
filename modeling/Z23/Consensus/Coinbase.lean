import Z23.Script.Script
import Z23.Primitives

/-!
The height in the scriptSig of a coinbase: the builder that writes it and the check of BIP34 that
reads it, each with an encoding of its own.
-/

namespace Z23.Consensus

open Z23.Lib.Bytes (natLE)
open Z23.Script (magnitudeBytes)

-- The builder

/-- A magnitude whose top byte has its high bit set gets a zero byte for the sign. -/
def padSign (num : List UInt8) : List UInt8 :=
  if num.getD (num.length - 1) 0 &&& 0x80 != 0 then num ++ [0] else num

/-- Models `dcb_scriptnum_serialize`. -/
def dcbScriptnumSerialize (value : UInt32) : List UInt8 := padSign (magnitudeBytes 4 value.toNat)

/-- Models `dcb_push_scriptnum`: the bytes it adds. -/
def dcbPushScriptnum (value : UInt32) : List UInt8 :=
  let buf := dcbScriptnumSerialize value
  UInt8.ofNat buf.length :: buf

/-- Models `dcb_push_height`: the bytes it adds. -/
def dcbPushHeight (nHeight : Int32) : List UInt8 :=
  if nHeight = 0 then [0]
  else if 1 ≤ nHeight ∧ nHeight ≤ 16 then [0x50 + nHeight.toUInt32.toUInt8]
  else dcbPushScriptnum nHeight.toUInt32

/-- The largest height that the builder takes. -/
def dcbHeightMax : Int32 := 0x00FFFFFF

inductive CoinbaseError where
  | negHeight
  | heightRange
deriving DecidableEq, Repr

/-- The bounds that both builders check. -/
def dcbCheckHeight (nHeight : Int32) : Except CoinbaseError Unit :=
  if nHeight < 0 then .error .negHeight
  else if nHeight > dcbHeightMax then .error .heightRange
  else .ok ()

/-- Models `domain_consensus_coinbase_script_sig_placeholder`. -/
def coinbaseScriptSigPlaceholder (nHeight : Int32) : Except CoinbaseError Script := do
  dcbCheckHeight nHeight
  return dcbPushHeight nHeight ++ [0]

/-- Models `domain_consensus_coinbase_script_sig_with_extra_nonce`. -/
def coinbaseScriptSigWithExtraNonce (nHeight : Int32) (extraNonce : UInt32)
    : Except CoinbaseError Script := do
  dcbCheckHeight nHeight
  return dcbPushHeight nHeight ++ dcbPushScriptnum extraNonce

-- The check

/-- The push of the height that the check expects. -/
def bip34Expect (nHeight : Int32) : List UInt8 :=
  let num := padSign (magnitudeBytes 4 nHeight.toInt.toNat)
  UInt8.ofNat num.length :: num

/-- Models `bip34_check_coinbase_height`. -/
def bip34CheckCoinbaseHeight (coinbase : Transaction) (nHeight : Int32) : Bool :=
  match coinbase.vin with
  | [] => false
  | input :: _ =>
    let sig := input.scriptSig
    if nHeight ≤ 0 then true
    else if sig.length = 0 then false
    else if (1 ≤ nHeight && nHeight ≤ 16)
        && sig.head? = some (0x50 + nHeight.toUInt32.toUInt8) then true
    else if sig.length < (bip34Expect nHeight).length then false
    else sig.take (bip34Expect nHeight).length = bip34Expect nHeight

-- Encodings

theorem natLE_magnitudeBytes {fuel value : Nat} (fits : value < 256 ^ fuel)
    : natLE (magnitudeBytes fuel value) = value := by
  induction fuel generalizing value with
  | zero =>
    rw [Nat.pow_zero, Nat.lt_one_iff] at fits
    rw [fits]
    rfl
  | succ fuel ih =>
    rw [magnitudeBytes]
    split
    · rename_i none_left
      rw [none_left]
      rfl
    · have smaller : value / 256 < 256 ^ fuel := by
        rw [Nat.pow_succ] at fits
        exact Nat.div_lt_of_lt_mul (by omega)
      rw [natLE, ih smaller, UInt8.toNat_ofNat']
      omega

theorem length_magnitudeBytes_le (fuel value : Nat)
    : (magnitudeBytes fuel value).length ≤ fuel := by
  induction fuel generalizing value with
  | zero => exact Nat.le_refl 0
  | succ fuel ih =>
    rw [magnitudeBytes]
    split
    · exact Nat.zero_le _
    · rw [List.length_cons]
      exact Nat.succ_le_succ (ih _)

theorem natLE_append_zero (bytes : List UInt8) : natLE (bytes ++ [0]) = natLE bytes := by
  induction bytes with
  | nil => rfl
  | cons byte rest ih => rw [List.cons_append, natLE, natLE, ih]

theorem natLE_padSign (num : List UInt8) : natLE (padSign num) = natLE num := by
  rw [padSign]
  split
  · exact natLE_append_zero num
  · rfl

theorem length_padSign_le (num : List UInt8) : (padSign num).length ≤ num.length + 1 := by
  rw [padSign]
  split
  · rw [List.length_append, List.length_singleton]
  · exact Nat.le_succ _

theorem padded_spec {value : Nat} (fits : value < 2 ^ 32)
    : natLE (padSign (magnitudeBytes 4 value)) = value
      ∧ (padSign (magnitudeBytes 4 value)).length ≤ 5 := by
  constructor
  · rw [natLE_padSign, natLE_magnitudeBytes fits]
  · have short := length_magnitudeBytes_le 4 value
    exact (length_padSign_le _).trans (Nat.succ_le_succ short)

theorem dcbPushScriptnum_length (value : UInt32)
    : 1 ≤ (dcbPushScriptnum value).length ∧ (dcbPushScriptnum value).length ≤ 6 := by
  rw [dcbPushScriptnum, List.length_cons]
  exact ⟨Nat.succ_pos _, Nat.succ_le_succ (padded_spec value.toNat_lt).2⟩

theorem toNat_toUInt32 {height : Int32} (nonneg : 0 ≤ height)
    : height.toUInt32.toNat = height.toInt.toNat :=
  Int32.toNat_toUInt32_of_le nonneg

theorem toNat_lt {height : Int32} (nonneg : 0 ≤ height) : height.toInt.toNat < 2 ^ 32 := by
  rw [← toNat_toUInt32 nonneg]
  exact height.toUInt32.toNat_lt

theorem toNat_smallOpcode {height : Int32} (low : 0 < height) (high : height ≤ 16)
    : (0x50 + height.toUInt32.toUInt8).toNat = 0x50 + height.toInt.toNat := by
  have nonneg : (0 : Int32) ≤ height := Int32.le_of_lt low
  have small : height.toInt ≤ 16 := Int32.le_iff_toInt_le.mp high
  rw [UInt8.toNat_add, UInt32.toNat_toUInt8, toNat_toUInt32 nonneg]
  change (80 + height.toInt.toNat % 2 ^ 8) % 2 ^ 8 = 80 + height.toInt.toNat
  omega

theorem dcbPushScriptnum_eq {height : Int32} (nonneg : 0 ≤ height)
    : dcbPushScriptnum height.toUInt32 = bip34Expect height := by
  rw [dcbPushScriptnum, bip34Expect, dcbScriptnumSerialize, toNat_toUInt32 nonneg]

theorem bip34Expect_eq {height : Int32} (nonneg : 0 ≤ height)
    : ∃ num, bip34Expect height = UInt8.ofNat num.length :: num ∧ num.length ≤ 5
        ∧ natLE num = height.toInt.toNat := by
  obtain ⟨value, short⟩ := padded_spec (toNat_lt nonneg)
  exact ⟨_, rfl, short, value⟩

-- Heights

section Heights

variable {coinbase : Transaction} {input : TxIn} {rest : List TxIn} {height : Int32}

theorem bip34Check_iff (split : coinbase.vin = input :: rest) (positive : 0 < height)
    : bip34CheckCoinbaseHeight coinbase height = true
      ↔ height ≤ 16 ∧ input.scriptSig.head? = some (0x50 + height.toUInt32.toUInt8)
        ∨ bip34Expect height <+: input.scriptSig := by
  have above : ¬ height ≤ 0 := Int32.not_le.mpr positive
  have least : (1 : Int32) ≤ height :=
    Int32.le_iff_toInt_le.mpr (Int.add_one_le_of_lt (Int32.lt_iff_toInt_lt.mp positive))
  rw [bip34CheckCoinbaseHeight, split]
  dsimp only
  rw [if_neg above]
  generalize input.scriptSig = sig
  by_cases empty : sig.length = 0
  · rw [if_pos empty]
    rw [List.length_eq_zero_iff] at empty
    subst empty
    simp [bip34Expect]
  · rw [if_neg empty]
    by_cases small : height ≤ 16 ∧ sig.head? = some (0x50 + height.toUInt32.toUInt8)
    · rw [if_pos (by simp [least, small.1, small.2])]
      exact iff_of_true rfl (.inl small)
    · have notSmall : ¬((1 ≤ height && height ≤ 16)
          && sig.head? = some (0x50 + height.toUInt32.toUInt8)) = true := by
        simpa [least] using small
      rw [if_neg notSmall]
      by_cases fits : sig.length < (bip34Expect height).length
      · rw [if_pos fits]
        refine iff_of_false Bool.false_ne_true ?_
        rintro (opcode | front)
        · exact small opcode
        · exact Nat.not_lt.mpr front.length_le fits
      · rw [if_neg fits, decide_eq_true_iff]
        constructor
        · intro front
          exact .inr (List.prefix_iff_eq_take.mpr front.symm)
        · rintro (opcode | front)
          · exact absurd opcode small
          · exact (List.prefix_iff_eq_take.mp front).symm

theorem head_of_front {num sig : List UInt8} (front : UInt8.ofNat num.length :: num <+: sig)
    : sig.head? = some (UInt8.ofNat num.length) := by
  obtain ⟨tail, rfl⟩ := front
  rfl

theorem smallOpcode_ne_length {other : Int32} (positive : 0 < height) (small : height ≤ 16)
    (otherNonneg : 0 ≤ other) {sig : List UInt8}
    (opcode : sig.head? = some (0x50 + height.toUInt32.toUInt8))
    (front : bip34Expect other <+: sig) : False := by
  obtain ⟨num, same, short, _⟩ := bip34Expect_eq otherNonneg
  rw [same] at front
  have byte := congrArg UInt8.toNat (Option.some.inj (opcode.symm.trans (head_of_front front)))
  rw [toNat_smallOpcode positive small, UInt8.toNat_ofNat'] at byte
  omega

theorem height_unique {other : Int32} (positive : 0 < height) (otherPositive : 0 < other)
    (passes : bip34CheckCoinbaseHeight coinbase height = true)
    (otherPasses : bip34CheckCoinbaseHeight coinbase other = true) : height = other := by
  have nonneg : (0 : Int32) ≤ height := Int32.le_of_lt positive
  have otherNonneg : (0 : Int32) ≤ other := Int32.le_of_lt otherPositive
  -- the natural numbers tell the heights apart
  suffices same : height.toInt.toNat = other.toInt.toNat by
    apply Int32.toInt_inj.mp
    have low := Int32.le_iff_toInt_le.mp nonneg
    have otherLow := Int32.le_iff_toInt_le.mp otherNonneg
    rw [Int32.toInt_zero] at low otherLow
    omega
  cases split : coinbase.vin with
  | nil =>
    rw [bip34CheckCoinbaseHeight, split] at passes
    cases passes
  | cons input rest =>
    rw [bip34Check_iff split positive] at passes
    rw [bip34Check_iff split otherPositive] at otherPasses
    rcases passes with ⟨small, opcode⟩ | front
    · rcases otherPasses with ⟨otherSmall, otherOpcode⟩ | otherFront
      · have byte := congrArg UInt8.toNat (Option.some.inj (opcode.symm.trans otherOpcode))
        rw [toNat_smallOpcode positive small, toNat_smallOpcode otherPositive otherSmall] at byte
        exact Nat.add_left_cancel byte
      · exact (smallOpcode_ne_length positive small otherNonneg opcode otherFront).elim
    · rcases otherPasses with ⟨otherSmall, otherOpcode⟩ | otherFront
      · exact (smallOpcode_ne_length otherPositive otherSmall nonneg otherOpcode front).elim
      · obtain ⟨num, expect, short, value⟩ := bip34Expect_eq nonneg
        obtain ⟨otherNum, otherExpect, otherShort, otherValue⟩ := bip34Expect_eq otherNonneg
        rw [expect] at front
        rw [otherExpect] at otherFront
        have heads := (head_of_front front).symm.trans (head_of_front otherFront)
        have lengths := congrArg UInt8.toNat (Option.some.inj heads)
        rw [UInt8.toNat_ofNat', UInt8.toNat_ofNat'] at lengths
        have sameLength : (UInt8.ofNat num.length :: num).length
            = (UInt8.ofNat otherNum.length :: otherNum).length := by
          rw [List.length_cons, List.length_cons]
          omega
        have pushes := (List.prefix_of_prefix_length_le front otherFront
          (Nat.le_of_eq sameLength)).eq_of_length sameLength
        rw [← value, ← otherValue, (List.cons.inj pushes).2]

theorem dcbPushHeight_length (height : Int32)
    : 1 ≤ (dcbPushHeight height).length ∧ (dcbPushHeight height).length ≤ 6 := by
  rw [dcbPushHeight]
  split
  · exact ⟨Nat.le_refl 1, by decide⟩
  · split
    · exact ⟨Nat.le_refl 1, Nat.le_add_left 1 5⟩
    · exact dcbPushScriptnum_length _

theorem dcbPushHeight_passes (nonneg : 0 ≤ height) {tail : List UInt8}
    (split : coinbase.vin = input :: rest) (built : input.scriptSig = dcbPushHeight height ++ tail)
    : bip34CheckCoinbaseHeight coinbase height = true := by
  by_cases zero : height ≤ 0
  · rw [bip34CheckCoinbaseHeight, split]
    dsimp only
    rw [if_pos zero]
  · have positive : 0 < height := Int32.not_le.mp zero
    have nonzero : height ≠ 0 := fun same => zero (same ▸ Int32.le_refl 0)
    have least : (1 : Int32) ≤ height :=
      Int32.le_iff_toInt_le.mpr (Int.add_one_le_of_lt (Int32.lt_iff_toInt_lt.mp positive))
    rw [bip34Check_iff split positive, built, dcbPushHeight, if_neg nonzero]
    by_cases small : height ≤ 16
    · rw [if_pos ⟨least, small⟩]
      exact .inl ⟨small, rfl⟩
    · rw [if_neg (fun both => small both.2), dcbPushScriptnum_eq nonneg]
      exact .inr (List.prefix_append _ tail)

end Heights

/-- A scriptSig holds one positive height at most, and what the builder writes for a height of 24
bits holds that height in 2 to 100 bytes. -/
theorem bip34_heights
    : (∀ (coinbase : Transaction) (height other : Int32), 0 < height → 0 < other →
        bip34CheckCoinbaseHeight coinbase height = true →
        bip34CheckCoinbaseHeight coinbase other = true → height = other)
      ∧ ∀ (height : Int32) (extraNonce : UInt32), 0 ≤ height → height ≤ 0xFFFFFF →
          ∃ sig, coinbaseScriptSigWithExtraNonce height extraNonce = .ok sig
            ∧ 2 ≤ sig.length ∧ sig.length ≤ 100
            ∧ ∀ (coinbase : Transaction) (input : TxIn) (rest : List TxIn),
                coinbase.vin = input :: rest → input.scriptSig = sig →
                bip34CheckCoinbaseHeight coinbase height = true := by
  refine ⟨fun coinbase height other positive otherPositive passes otherPasses =>
    height_unique positive otherPositive passes otherPasses, ?_⟩
  intro height extraNonce nonneg below
  obtain ⟨some_height, heightShort⟩ := dcbPushHeight_length height
  obtain ⟨some_nonce, nonceShort⟩ := dcbPushScriptnum_length extraNonce
  have checked : dcbCheckHeight height = .ok () := by
    have high : ¬ height > dcbHeightMax := Int32.not_lt.mpr below
    rw [dcbCheckHeight, if_neg (Int32.not_lt.mpr nonneg), if_neg high]
  refine ⟨dcbPushHeight height ++ dcbPushScriptnum extraNonce, ?_, ?_, ?_, ?_⟩
  · rw [coinbaseScriptSigWithExtraNonce, checked]
    rfl
  · rw [List.length_append]
    omega
  · rw [List.length_append]
    omega
  · intro coinbase input rest split built
    exact dcbPushHeight_passes nonneg split built

def coinbaseOf (sig : Script) : Transaction :=
  { vin := [{ prevout := ⟨Uint256.fill 0, 0xffffffff⟩, scriptSig := sig }]
    vout := []
    hash := Uint256.fill 0 }

/-- The first height behind the small opcodes. -/
theorem bip34_heights_seventeen
    : ∃ sig, coinbaseScriptSigWithExtraNonce 17 5 = .ok sig ∧ 2 ≤ sig.length ∧ sig.length ≤ 100
        ∧ bip34CheckCoinbaseHeight (coinbaseOf sig) 17 = true
        ∧ ¬ bip34CheckCoinbaseHeight (coinbaseOf sig) 18 = true := by
  obtain ⟨sig, built, low, high, passes⟩ := bip34_heights.2 17 5 (by decide) (by decide)
  have own : bip34CheckCoinbaseHeight (coinbaseOf sig) 17 = true := passes _ _ [] rfl rfl
  refine ⟨sig, built, low, high, own, ?_⟩
  intro other
  have same := bip34_heights.1 (coinbaseOf sig) 17 18 (by decide) (by decide) own other
  exact absurd same (by decide)

end Z23.Consensus
