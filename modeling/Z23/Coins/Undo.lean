import Z23.Consensus.CoinsMath
import Z23.Core.Varint
import Z23.Lib.Codec
import Z23.Script.SigOps

/-!
Undo records of blocks: the outputs that a block spent, with their amounts and scripts compressed.
Four shapes of scripts are stored by a tag below six and a payload of fixed size, every other script
by its length plus six and its bytes.
-/

namespace Z23.Coins

open Z23.Lib.Bytes
open Z23.Lib.Codec
open Z23.Consensus
open Z23.Script

-- Public keys

/-- What the keys take from the curve library: parsing and the uncompressed serialization. -/
structure Curve where
  Point : Type
  parse : List UInt8 → Option Point
  serializeUncompressed : Point → List UInt8

def publicKeySize : Nat := 65

/-- Models `pubkey_set`. -/
def pubkeySet (data : List UInt8) : List UInt8 := data.take publicKeySize

def pubkeyIsValid (pk : List UInt8) : Bool := pk.length > 0

def pubkeyIsFullyValid (curve : Curve) (pk : List UInt8) : Bool :=
  pubkeyIsValid pk && (curve.parse pk).isSome

def pubkeyDecompress (curve : Curve) (pk : List UInt8) : Option (List UInt8) :=
  if !pubkeyIsValid pk then none
  else do
    let pubkey ← curve.parse pk
    some (pubkeySet (curve.serializeUncompressed pubkey))

-- Compressed scripts

def scriptIsP2pkh (s : Z23.Script) : Bool :=
  s.length == 25 && s.getD 0 0 == opDup && s.getD 1 0 == opHash160 && s.getD 2 0 == 0x14
    && s.getD 23 0 == opEqualverify && s.getD 24 0 == opChecksig

def scriptIsCompressedP2pk (s : Z23.Script) : Bool :=
  s.length == 35 && s.getD 0 0 == 33 && s.getD 34 0 == opChecksig
    && (s.getD 1 0 == 0x02 || s.getD 1 0 == 0x03)

def scriptIsUncompressedP2pkPattern (s : Z23.Script) : Bool :=
  s.length == 67 && s.getD 0 0 == 65 && s.getD 66 0 == opChecksig && s.getD 1 0 == 0x04

def coinsMathScriptCompress (curve : Curve) (s : Z23.Script) : Option (List UInt8) :=
  if scriptIsP2pkh s then some (0x00 :: (s.drop 3).take 20)
  else if scriptIsP2sh s then some (0x01 :: (s.drop 2).take 20)
  else if scriptIsCompressedP2pk s then some (s.getD 1 0 :: (s.drop 2).take 32)
  else if scriptIsUncompressedP2pkPattern s then
    let pk := pubkeySet ((s.drop 1).take 65)
    if !pubkeyIsFullyValid curve pk then none
    -- Byte 64 is the last but one of the key.
    else some ((0x04 ||| (s.getD 64 0 &&& 0x01)) :: (s.drop 2).take 32)
  else none

def coinsMathScriptDecompress (curve : Curve) (nSize : Nat) (payload : List UInt8)
    : Option Z23.Script :=
  match nSize with
  | 0x00 => some ([opDup, opHash160, 20] ++ payload.take 20 ++ [opEqualverify, opChecksig])
  | 0x01 => some ([opHash160, 20] ++ payload.take 20 ++ [opEqual])
  | 0x02 => some ([33, 0x02] ++ payload.take 32 ++ [opChecksig])
  | 0x03 => some ([33, 0x03] ++ payload.take 32 ++ [opChecksig])
  | 0x04 => uncompressed 0x02 payload
  | 0x05 => uncompressed 0x03 payload
  | _ => none
where
  uncompressed (sign : UInt8) (payload : List UInt8) : Option Z23.Script := do
    let pk ← pubkeyDecompress curve (pubkeySet (sign :: payload.take 32))
    if pk.length ≠ 65 then none
    else some (65 :: pk.take 65 ++ [opChecksig])

def coinsMathScriptCompressSpecialSize (nSize : Nat) : Nat :=
  if nSize = 0 ∨ nSize = 1 then 20
  else if nSize = 2 ∨ nSize = 3 ∨ nSize = 4 ∨ nSize = 5 then 32
  else 0

-- Undo records

def scriptCompressSpecialScripts : Nat := 6

structure TxInUndo where
  txout : TxOut
  coinbase : Bool := false
  height : UInt32 := 0
  version : Int32 := 0
deriving DecidableEq, Repr

structure TxUndo where
  vprevout : List TxInUndo := []
deriving DecidableEq, Repr

structure BlockUndo where
  vtxundo : List TxUndo := []
  oldSproutTreeRoot : Uint256
deriving DecidableEq, Repr

section

variable (curve : Curve)

def compressedScriptSerialize (script : Z23.Script) : List UInt8 :=
  match coinsMathScriptCompress curve script with
  | some comp => comp
  | none =>
    streamWriteVarint (UInt64.ofNat (script.length + scriptCompressSpecialScripts)) ++ script

def compressedTxoutSerialize (txout : TxOut) : List UInt8 :=
  streamWriteVarint (coinsMathCompressAmount txout.value.toUInt64)
    ++ compressedScriptSerialize curve txout.scriptPubKey

def compressedScriptDeserialize : Reader Z23.Script := fun bytes => do
  let (nSize, bytes) ← streamReadVarint bytes
  if nSize.toNat < scriptCompressSpecialScripts then do
    let specialSz := coinsMathScriptCompressSpecialSize nSize.toNat
    if specialSz = 0 then none
    else do
      let (buf, bytes) ← takeBytes specialSz bytes
      let script ← coinsMathScriptDecompress curve nSize.toNat buf
      some (script, bytes)
  else do
    let scriptLen := nSize.toNat - scriptCompressSpecialScripts
    if scriptLen > Z23.maxScriptSize then none
    else takeBytes scriptLen bytes

def compressedTxoutDeserialize : Reader TxOut := fun bytes => do
  let (compressedVal, bytes) ← streamReadVarint bytes
  let (script, bytes) ← compressedScriptDeserialize curve bytes
  some (⟨(coinsMathDecompressAmount compressedVal).toInt64, script⟩, bytes)

def txInUndoSerialize (u : TxInUndo) : List UInt8 :=
  streamWriteVarint (u.height.toUInt64 * 2 + if u.coinbase then 1 else 0)
    -- The version is converted to an unsigned word of 64 bits, its sign extended.
    ++ (if u.height > 0 then streamWriteVarint u.version.toInt64.toUInt64 else [])
    ++ compressedTxoutSerialize curve u.txout

/-- The entry that is read into was zeroed, so the version stays zero where none is read. -/
def txInUndoDeserialize : Reader TxInUndo := fun bytes => do
  let (code, bytes) ← streamReadVarint bytes
  let height := (code / 2).toUInt32
  let coinbase := code &&& 1 != 0
  if height > 0 then do
    let (v, bytes) ← streamReadVarint bytes
    let (txout, bytes) ← compressedTxoutDeserialize curve bytes
    some (⟨txout, coinbase, height, v.toUInt32.toInt32⟩, bytes)
  else do
    let (txout, bytes) ← compressedTxoutDeserialize curve bytes
    some (⟨txout, coinbase, height, 0⟩, bytes)

def txUndoSerialize (u : TxUndo) : List UInt8 :=
  streamWriteCompactSize u.vprevout.length ++ u.vprevout.flatMap (txInUndoSerialize curve)

def txUndoDeserialize : Reader TxUndo := fun bytes => do
  let (n, bytes) ← streamReadCompactSize bytes
  if n > bytes.length / 3 then none
  else do
    let (vprevout, bytes) ← readMany (txInUndoDeserialize curve) n bytes
    some (⟨vprevout⟩, bytes)

def blockUndoSerialize (u : BlockUndo) : List UInt8 :=
  streamWriteCompactSize u.vtxundo.length ++ u.vtxundo.flatMap (txUndoSerialize curve)
    ++ u.oldSproutTreeRoot.data

def blockUndoDeserialize : Reader BlockUndo := fun bytes => do
  let (n, bytes) ← streamReadCompactSize bytes
  if n > bytes.length then none
  else do
    let (vtxundo, bytes) ← readMany (txUndoDeserialize curve) n bytes
    let (oldSproutTreeRoot, bytes) ← streamReadHash bytes
    some (⟨vtxundo, oldSproutTreeRoot⟩, bytes)

end

-- Shapes of scripts

theorem drop_getD {s : List UInt8} {n : Nat} (inside : n < s.length)
    : s.drop n = s.getD n 0 :: s.drop (n + 1) := by
  rw [List.drop_eq_getElem_cons inside, List.getD_eq_getElem?_getD,
    List.getElem?_eq_getElem inside, Option.getD_some]

theorem drop_take_drop (s : List UInt8) (start count : Nat)
    : s.drop start = (s.drop start).take count ++ s.drop (start + count) := by
  rw [← List.drop_drop, List.take_append_drop]

theorem shaped_of_ends {s front back : List UInt8} {size : Nat}
    (starts : s.drop 0 = front ++ s.drop front.length) (ends : s.drop (front.length + size) = back)
    : s = front ++ (s.drop front.length).take size ++ back := by
  rw [List.append_assoc, ← ends, ← drop_take_drop]
  exact starts

theorem length_payload {s : List UInt8} {start size : Nat} (long : start + size ≤ s.length)
    : ((s.drop start).take size).length = size := by
  rw [List.length_take, List.length_drop]
  omega

variable {s : Z23.Script}

theorem scriptIsP2pkh_shaped (shape : scriptIsP2pkh s = true)
    : s = [opDup, opHash160, 20] ++ (s.drop 3).take 20 ++ [opEqualverify, opChecksig]
      ∧ ((s.drop 3).take 20).length = 20 := by
  simp only [scriptIsP2pkh, Bool.and_eq_true, beq_iff_eq] at shape
  obtain ⟨⟨⟨⟨⟨length, dup⟩, hash⟩, push⟩, verify⟩, checksig⟩ := shape
  have starts : s.drop 0 = [opDup, opHash160, 20] ++ s.drop 3 := by
    rw [drop_getD (by omega), drop_getD (by omega), drop_getD (by omega), dup, hash, push]
    rfl
  have ends : s.drop 23 = [opEqualverify, opChecksig] := by
    rw [drop_getD (by omega), drop_getD (by omega), verify, checksig,
      List.drop_eq_nil_of_le (Nat.le_of_eq length)]
  exact ⟨shaped_of_ends starts ends, length_payload (by omega)⟩

theorem scriptIsP2sh_shaped (shape : scriptIsP2sh s = true)
    : s = [opHash160, 20] ++ (s.drop 2).take 20 ++ [opEqual]
      ∧ ((s.drop 2).take 20).length = 20 := by
  simp only [scriptIsP2sh, Bool.and_eq_true, beq_iff_eq] at shape
  obtain ⟨⟨⟨length, hash⟩, push⟩, equal⟩ := shape
  have starts : s.drop 0 = [opHash160, 20] ++ s.drop 2 := by
    rw [drop_getD (by omega), drop_getD (by omega), hash, push]
    rfl
  have ends : s.drop 22 = [opEqual] := by
    rw [drop_getD (by omega), equal, List.drop_eq_nil_of_le (Nat.le_of_eq length)]
  exact ⟨shaped_of_ends starts ends, length_payload (by omega)⟩

theorem scriptIsCompressedP2pk_shaped (shape : scriptIsCompressedP2pk s = true)
    : s = [33, s.getD 1 0] ++ (s.drop 2).take 32 ++ [opChecksig]
      ∧ ((s.drop 2).take 32).length = 32
      ∧ (s.getD 1 0 = 0x02 ∨ s.getD 1 0 = 0x03) := by
  simp only [scriptIsCompressedP2pk, Bool.and_eq_true, Bool.or_eq_true, beq_iff_eq] at shape
  obtain ⟨⟨⟨length, push⟩, checksig⟩, sign⟩ := shape
  have starts : s.drop 0 = [33, s.getD 1 0] ++ s.drop 2 := by
    rw [drop_getD (by omega), drop_getD (by omega), push]
    rfl
  have ends : s.drop 34 = [opChecksig] := by
    rw [drop_getD (by omega), checksig, List.drop_eq_nil_of_le (Nat.le_of_eq length)]
  exact ⟨shaped_of_ends starts ends, length_payload (by omega), sign⟩

theorem scriptIsUncompressedP2pkPattern_shaped (shape : scriptIsUncompressedP2pkPattern s = true)
    : s = [65, 0x04] ++ ((s.drop 2).take 32 ++ (s.drop 34).take 32) ++ [opChecksig]
      ∧ ((s.drop 2).take 32).length = 32
      ∧ ((s.drop 34).take 32).length = 32 := by
  simp only [scriptIsUncompressedP2pkPattern, Bool.and_eq_true, beq_iff_eq] at shape
  obtain ⟨⟨⟨length, push⟩, checksig⟩, sign⟩ := shape
  have starts : s.drop 0 = [65, 0x04] ++ s.drop 2 := by
    rw [drop_getD (by omega), drop_getD (by omega), push, sign]
    rfl
  have ends : s.drop 66 = [opChecksig] := by
    rw [drop_getD (by omega), checksig, List.drop_eq_nil_of_le (Nat.le_of_eq length)]
  have coordinates : (s.drop 2).take 64 = (s.drop 2).take 32 ++ (s.drop 34).take 32 := by
    rw [← List.take_append_drop 32 ((s.drop 2).take 64), List.take_take, List.drop_take,
      List.drop_drop]
    rfl
  rw [← coordinates]
  exact ⟨shaped_of_ends starts ends, length_payload (by omega), length_payload (by omega)⟩

-- Scripts come back

/-- Decompression gives back a valid key from its first coordinate and the parity of the second. -/
def Recovers (curve : Curve) : Prop :=
  ∀ x y : List UInt8, x.length = 32 → y.length = 32 →
    pubkeyIsFullyValid curve (0x04 :: x ++ y) = true →
    pubkeyDecompress curve ((0x02 ||| (y.getD 31 0 &&& 0x01)) :: x) = some (0x04 :: x ++ y)

/-- Where the key of a script is compressed, the byte it takes the parity from has the parity of the
last byte of the key. -/
def ParityStored (curve : Curve) (s : Z23.Script) : Prop :=
  scriptIsUncompressedP2pkPattern s = true →
    pubkeyIsFullyValid curve ((s.drop 1).take 65) = true →
    s.getD 64 0 &&& 0x01 = s.getD 65 0 &&& 0x01

section

variable {curve : Curve}

theorem streamReadVarint_tag {tag : UInt8} (special : tag.toNat < scriptCompressSpecialScripts)
    (rest : List UInt8) : streamReadVarint (tag :: rest) = some (tag.toUInt64, rest) := by
  have tags : tag = 0 ∨ tag = 1 ∨ tag = 2 ∨ tag = 3 ∨ tag = 4 ∨ tag = 5 := by
    simp only [← UInt8.toNat_inj, UInt8.reduceToNat]
    rw [scriptCompressSpecialScripts] at special
    omega
  rcases tags with rfl | rfl | rfl | rfl | rfl | rfl
  all_goals rfl

theorem compressedScriptDeserialize_special {tag : UInt8} {payload script : List UInt8}
    (special : tag.toNat < scriptCompressSpecialScripts)
    (size : payload.length = coinsMathScriptCompressSpecialSize tag.toNat)
    (expands : coinsMathScriptDecompress curve tag.toNat payload = some script) (rest : List UInt8)
    : compressedScriptDeserialize curve (tag :: payload ++ rest) = some (script, rest) := by
  have positive : coinsMathScriptCompressSpecialSize tag.toNat ≠ 0 := by
    rw [coinsMathScriptCompressSpecialSize]
    rw [scriptCompressSpecialScripts] at special
    split <;> [decide; split <;> [decide; omega]]
  rw [compressedScriptDeserialize, List.cons_append, streamReadVarint_tag special]
  simp only [Option.bind_eq_bind, Option.bind_some, UInt8.toNat_toUInt64, if_pos special,
    if_neg positive, takeBytes_append size, expands]

variable {script : Z23.Script}

theorem compressedScriptDeserialize_raw (short : script.length ≤ Z23.maxScriptSize)
    (rest : List UInt8)
    : compressedScriptDeserialize curve
        (streamWriteVarint (UInt64.ofNat (script.length + scriptCompressSpecialScripts))
          ++ script ++ rest)
      = some (script, rest) := by
  have value : (UInt64.ofNat (script.length + scriptCompressSpecialScripts)).toNat
      = script.length + scriptCompressSpecialScripts := by
    simp only [Z23.maxScriptSize] at short
    rw [UInt64.toNat_ofNat', scriptCompressSpecialScripts]
    omega
  have large : ¬ script.length + scriptCompressSpecialScripts < scriptCompressSpecialScripts := by
    omega
  rw [compressedScriptDeserialize, List.append_assoc, streamReadVarint_write]
  simp only [Option.bind_eq_bind, Option.bind_some, value, if_neg large, Nat.add_sub_cancel,
    if_neg (Nat.not_lt.mpr short)]
  exact takeBytes_append rfl rest

theorem uncompressed_back (recovers : Recovers curve) {x y : List UInt8} (xSize : x.length = 32)
    (ySize : y.length = 32) (valid : pubkeyIsFullyValid curve (0x04 :: x ++ y) = true)
    : coinsMathScriptDecompress.uncompressed curve (0x02 ||| (y.getD 31 0 &&& 0x01)) x
      = some ([65, 0x04] ++ (x ++ y) ++ [opChecksig]) := by
  have whole : (0x04 :: x ++ y : List UInt8).length = 65 := by
    simp [xSize, ySize]
  have coordinate : x.take 32 = x := List.take_of_length_le (Nat.le_of_eq xSize)
  have key : pubkeySet ((0x02 ||| (y.getD 31 0 &&& 0x01)) :: x)
      = (0x02 ||| (y.getD 31 0 &&& 0x01)) :: x := by
    apply List.take_of_length_le
    simp [xSize, publicKeySize]
  rw [coinsMathScriptDecompress.uncompressed, coordinate, key, recovers x y xSize ySize valid]
  simp only [Option.bind_eq_bind, Option.bind_some, whole, ne_eq, not_true_eq_false, if_false,
    List.take_of_length_le (Nat.le_of_eq whole)]
  simp

/-- A compressed script: a tag and the payload that the tag expands to the script. -/
structure Compressed (curve : Curve) (script : Z23.Script) (tag : UInt8) (payload : List UInt8)
    : Prop where
  special : tag.toNat < scriptCompressSpecialScripts
  size : payload.length = coinsMathScriptCompressSpecialSize tag.toNat
  expands : coinsMathScriptDecompress curve tag.toNat payload = some script

theorem compressed_p2pkh (shape : scriptIsP2pkh script = true)
    : Compressed curve script 0x00 ((script.drop 3).take 20) := by
  obtain ⟨whole, size⟩ := scriptIsP2pkh_shaped shape
  refine { special := by decide, size := size, expands := ?_ }
  refine congrArg some (Eq.trans ?_ whole.symm)
  rw [List.take_of_length_le (Nat.le_of_eq size)]

theorem compressed_p2sh (shape : scriptIsP2sh script = true)
    : Compressed curve script 0x01 ((script.drop 2).take 20) := by
  obtain ⟨whole, size⟩ := scriptIsP2sh_shaped shape
  refine { special := by decide, size := size, expands := ?_ }
  refine congrArg some (Eq.trans ?_ whole.symm)
  rw [List.take_of_length_le (Nat.le_of_eq size)]

theorem compressed_compressedP2pk (shape : scriptIsCompressedP2pk script = true)
    : Compressed curve script (script.getD 1 0) ((script.drop 2).take 32) := by
  obtain ⟨whole, size, sign | sign⟩ := scriptIsCompressedP2pk_shaped shape
  all_goals
    rw [sign] at whole ⊢
    refine { special := by decide, size := size, expands := ?_ }
    refine congrArg some (Eq.trans ?_ whole.symm)
    rw [List.take_of_length_le (Nat.le_of_eq size)]

/-- The tag of an uncompressed key is the sign of its compressed form and two more. -/
theorem tag_of_parity (byte : UInt8)
    : (0x04 ||| (byte &&& 0x01) = 0x04 ∧ 0x02 ||| (byte &&& 0x01) = 0x02)
      ∨ (0x04 ||| (byte &&& 0x01) = 0x05 ∧ 0x02 ||| (byte &&& 0x01) = 0x03) := by
  obtain ⟨⟨byte⟩⟩ := byte
  revert byte
  decide +kernel

theorem key_of_coordinates {s x y : List UInt8} (xSize : x.length = 32) (ySize : y.length = 32)
    (whole : s = [65, 0x04] ++ (x ++ y) ++ [opChecksig])
    : (s.drop 1).take 65 = 0x04 :: x ++ y ∧ y.getD 31 0 = s.getD 65 0 := by
  subst whole
  constructor
  · have size : (0x04 :: x ++ y : List UInt8).length = 65 := by simp [xSize, ySize]
    rw [← size]
    exact List.take_left
  · simp [xSize, ySize]

theorem compressed_uncompressedP2pk (recovers : Recovers curve) (parity : ParityStored curve script)
    (shape : scriptIsUncompressedP2pkPattern script = true)
    (valid : pubkeyIsFullyValid curve (pubkeySet ((script.drop 1).take 65)) = true)
    : Compressed curve script (0x04 ||| (script.getD 64 0 &&& 0x01))
        ((script.drop 2).take 32) := by
  obtain ⟨whole, xSize, ySize⟩ := scriptIsUncompressedP2pkPattern_shaped shape
  have key : pubkeySet ((script.drop 1).take 65) = (script.drop 1).take 65 :=
    List.take_of_length_le (List.length_take_le _ _)
  rw [key] at valid
  have same := parity shape valid
  obtain ⟨coordinates, last⟩ := key_of_coordinates xSize ySize whole
  rw [coordinates] at valid
  have back := uncompressed_back recovers xSize ySize valid
  rw [last, ← same, ← whole] at back
  rcases tag_of_parity (script.getD 64 0) with ⟨tag, sign⟩ | ⟨tag, sign⟩
  all_goals
    rw [sign] at back
    rw [tag]
    exact { special := by decide, size := xSize, expands := back }

theorem compressed_of_compress (recovers : Recovers curve) (parity : ParityStored curve script)
    {comp : List UInt8} (compresses : coinsMathScriptCompress curve script = some comp)
    : ∃ tag payload, comp = tag :: payload ∧ Compressed curve script tag payload := by
  rw [coinsMathScriptCompress] at compresses
  split at compresses
  · rename_i shape
    exact ⟨_, _, (Option.some.inj compresses).symm, compressed_p2pkh shape⟩
  split at compresses
  · rename_i shape
    exact ⟨_, _, (Option.some.inj compresses).symm, compressed_p2sh shape⟩
  split at compresses
  · rename_i shape
    exact ⟨_, _, (Option.some.inj compresses).symm, compressed_compressedP2pk shape⟩
  split at compresses
  · rename_i shape
    dsimp only at compresses
    split at compresses
    · cases compresses
    · rename_i valid
      rw [Bool.not_eq_true', Bool.not_eq_false] at valid
      exact ⟨_, _, (Option.some.inj compresses).symm,
        compressed_uncompressedP2pk recovers parity shape valid⟩
  · cases compresses

theorem compressedScript_back (recovers : Recovers curve)
    (short : script.length ≤ Z23.maxScriptSize) (parity : ParityStored curve script)
    (rest : List UInt8)
    : compressedScriptDeserialize curve (compressedScriptSerialize curve script ++ rest)
      = some (script, rest) := by
  rw [compressedScriptSerialize]
  split
  · rename_i comp compresses
    obtain ⟨tag, payload, rfl, special, size, expands⟩ :=
      compressed_of_compress recovers parity compresses
    exact compressedScriptDeserialize_special special size expands rest
  · exact compressedScriptDeserialize_raw short rest

-- Records come back

/-- A spent output as valid blocks have it. -/
structure Spendable (curve : Curve) (txout : TxOut) : Prop where
  nonnegative : 0 ≤ txout.value
  money : txout.value ≤ maxMoney
  short : txout.scriptPubKey.length ≤ Z23.maxScriptSize
  parity : ParityStored curve txout.scriptPubKey

theorem amount_back {value : Int64} (nonnegative : 0 ≤ value) (money : value ≤ maxMoney)
    : (coinsMathDecompressAmount (coinsMathCompressAmount value.toUInt64)).toInt64 = value := by
  have small : value.toUInt64.toNat ≤ maxAmount := by
    have cap : maxMoney.toInt = 2100000000000000 := by decide
    rw [Int64.le_iff_toInt_le] at nonnegative money
    have positive : value.toBitVec.msb = false := by
      rw [BitVec.msb_eq_toInt]
      exact decide_eq_false (Int.not_lt.mpr nonnegative)
    have same : value.toInt = value.toUInt64.toNat := BitVec.toInt_eq_toNat_of_msb positive
    rw [maxAmount]
    omega
  rw [(lossless_of_le small).back]
  exact Int64.toInt64_toUInt64 value

theorem compressedTxout_back (recovers : Recovers curve)
    : ReadsBackOn (Spendable curve) (compressedTxoutDeserialize curve)
        (compressedTxoutSerialize curve) := by
  intro txout spendable rest
  have script := compressedScript_back recovers spendable.short spendable.parity rest
  have value := amount_back spendable.nonnegative spendable.money
  rw [compressedTxoutSerialize, compressedTxoutDeserialize, List.append_assoc,
    streamReadVarint_write]
  simp only [Option.bind_eq_bind, Option.bind_some, script, value]

theorem code_back {height : UInt32} {coinbase : Bool} {code : UInt64}
    (packs : code = height.toUInt64 * 2 + if coinbase then 1 else 0)
    : (code / 2).toUInt32 = height ∧ (code &&& 1 != 0) = coinbase := by
  have bound := height.toNat_lt
  have value : code.toNat = height.toNat * 2 + if coinbase then 1 else 0 := by
    rw [packs]
    cases coinbase <;> simp <;> omega
  have low : (code &&& 1).toNat = code.toNat % 2 := by
    rw [UInt64.toNat_and]
    exact Nat.and_two_pow_sub_one_eq_mod _ 1
  constructor
  · apply UInt32.toNat_inj.mp
    rw [UInt64.toNat_toUInt32, UInt64.toNat_div, value]
    cases coinbase with
    | false => simp
    | true =>
      simp
      omega
  · cases coinbase with
    | false => simp [← UInt64.toNat_inj, low, value]
    | true => simp [← UInt64.toNat_inj, low, value]

theorem version_back (version : Int32) : version.toInt64.toUInt64.toUInt32.toInt32 = version := by
  apply Int32.toBitVec_inj.mp
  change BitVec.setWidth 32 (BitVec.signExtend 64 version.toBitVec) = version.toBitVec
  ext i inside
  rw [BitVec.getElem_setWidth, BitVec.getLsbD_signExtend, if_pos inside,
    BitVec.getLsbD_eq_getElem inside]
  simp
  omega

/-- The version is stored with a positive height only, and comes back as zero without one. -/
def TxInUndo.restored (u : TxInUndo) : TxInUndo :=
  { u with version := if u.height > 0 then u.version else 0 }

theorem txInUndo_back (recovers : Recovers curve) {u : TxInUndo}
    (spendable : Spendable curve u.txout) (rest : List UInt8)
    : txInUndoDeserialize curve (txInUndoSerialize curve u ++ rest) = some (u.restored, rest) := by
  have txout := compressedTxout_back recovers u.txout spendable rest
  obtain ⟨height, coinbase⟩ := @code_back u.height u.coinbase _ rfl
  rw [txInUndoSerialize, txInUndoDeserialize, List.append_assoc, List.append_assoc,
    streamReadVarint_write]
  simp only [Option.bind_eq_bind, Option.bind_some, height, coinbase, TxInUndo.restored]
  by_cases known : u.height > 0
  · simp only [if_pos known, streamReadVarint_write _ _, Option.bind_some, txout, version_back]
  · simp only [if_neg known, List.nil_append, txout, Option.bind_some]

theorem length_compressedScriptSerialize (script : Z23.Script)
    : 0 < (compressedScriptSerialize curve script).length := by
  rw [compressedScriptSerialize]
  split
  · rename_i comp compresses
    simp only [coinsMathScriptCompress] at compresses
    repeat' split at compresses
    all_goals cases compresses
    all_goals exact Nat.succ_pos _
  · rw [List.length_append]
    exact Nat.add_pos_left (length_streamWriteVarint _) _

theorem length_txInUndoSerialize (u : TxInUndo) : 3 ≤ (txInUndoSerialize curve u).length := by
  have code := length_streamWriteVarint (u.height.toUInt64 * 2 + if u.coinbase then 1 else 0)
  have amount := length_streamWriteVarint (coinsMathCompressAmount u.txout.value.toUInt64)
  have script := @length_compressedScriptSerialize curve u.txout.scriptPubKey
  rw [txInUndoSerialize, compressedTxoutSerialize]
  simp only [List.length_append]
  omega

/-- Counts are words, and every spent output is one of a valid block. -/
structure TxUndo.Storable (curve : Curve) (u : TxUndo) : Prop where
  count : u.vprevout.length < 2 ^ 64
  spendable : ∀ entry ∈ u.vprevout, Spendable curve entry.txout

def TxUndo.restored (u : TxUndo) : TxUndo := ⟨u.vprevout.map TxInUndo.restored⟩

theorem txUndo_back (recovers : Recovers curve) {u : TxUndo} (storable : u.Storable curve)
    (rest : List UInt8)
    : txUndoDeserialize curve (txUndoSerialize curve u ++ rest) = some (u.restored, rest) := by
  have room : ¬ u.vprevout.length
      > (u.vprevout.flatMap (txInUndoSerialize curve) ++ rest).length / 3 := by
    have bytes := length_flatMap_ge fun entry (_ : entry ∈ u.vprevout) =>
      @length_txInUndoSerialize curve entry
    rw [List.length_append]
    omega
  have entries := readMany_map
    (fun entry member => txInUndo_back recovers (storable.spendable entry member)) rest
  rw [txUndoSerialize, txUndoDeserialize, List.append_assoc,
    streamReadCompactSize_write storable.count]
  simp only [Option.bind_eq_bind, Option.bind_some, if_neg room, entries]
  rfl

structure BlockUndo.Storable (curve : Curve) (u : BlockUndo) : Prop where
  count : u.vtxundo.length < 2 ^ 64
  transactions : ∀ txundo ∈ u.vtxundo, txundo.Storable curve

def BlockUndo.restored (u : BlockUndo) : BlockUndo :=
  { u with vtxundo := u.vtxundo.map TxUndo.restored }

theorem length_txUndoSerialize (u : TxUndo) : 1 ≤ (txUndoSerialize curve u).length := by
  rw [txUndoSerialize, List.length_append]
  refine Nat.le_add_right_of_le ?_
  exact streamWriteCompactSize_pos _

/-- An undo record comes back and all its bytes are read. Versions come back where there is a
height, and are zero elsewhere. -/
theorem blockUndoDeserialize_serialize (recovers : Recovers curve) {u : BlockUndo}
    (storable : u.Storable curve) (rest : List UInt8)
    : blockUndoDeserialize curve (blockUndoSerialize curve u ++ rest)
      = some (u.restored, rest) := by
  have room : ¬ u.vtxundo.length
      > (u.vtxundo.flatMap (txUndoSerialize curve) ++ (u.oldSproutTreeRoot.data ++ rest)).length := by
    have bytes := length_flatMap_ge fun txundo (_ : txundo ∈ u.vtxundo) =>
      @length_txUndoSerialize curve txundo
    rw [List.length_append]
    omega
  have transactions := readMany_map
    (fun txundo member => txUndo_back recovers (storable.transactions txundo member))
    (u.oldSproutTreeRoot.data ++ rest)
  rw [blockUndoSerialize, blockUndoDeserialize, List.append_assoc, List.append_assoc,
    streamReadCompactSize_write storable.count]
  simp only [Option.bind_eq_bind, Option.bind_some, if_neg room, transactions,
    streamReadHash_data _ _]
  rfl

end

-- Keys of the curve

def generatorX : List UInt8 :=
  [0x79, 0xbe, 0x66, 0x7e, 0xf9, 0xdc, 0xbb, 0xac, 0x55, 0xa0, 0x62, 0x95, 0xce, 0x87, 0x0b, 0x07,
    0x02, 0x9b, 0xfc, 0xdb, 0x2d, 0xce, 0x28, 0xd9, 0x59, 0xf2, 0x81, 0x5b, 0x16, 0xf8, 0x17, 0x98]

def generatorY : List UInt8 :=
  [0x48, 0x3a, 0xda, 0x77, 0x26, 0xa3, 0xc4, 0x65, 0x5d, 0xa4, 0xfb, 0xfc, 0x0e, 0x11, 0x08, 0xa8,
    0xfd, 0x17, 0xb4, 0x48, 0xa6, 0x85, 0x54, 0x19, 0x9c, 0x47, 0xd0, 0x8f, 0xfb, 0x10, 0xd4, 0xb8]

/-- The first coordinate of the doubled generator. -/
def doubledX : List UInt8 :=
  [0xc6, 0x04, 0x7f, 0x94, 0x41, 0xed, 0x7d, 0x6d, 0x30, 0x45, 0x40, 0x6e, 0x95, 0xc0, 0x7c, 0xd8,
    0x5c, 0x77, 0x8e, 0x4b, 0x8c, 0xef, 0x3c, 0xa7, 0xab, 0xac, 0x09, 0xb9, 0x5c, 0x70, 0x9e, 0xe5]

def doubledY : List UInt8 :=
  [0x1a, 0xe1, 0x68, 0xfe, 0xa6, 0x3d, 0xc3, 0x39, 0xa3, 0xc5, 0x84, 0x19, 0x46, 0x6c, 0xea, 0xee,
    0xf7, 0xf6, 0x32, 0x65, 0x32, 0x66, 0xd0, 0xe1, 0x23, 0x64, 0x31, 0xa9, 0x50, 0xcf, 0xe5, 0x2a]

/-- The second coordinate of the inverse of the doubled generator. -/
def inverseY : List UInt8 :=
  [0xe5, 0x1e, 0x97, 0x01, 0x59, 0xc2, 0x3c, 0xc6, 0x5c, 0x3a, 0x7b, 0xe6, 0xb9, 0x93, 0x15, 0x11,
    0x08, 0x09, 0xcd, 0x9a, 0xcd, 0x99, 0x2f, 0x1e, 0xdc, 0x9b, 0xce, 0x55, 0xaf, 0x30, 0x17, 0x05]

/-- The generator, its double and the inverse of its double. -/
def knownPoints : List (List UInt8 × List UInt8) :=
  [(generatorX, generatorY), (doubledX, doubledY), (doubledX, inverseY)]

/-- The curve with three of its points. -/
def knownCurve : Curve where
  Point := List UInt8 × List UInt8
  parse pk :=
    knownPoints.find? fun point =>
      pk == 0x04 :: point.1 ++ point.2
        || pk == (0x02 ||| (point.2.getD 31 0 &&& 0x01)) :: point.1
  serializeUncompressed point := 0x04 :: point.1 ++ point.2

theorem knownCurve_recovers : Recovers knownCurve := by
  intro x y xSize ySize valid
  rw [pubkeyIsFullyValid, Bool.and_eq_true, Option.isSome_iff_exists] at valid
  obtain ⟨point, parsed⟩ := valid.2
  have form := List.find?_some parsed
  have member := List.mem_of_find?_eq_some parsed
  have sizes : ∀ point ∈ knownPoints, point.1.length = 32 ∧ point.2.length = 32 := by decide
  have recovers : ∀ point ∈ knownPoints,
      pubkeyDecompress knownCurve ((0x02 ||| (point.2.getD 31 0 &&& 0x01)) :: point.1)
        = some (0x04 :: point.1 ++ point.2) := by decide
  obtain ⟨firstSize, secondSize⟩ := sizes point member
  rw [Bool.or_eq_true, beq_iff_eq, beq_iff_eq] at form
  rcases form with whole | sign
  · obtain ⟨rfl, rfl⟩ := List.append_inj (List.cons.inj whole).2 (xSize.trans firstSize.symm)
    exact recovers _ member
  · have length := congrArg List.length sign
    simp [xSize, ySize, firstSize] at length

/-- The script that pays a key. -/
def keyScript (x y : List UInt8) : Z23.Script := 65 :: 0x04 :: (x ++ y) ++ [opChecksig]

/-- A coinbase output and one that pays a key, both of known height but the second. -/
def twoSpent : BlockUndo where
  vtxundo := [{
    vprevout := [
      { txout := ⟨1250000000, [opDup, opHash160, 20] ++ List.replicate 20 7
          ++ [opEqualverify, opChecksig]⟩
        coinbase := true
        height := 707000
        version := -4 },
      { txout := ⟨2100000000000000, keyScript generatorX generatorY⟩ }] }]
  oldSproutTreeRoot := Uint256.fill 9

theorem blockUndoDeserialize_serialize_twoSpent
    : twoSpent.Storable knownCurve
      ∧ blockUndoDeserialize knownCurve (blockUndoSerialize knownCurve twoSpent)
        = some (twoSpent, []) := by
  have storable : twoSpent.Storable knownCurve := by
    refine { count := by decide, transactions := ?_ }
    intro txundo member
    obtain rfl := List.mem_singleton.mp member
    refine { count := by decide, spendable := ?_ }
    intro entry member
    rcases List.mem_pair.mp member with rfl | rfl
    · exact ⟨by decide, by decide, by decide, by unfold ParityStored; decide⟩
    · exact ⟨by decide, by decide, by decide, by unfold ParityStored; decide⟩
  have back := blockUndoDeserialize_serialize knownCurve_recovers storable []
  rw [List.append_nil] at back
  exact ⟨storable, back⟩

/-- One spent output, with its version and no height. -/
def oneSpent (version : Int32) (script : Z23.Script) : BlockUndo where
  vtxundo := [{ vprevout := [{ txout := ⟨0, script⟩, version := version }] }]
  oldSproutTreeRoot := Uint256.fill 0

/-- A version without a height is not stored; of the doubled generator the inverse comes back. -/
theorem blockUndoDeserialize_loses
    : (blockUndoDeserialize knownCurve (blockUndoSerialize knownCurve (oneSpent 1 []))
        = some (oneSpent 0 [], [])
        ∧ oneSpent 0 [] ≠ oneSpent 1 [])
      ∧ (blockUndoDeserialize knownCurve
          (blockUndoSerialize knownCurve (oneSpent 0 (keyScript doubledX doubledY)))
        = some (oneSpent 0 (keyScript doubledX inverseY), [])
        ∧ keyScript doubledX inverseY ≠ keyScript doubledX doubledY) := by
  refine ⟨⟨rfl, ?_⟩, rfl, ?_⟩
  · decide
  · decide

end Z23.Coins
