import Z23.Primitives

/-!
The record of an output in the SHA3 commitment, packed into one buffer or written field by field.
-/

namespace Z23.Coins

open Z23.Lib.Bytes

/-- An output as it is handed to the commitment; a script pointer may be null. -/
structure UtxoRecord where
  txid : Uint256
  vout : UInt32
  value : Int64
  script : Option (List UInt8)
  height : UInt32
  isCoinbase : UInt8
  fits : (script.getD []).length < 2 ^ 32

/-- The bytes of the script that are emitted. -/
def UtxoRecord.scriptBytes (r : UtxoRecord) : List UInt8 := r.script.getD []

def UtxoRecord.flag (r : UtxoRecord) : UInt8 := if r.isCoinbase ≠ 0 then 1 else 0

def sha3RecordMax (scriptLen : Nat) : Nat := (32 + 4 + 8 + 4) + scriptLen + (4 + 1)

/-- The record in a buffer of this capacity. -/
def sha3SerializeRecord (cap : Nat) (r : UtxoRecord) : Option (List UInt8) :=
  let slen := r.scriptBytes.length
  if cap < sha3RecordMax slen then none
  else some (r.txid.data ++ bytesLE 4 r.vout.toNat ++ bytesLE 8 r.value.toUInt64.toNat
    ++ bytesLE 4 slen ++ r.scriptBytes ++ bytesLE 4 r.height.toNat ++ [r.flag])

/-- A sponge by the bytes it has absorbed. -/
def sha3Write (absorbed bytes : List UInt8) : List UInt8 := absorbed ++ bytes

/-- The fields one after the other, for a script that is too large for the buffer. -/
def sha3StreamRecord (ctx : List UInt8) (r : UtxoRecord) : List UInt8 :=
  let slen := r.scriptBytes.length
  let ctx := sha3Write ctx r.txid.data
  let ctx := sha3Write ctx (bytesLE 4 r.vout.toNat)
  let ctx := sha3Write ctx (bytesLE 8 r.value.toUInt64.toNat)
  let ctx := sha3Write ctx (bytesLE 4 slen)
  let ctx := if slen > 0 then sha3Write ctx r.scriptBytes else ctx
  let ctx := sha3Write ctx (bytesLE 4 r.height.toNat)
  sha3Write ctx [r.flag]

def sha3WriteRecord (ctx : List UInt8) (r : UtxoRecord) : List UInt8 :=
  match sha3SerializeRecord (sha3RecordMax 1024) r with
  | some packed => sha3Write ctx packed
  | none => sha3StreamRecord ctx r

theorem sha3Write_packed {cap : Nat} {r : UtxoRecord} {packed : List UInt8}
    (made : sha3SerializeRecord cap r = some packed) (ctx : List UInt8)
    : sha3Write ctx packed = sha3StreamRecord ctx r := by
  simp only [sha3SerializeRecord] at made
  split at made
  · cases made
  · cases made
    simp only [sha3StreamRecord, sha3Write]
    split
    case isTrue => simp only [List.append_assoc]
    case isFalse none =>
      rw [List.length_eq_zero_iff.mp (Nat.eq_zero_of_not_pos none)]
      simp only [List.append_assoc, List.append_nil]

theorem sha3WriteRecord_eq (ctx : List UInt8) (r : UtxoRecord)
    : sha3WriteRecord ctx r = sha3StreamRecord ctx r := by
  rw [sha3WriteRecord]
  split
  case h_1 packed made => exact sha3Write_packed made ctx
  case h_2 => rfl

theorem bytesLE_append_inj {width a b : Nat} {aRest bRest : List UInt8} (aFits : a < 256 ^ width)
    (bFits : b < 256 ^ width) (same : bytesLE width a ++ aRest = bytesLE width b ++ bRest)
    : a = b ∧ aRest = bRest := by
  obtain ⟨bytes, rest⟩ := List.append_inj same (by rw [length_bytesLE, length_bytesLE])
  have numbers := congrArg natLE bytes
  rw [natLE_bytesLE aFits, natLE_bytesLE bFits] at numbers
  exact ⟨numbers, rest⟩

theorem sha3StreamRecord_eq (ctx : List UInt8) (r : UtxoRecord)
    : sha3StreamRecord ctx r = ctx ++ (r.txid.data ++ (bytesLE 4 r.vout.toNat
      ++ (bytesLE 8 r.value.toUInt64.toNat ++ (bytesLE 4 r.scriptBytes.length
      ++ (r.scriptBytes ++ (bytesLE 4 r.height.toNat ++ [r.flag])))))) := by
  have packed : sha3SerializeRecord (sha3RecordMax r.scriptBytes.length) r = some _ :=
    if_neg (Nat.lt_irrefl _)
  rw [← sha3Write_packed packed ctx, sha3Write]
  simp only [List.append_assoc]

theorem UtxoRecord.flag_inj {a b : UtxoRecord} (same : a.flag = b.flag)
    : a.isCoinbase ≠ 0 ↔ b.isCoinbase ≠ 0 := by
  simp only [flag] at same
  split_ifs at same with aSet bSet bSet
  · exact ⟨fun _ => bSet, fun _ => aSet⟩
  · exact absurd same (by decide)
  · exact absurd same (by decide)
  · exact ⟨fun set => absurd set aSet, fun set => absurd set bSet⟩

theorem sha3WriteRecord_unambiguous
    : (∀ ctx a b, sha3WriteRecord ctx a = sha3WriteRecord ctx b →
        a.txid = b.txid ∧ a.vout = b.vout ∧ a.value = b.value ∧ a.height = b.height ∧
        (a.isCoinbase ≠ 0 ↔ b.isCoinbase ≠ 0) ∧ a.scriptBytes = b.scriptBytes) ∧
      ∀ cap r packed ctx, sha3SerializeRecord cap r = some packed →
        sha3Write ctx packed = sha3StreamRecord ctx r := by
  refine ⟨fun ctx a b same => ?_, fun cap r packed ctx made => sha3Write_packed made ctx⟩
  rw [sha3WriteRecord_eq, sha3WriteRecord_eq, sha3StreamRecord_eq, sha3StreamRecord_eq] at same
  have same := List.append_cancel_left same
  obtain ⟨txid, same⟩ := List.append_inj same (a.txid.size_data.trans b.txid.size_data.symm)
  obtain ⟨vout, same⟩ := bytesLE_append_inj a.vout.toNat_lt b.vout.toNat_lt same
  obtain ⟨value, same⟩ :=
    bytesLE_append_inj a.value.toUInt64.toNat_lt b.value.toUInt64.toNat_lt same
  obtain ⟨length, same⟩ := bytesLE_append_inj a.fits b.fits same
  obtain ⟨script, same⟩ := List.append_inj same length
  obtain ⟨height, same⟩ := bytesLE_append_inj a.height.toNat_lt b.height.toNat_lt same
  refine ⟨Uint256.ext txid, UInt32.toNat_inj.mp vout, ?_, UInt32.toNat_inj.mp height,
    UtxoRecord.flag_inj (List.singleton_inj.mp same), script⟩
  exact congrArg Int64.ofUInt64 (UInt64.toNat_inj.mp value)

end Z23.Coins
