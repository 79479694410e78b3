import Z23.Lib.Bytes
import Z23.Primitives

/-!
What the byte stream writes and reads: discriminants, hashes and compact sizes. A writer gives its
bytes, and a reader takes them off the front of the unread ones.
-/

namespace Z23

open Z23.Lib.Bytes

def streamReadU8 : Reader UInt8
  | [] => none
  | byte :: rest => some (byte, rest)

/-- Reads a little-endian integer of a width in bytes. -/
def streamReadLE (width : Nat) : Reader Nat := fun bytes => do
  let (front, rest) ← takeBytes width bytes
  some (natLE front, rest)

def streamWriteCompactSize (size : Nat) : List UInt8 :=
  if size < 253 then [UInt8.ofNat size]
  else if size ≤ 0xffff then 253 :: bytesLE 2 size
  else if size ≤ 0xffffffff then 254 :: bytesLE 4 size
  else 255 :: bytesLE 8 size

/-- Reads a compact size; longer encodings than needed are read as well. -/
def streamReadCompactSize : Reader Nat := fun bytes => do
  let (marker, rest) ← streamReadU8 bytes
  if marker < 253 then some (marker.toNat, rest)
  else if marker = 253 then streamReadLE 2 rest
  else if marker = 254 then streamReadLE 4 rest
  else streamReadLE 8 rest

def streamReadHash : Reader Uint256 := fun bytes =>
  match h : takeBytes 32 bytes with
  | none => none
  | some (front, rest) => some (⟨front, takeBytes_length h⟩, rest)

/-- An optional hash: a discriminant, then the hash if there is one. -/
def writeOptionalHash : Option Uint256 → List UInt8
  | none => [0]
  | some hash => 1 :: hash.data

def readOptionalHash : Reader (Option Uint256) := fun bytes => do
  let (disc, rest) ← streamReadU8 bytes
  if disc = 0 then some (none, rest)
  else do
    let (hash, rest) ← streamReadHash rest
    some (some hash, rest)

theorem streamReadLE_bytesLE {width value : Nat} (fits : value < 256 ^ width) (rest : List UInt8)
    : streamReadLE width (bytesLE width value ++ rest) = some (value, rest) := by
  rw [streamReadLE, takeBytes_bytesLE]
  simp only [Option.bind_eq_bind, Option.bind_some, natLE_bytesLE fits]

theorem streamReadCompactSize_write {size : Nat} (fits : size < 2 ^ 64) (rest : List UInt8)
    : streamReadCompactSize (streamWriteCompactSize size ++ rest) = some (size, rest) := by
  rw [streamWriteCompactSize]
  split
  · rename_i small
    have byte : UInt8.ofNat size < 253 := by
      rw [UInt8.lt_iff_toNat_lt, UInt8.toNat_ofNat', Nat.mod_eq_of_lt (by omega)]
      exact small
    have same : (UInt8.ofNat size).toNat = size := by
      rw [UInt8.toNat_ofNat', Nat.mod_eq_of_lt (by omega)]
    simp [streamReadCompactSize, streamReadU8, byte, same]
  split
  · exact streamReadLE_bytesLE (show size < 256 ^ 2 by omega) rest
  split
  · exact streamReadLE_bytesLE (show size < 256 ^ 4 by omega) rest
  · exact streamReadLE_bytesLE (show size < 256 ^ 8 by omega) rest

theorem streamWriteCompactSize_pos (size : Nat) : 1 ≤ (streamWriteCompactSize size).length := by
  rw [streamWriteCompactSize]
  split
  · exact Nat.le_refl _
  · split
    · exact Nat.le_add_left _ _
    · split <;> exact Nat.le_add_left _ _

theorem streamReadHash_data : ReadsBack streamReadHash Uint256.data := by
  intro hash rest
  have taken := takeBytes_append hash.size_data rest
  rw [streamReadHash]
  split
  · simp_all
  · rename_i front tail found
    rw [taken] at found
    cases found
    rfl

theorem readOptionalHash_write : ReadsBack readOptionalHash writeOptionalHash := by
  intro hash rest
  rcases hash with _ | hash
  · rfl
  · have back := streamReadHash_data hash rest
    simp [writeOptionalHash, readOptionalHash, streamReadU8, back]

end Z23
