import Z23.Crypto.Blake2b
import Z23.Lib.BitGroups

/-!
The Equihash verifier: the solution is unpacked into indices, each index gives a row of hash bytes
followed by the index, and rounds of pairwise merges trim the rows to one that has to be zero.
Allocations succeed.
-/

namespace Z23.Crypto

open Z23.Lib.BitGroups

-- Parameters

structure EquihashParams where
  n : Nat
  k : Nat
  indicesPerHashOutput : Nat
  hashOutput : Nat
  collisionBitLength : Nat
  collisionByteLength : Nat
  hashLength : Nat
  finalFullWidth : Nat
  solutionWidth : Nat
deriving DecidableEq, Repr

def equihashParamsInit (n k : Nat) : EquihashParams :=
  let indicesPerHashOutput := 512 / n
  let collisionBitLength := n / (k + 1)
  let collisionByteLength := (collisionBitLength + 7) / 8
  { n := n
    k := k
    indicesPerHashOutput := indicesPerHashOutput
    hashOutput := indicesPerHashOutput * n / 8
    collisionBitLength := collisionBitLength
    collisionByteLength := collisionByteLength
    hashLength := (k + 1) * collisionByteLength
    finalFullWidth := 2 * collisionByteLength + 4 * 2 ^ k
    solutionWidth := 2 ^ k * (collisionBitLength + 1) / 8 }

def equihashSolutionParams : Nat → Option (Nat × Nat)
  | 1344 => some (200, 9)
  | 400 => some (192, 7)
  | 68 => some (96, 5)
  | 36 => some (48, 5)
  | _ => none

/-- The text `ZcashPoW` and the two parameters. -/
def equihashPersonal (p : EquihashParams) : List UInt8 :=
  [0x5a, 0x63, 0x61, 0x73, 0x68, 0x50, 0x6f, 0x57]
    ++ Lib.Bytes.bytesLE 4 p.n ++ Lib.Bytes.bytesLE 4 p.k

def equihashInitialiseState (p : EquihashParams) : Blake2bCtx :=
  blake2bInitPersonal p.hashOutput (equihashPersonal p)

def generateHash (base : Blake2bCtx) (g : UInt32) (hashLen : Nat) : List UInt8 :=
  hashScalar base g hashLen

-- Packing

def bitLenMask (bitLen : Nat) : Nat := (1 <<< bitLen) - 1

structure ExpandState where
  accBits : Nat := 0
  accValue : Nat := 0
  out : List UInt8 := []

/-- The bytes written for one group. -/
def expandedGroup (bitLen bytePad accBits accValue : Nat) : List UInt8 :=
  let outWidth := (bitLen + 7) / 8 + bytePad
  (List.range outWidth).map fun x =>
    if x < bytePad then 0
    else UInt8.ofNat ((accValue >>> (accBits + 8 * (outWidth - x - 1)))
      &&& ((bitLenMask bitLen >>> (8 * (outWidth - x - 1))) &&& 0xff))

def expandStep (bitLen bytePad : Nat) (st : ExpandState) (byte : UInt8) : ExpandState :=
  let accValue := (st.accValue <<< 8) % 2 ^ 32 ||| byte.toNat
  let accBits := st.accBits + 8
  if accBits ≥ bitLen then
    { accBits := accBits - bitLen
      accValue
      out := st.out ++ expandedGroup bitLen bytePad (accBits - bitLen) accValue }
  else { st with accBits, accValue }

def ehExpandArray (input : List UInt8) (bitLen bytePad : Nat) : List UInt8 :=
  (input.foldl (expandStep bitLen bytePad) {}).out

/-- The next group of the input put below the accumulator. -/
def loadGroup (bitLen bytePad accValue : Nat) (input : List UInt8) : Nat :=
  let inWidth := (bitLen + 7) / 8 + bytePad
  (List.range inWidth).foldl (fun acc x =>
    if x < bytePad then acc
    else acc ||| (((input.getD x 0).toNat
      &&& ((bitLenMask bitLen >>> (8 * (inWidth - x - 1))) &&& 0xff))
        <<< (8 * (inWidth - x - 1)))) ((accValue <<< bitLen) % 2 ^ 32)

/-- The loop of the packer over the output bytes that are left. -/
def compressLoop (bitLen bytePad : Nat) : Nat → Nat → Nat → List UInt8 → List UInt8
  | 0, _, _, _ => []
  | outLen + 1, accBits, accValue, input =>
    if accBits < 8 then
      let accValue := loadGroup bitLen bytePad accValue input
      let accBits := accBits + bitLen - 8
      UInt8.ofNat ((accValue >>> accBits) &&& 0xff)
        :: compressLoop bitLen bytePad outLen accBits accValue
          (input.drop ((bitLen + 7) / 8 + bytePad))
    else
      let accBits := accBits - 8
      UInt8.ofNat ((accValue >>> accBits) &&& 0xff)
        :: compressLoop bitLen bytePad outLen accBits accValue input

def ehCompressArray (input : List UInt8) (outLen bitLen bytePad : Nat) : List UInt8 :=
  compressLoop bitLen bytePad outLen 0 0 input

/-- An index in big-endian order. -/
def ehIndexToArray (i : UInt32) : List UInt8 := bytesBE 4 i.toNat

def ehArrayToIndex (array : List UInt8) : UInt32 := UInt32.ofNat (natBE (array.take 4))

def indexBytePad (collisionBitLen : Nat) : Nat := 4 - (collisionBitLen + 1 + 7) / 8

/-- The unpacked indices; `count` are asked for at most. -/
def ehGetIndicesFromMinimal (minimal : List UInt8) (collisionBitLen maxIndices : Nat)
    : List UInt32 :=
  let array := ehExpandArray minimal (collisionBitLen + 1) (indexBytePad collisionBitLen)
  let lenIndices := 8 * 4 * minimal.length / (collisionBitLen + 1)
  (List.range (min maxIndices ((lenIndices + 3) / 4))).map fun i =>
    ehArrayToIndex (array.drop (4 * i))

def ehGetMinimalFromIndices (indices : List UInt32) (collisionBitLen maxLen : Nat)
    : Option (List UInt8) :=
  let minLen := (collisionBitLen + 1) * (indices.length * 4) / (8 * 4)
  if minLen > maxLen then none
  else some (ehCompressArray (indices.flatMap ehIndexToArray) minLen (collisionBitLen + 1)
    (indexBytePad collisionBitLen))

-- Rows

/-- The used bytes of a row: its hash, then its indices. -/
structure EhRow where
  data : List UInt8
deriving DecidableEq, Repr

/-- The bytes of a row from a place on. -/
def EhRow.slice (row : EhRow) (start length : Nat) : List UInt8 :=
  (row.data.drop start).take length

def ehRowFromHash (hashIn : List UInt8) (collisionBitLen : Nat) (idx : UInt32) : EhRow :=
  ⟨ehExpandArray hashIn collisionBitLen 0 ++ ehIndexToArray idx⟩

def ehRowHasCollision (a b : EhRow) (collisionByteLen : Nat) : Bool :=
  a.slice 0 collisionByteLen == b.slice 0 collisionByteLen

def ehRowIndicesBefore (a b : EhRow) (hashLen lenIndices : Nat) : Bool :=
  memcmpLt (a.slice hashLen lenIndices) (b.slice hashLen lenIndices)

def ehRowDistinctIndices (a b : EhRow) (hashLen lenIndices : Nat) : Bool :=
  (List.range ((lenIndices + 3) / 4)).all fun i =>
    (List.range ((lenIndices + 3) / 4)).all fun j =>
      a.slice (hashLen + 4 * i) 4 != b.slice (hashLen + 4 * j) 4

def ehRowIsZero (row : EhRow) (length : Nat) : Bool :=
  (row.slice 0 length).all (· == 0)

def ehRowXorMerge (a b : EhRow) (hashLen lenIndices collisionByteLen : Nat) : EhRow :=
  let trim := collisionByteLen
  let hash := List.zipWith (· ^^^ ·) (a.slice trim (hashLen - trim)) (b.slice trim (hashLen - trim))
  if ehRowIndicesBefore a b hashLen lenIndices then
    ⟨hash ++ a.slice hashLen lenIndices ++ b.slice hashLen lenIndices⟩
  else ⟨hash ++ b.slice hashLen lenIndices ++ a.slice hashLen lenIndices⟩

/-- The row of an index, given the hash of its group of indices. -/
def leafRow (p : EquihashParams) (hash : List UInt8) (idx : UInt32) : EhRow :=
  let offset := idx.toNat % p.indicesPerHashOutput * p.n / 8
  ehRowFromHash ((hash.drop offset).take (p.n / 8)) p.collisionBitLength idx

-- The verifier

/-- The number of the hash that an index is taken from. -/
def hashGroup (p : EquihashParams) (idx : UInt32) : UInt32 :=
  UInt32.ofNat (idx.toNat / p.indicesPerHashOutput)

def leafBatch (p : EquihashParams) (impl : BatchImpl) (base : Blake2bCtx)
    (batch : List UInt32) : List EhRow :=
  List.zipWith (leafRow p)
    (equihashGenerateHashBatch impl base (batch.map (hashGroup p)) p.hashOutput) batch

/-- The rows of whole batches of eight, and the indices that are left. -/
def ehVerifyLeafRowsBatch8 (p : EquihashParams) (impl : BatchImpl) (base : Blake2bCtx)
    : List UInt32 → List EhRow × List UInt32
  | a :: b :: c :: d :: e :: f :: g :: h :: rest =>
    let (rows, left) := ehVerifyLeafRowsBatch8 p impl base rest
    (leafBatch p impl base [a, b, c, d, e, f, g, h] ++ rows, left)
  | rest => ([], rest)

def ehVerifyLeafRowsBatch4 (p : EquihashParams) (impl : BatchImpl) (base : Blake2bCtx)
    : List UInt32 → List EhRow × List UInt32
  | a :: b :: c :: d :: rest =>
    let (rows, left) := ehVerifyLeafRowsBatch4 p impl base rest
    (leafBatch p impl base [a, b, c, d] ++ rows, left)
  | rest => ([], rest)

def ehVerifyLeafRowsScalar (p : EquihashParams) (base : Blake2bCtx) (indices : List UInt32)
    : List EhRow :=
  indices.map fun idx => leafRow p (generateHash base (hashGroup p idx) p.hashOutput) idx

def leafRows (p : EquihashParams) (impl : BatchImpl) (base : Blake2bCtx) (indices : List UInt32)
    : List EhRow :=
  let (eights, rest) := ehVerifyLeafRowsBatch8 p impl base indices
  let (fours, rest) := ehVerifyLeafRowsBatch4 p impl base rest
  eights ++ fours ++ ehVerifyLeafRowsScalar p base rest

inductive EhVerifyStatus where
  | noCollision
  | outOfOrder
  | nonDistinct
deriving DecidableEq, Repr

/-- One round; a failure names the row that it was found at. -/
def ehVerifyRound (p : EquihashParams) (hashLen lenIndices : Nat)
    : Nat → List EhRow → Except (EhVerifyStatus × Nat) (List EhRow)
  | i, a :: b :: rest =>
    if !ehRowHasCollision a b p.collisionByteLength then .error (.noCollision, i)
    else if ehRowIndicesBefore b a hashLen lenIndices then .error (.outOfOrder, i)
    else if !ehRowDistinctIndices a b hashLen lenIndices then .error (.nonDistinct, i)
    else
      match ehVerifyRound p hashLen lenIndices (i + 2) rest with
      | .error failure => .error failure
      | .ok merged =>
        .ok (ehRowXorMerge a b hashLen lenIndices p.collisionByteLength :: merged)
  | _, _ => .ok []

/-- The rounds until one row is left, with the hash length of the last rows. -/
def ehVerifyCollisionRounds (p : EquihashParams)
    : Nat → Nat → Nat → List EhRow → Except (EhVerifyStatus × Nat) (List EhRow × Nat)
  | 0, hashLen, _, rows => .ok (rows, hashLen)
  | fuel + 1, hashLen, lenIndices, rows =>
    if rows.length > 1 then
      match ehVerifyRound p hashLen lenIndices 0 rows with
      | .error failure => .error failure
      | .ok merged =>
        ehVerifyCollisionRounds p fuel (hashLen - p.collisionByteLength) (lenIndices * 2) merged
    else .ok (rows, hashLen)

def ehVerifyFinalRow (rows : List EhRow) (hashLen : Nat) : Bool :=
  match rows with
  | [row] => ehRowIsZero row hashLen
  | _ => false

def equihashIsValidSolution (p : EquihashParams) (impl : BatchImpl) (base : Blake2bCtx)
    (soln : List UInt8) : Bool :=
  if soln.length ≠ p.solutionWidth then false
  else
    let numIndices := 2 ^ p.k
    let indices := ehGetIndicesFromMinimal soln p.collisionBitLength numIndices
    if indices.length ≠ numIndices then false
    else
      -- the number of rounds is below the number of rows
      match ehVerifyCollisionRounds p numIndices p.hashLength 4 (leafRows p impl base indices) with
      | .error _ => false
      | .ok (rows, hashLen) => ehVerifyFinalRow rows hashLen

end Z23.Crypto
