import Mathlib.Algebra.Ring.Nat
import Mathlib.Data.List.Basic

/-!
Little-endian integers of a fixed width, prefixes of byte strings, and readers applied many times.
-/

namespace Z23.Lib.Bytes

/-- The `width` low bytes of a number, least significant first. -/
def bytesLE : Nat → Nat → List UInt8
  | 0, _ => []
  | width + 1, value => UInt8.ofNat value :: bytesLE width (value / 256)

def natLE : List UInt8 → Nat
  | [] => 0
  | byte :: rest => byte.toNat + 256 * natLE rest

/-- The first `count` bytes and the rest, when there are that many. -/
def takeBytes (count : Nat) (bytes : List UInt8) : Option (List UInt8 × List UInt8) :=
  if bytes.length < count then none else some (bytes.take count, bytes.drop count)

@[simp]
theorem length_bytesLE (width value : Nat) : (bytesLE width value).length = width := by
  induction width generalizing value with
  | zero => rfl
  | succ width ih => simp [bytesLE, ih]

theorem natLE_bytesLE {width value : Nat} (fits : value < 256 ^ width)
    : natLE (bytesLE width value) = value := by
  induction width generalizing value with
  | zero =>
    have zero : value = 0 := by simpa using fits
    rw [zero]
    rfl
  | succ width ih =>
    have quotientFits : value / 256 < 256 ^ width := by
      rw [Nat.div_lt_iff_lt_mul (by decide)]
      rwa [Nat.pow_succ] at fits
    rw [bytesLE, natLE, ih quotientFits, UInt8.toNat_ofNat']
    omega

theorem bytesLE_natLE (bytes : List UInt8) : bytesLE bytes.length (natLE bytes) = bytes := by
  induction bytes with
  | nil => rfl
  | cons byte rest ih =>
    have low : UInt8.ofNat (byte.toNat + 256 * natLE rest) = byte := by
      apply UInt8.toNat.inj
      rw [UInt8.toNat_ofNat']
      have small := byte.toNat_lt
      omega
    have high : (byte.toNat + 256 * natLE rest) / 256 = natLE rest := by
      have small := byte.toNat_lt
      omega
    rw [natLE, List.length_cons, bytesLE, low, high, ih]

theorem natLE_lt (bytes : List UInt8) : natLE bytes < 256 ^ bytes.length := by
  induction bytes with
  | nil => exact Nat.one_pos
  | cons byte rest ih =>
    have small := byte.toNat_lt
    rw [natLE, List.length_cons, Nat.pow_succ]
    omega

theorem takeBytes_length {count : Nat} {bytes front rest : List UInt8}
    (taken : takeBytes count bytes = some (front, rest)) : front.length = count := by
  rw [takeBytes] at taken
  split at taken
  · cases taken
  · cases taken
    rw [List.length_take]
    omega

theorem takeBytes_append {count : Nat} {front : List UInt8} (length : front.length = count)
    (rest : List UInt8)
    : takeBytes count (front ++ rest) = some (front, rest) := by
  subst length
  simp [takeBytes]

theorem takeBytes_bytesLE (width value : Nat) (rest : List UInt8)
    : takeBytes width (bytesLE width value ++ rest) = some (bytesLE width value, rest) :=
  takeBytes_append (length_bytesLE width value) rest

/-- A reader takes a value off the front of the bytes. -/
abbrev Reader (β : Type) := List UInt8 → Option (β × List UInt8)

/-- The reader gets back what the writer wrote, and leaves what comes after it. -/
def ReadsBack {β : Type} (read : Reader β) (write : β → List UInt8) : Prop :=
  ∀ value rest, read (write value ++ rest) = some (value, rest)

def readMany {β : Type} (read : Reader β) : Nat → Reader (List β)
  | 0, bytes => some ([], bytes)
  | count + 1, bytes => do
    let (value, bytes) ← read bytes
    let (values, bytes) ← readMany read count bytes
    some (value :: values, bytes)

theorem readMany_flatMap {β : Type} {read : Reader β} {write : β → List UInt8}
    (back : ReadsBack read write) (values : List β) (rest : List UInt8)
    : readMany read values.length (values.flatMap write ++ rest) = some (values, rest) := by
  induction values with
  | nil => rfl
  | cons value values ih =>
    rw [List.flatMap_cons, List.append_assoc, List.length_cons, readMany, back]
    simp only [Option.bind_eq_bind, Option.bind_some, ih]

end Z23.Lib.Bytes
