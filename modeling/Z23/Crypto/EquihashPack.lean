import Z23.Crypto.Equihash

/-!
What the bit packers compute: expansion gives the groups of bits of its input, compression joins
them again.
-/

namespace Z23.Crypto

open Z23.Lib.BitGroups

-- The accumulator

theorem window_div {value shift width : Nat} (fits : shift + width ≤ 32)
    : value % 2 ^ 32 / 2 ^ shift % 2 ^ width = value / 2 ^ shift % 2 ^ width := by
  rw [show (32 : Nat) = shift + (32 - shift) by omega, Nat.pow_add, Nat.mod_mul_right_div_self,
    Nat.mod_mod_of_dvd _ (Nat.pow_dvd_pow 2 (by omega))]

theorem window_push {value low bits : Nat} (fits : low < 2 ^ bits) (room : bits ≤ 32)
    : ((value % 2 ^ 32) <<< bits) % 2 ^ 32 ||| low = (value * 2 ^ bits + low) % 2 ^ 32 := by
  have split : (2 : Nat) ^ 32 = 2 ^ (32 - bits) * 2 ^ bits := by
    rw [← Nat.pow_add]
    congr 1
    omega
  have shifted : ((value % 2 ^ 32) <<< bits) % 2 ^ 32 = (value % 2 ^ (32 - bits)) <<< bits := by
    rw [Nat.shiftLeft_eq, Nat.shiftLeft_eq, Nat.mod_mul_mod, split, Nat.mul_mod_mul_right]
  have high : value % 2 ^ (32 - bits) * 2 ^ bits + low < 2 ^ 32 := by
    have top := Nat.mul_le_mul_right (2 ^ bits)
      (Nat.succ_le_of_lt (Nat.mod_lt value (Nat.two_pow_pos (32 - bits))))
    rw [← split, Nat.succ_mul] at top
    omega
  rw [shifted, ← Nat.shiftLeft_add_eq_or_of_lt fits, Nat.shiftLeft_eq, ← Nat.mod_eq_of_lt high,
    Nat.add_mod, ← Nat.mul_mod_mul_right, ← split, Nat.mod_mod, ← Nat.add_mod]

theorem bitLenMask_shiftRight (bitLen shift : Nat)
    : bitLenMask bitLen >>> shift = 2 ^ (bitLen - shift) - 1 := by
  refine Nat.eq_of_testBit_eq fun bit => ?_
  rw [bitLenMask, Nat.one_shiftLeft, Nat.testBit_shiftRight, Nat.testBit_two_pow_sub_one,
    Nat.testBit_two_pow_sub_one, decide_eq_decide]
  omega

theorem and_mask (value bitLen at_ : Nat)
    : value &&& ((bitLenMask bitLen >>> (8 * at_)) &&& 0xff)
        = value % 2 ^ (bitLen - 8 * at_) % 256 := by
  rw [bitLenMask_shiftRight, ← Nat.and_assoc, Nat.and_two_pow_sub_one_eq_mod]
  exact Nat.and_two_pow_sub_one_eq_mod _ 8

variable {bitLen : Nat}

theorem div_mod_div (value accBits : Nat) {at_ : Nat} (within : 8 * at_ ≤ bitLen)
    : value / 2 ^ accBits % 2 ^ bitLen / 256 ^ at_
        = value / 2 ^ (accBits + 8 * at_) % 2 ^ (bitLen - 8 * at_) := by
  rw [show (256 : Nat) = 2 ^ 8 from rfl, ← Nat.pow_mul,
    show bitLen = 8 * at_ + (bitLen - 8 * at_) by omega, Nat.pow_add, Nat.mod_mul_right_div_self,
    Nat.div_div_eq_div_mul, ← Nat.pow_add, Nat.add_sub_cancel_left]

-- Expansion

def groupWidth (bitLen bytePad : Nat) : Nat := (bitLen + 7) / 8 + bytePad

theorem two_pow_le_bytes (bitLen : Nat) : 2 ^ bitLen ≤ 256 ^ ((bitLen + 7) / 8) := by
  rw [show (256 : Nat) = 2 ^ 8 from rfl, ← Nat.pow_mul]
  exact Nat.pow_le_pow_right (by decide) (by omega)

variable {accBits : Nat}

theorem expandedGroup_eq (bytePad : Nat) (fits : accBits + bitLen ≤ 32) (value : Nat)
    : expandedGroup bitLen bytePad accBits (value % 2 ^ 32)
        = bytesBE (groupWidth bitLen bytePad) (value / 2 ^ accBits % 2 ^ bitLen) := by
  rw [expandedGroup, bytesBE, groupWidth]
  refine List.map_congr_left fun x member => ?_
  have inside := List.mem_range.mp member
  have low := Nat.mod_lt (value / 2 ^ accBits) (Nat.two_pow_pos bitLen)
  by_cases pad : x < bytePad
  · rw [if_pos pad, Nat.div_eq_of_lt]
    · rfl
    · refine lt_of_lt_of_le (lt_of_lt_of_le low (two_pow_le_bytes bitLen)) ?_
      exact Nat.pow_le_pow_right (by decide) (by omega)
  · have within : 8 * ((bitLen + 7) / 8 + bytePad - x - 1) ≤ bitLen := by omega
    rw [if_neg pad, and_mask, Nat.shiftRight_eq_div_pow, window_div (by omega),
      div_mod_div _ _ within]
    exact UInt8.toNat_inj.mp (by simp)

theorem div_eq_of_bounds {total count : Nat} (low : bitLen * count ≤ total)
    (high : total < bitLen * count + bitLen) : total / bitLen = count := by
  refine Nat.div_eq_of_lt_le ?_ ?_
  · rwa [Nat.mul_comm]
  · rwa [Nat.mul_comm, Nat.mul_add, Nat.mul_one]

/-- The state of the loop after a prefix of the input. -/
structure Expanded (bitLen bytePad : Nat) (input : List UInt8) (st : ExpandState) : Prop where
  bits : st.accBits + bitLen * (8 * input.length / bitLen) = 8 * input.length
  value : st.accValue = natBE input % 2 ^ 32
  out : st.out = (groups bitLen (8 * input.length) (natBE input)).flatMap
    (bytesBE (groupWidth bitLen bytePad))

theorem groups_prefix (bitLen : Nat) (input : List UInt8) (byte : UInt8)
    : (List.range (8 * input.length / bitLen)).map
          (group bitLen (8 * (input ++ [byte]).length) (natBE (input ++ [byte])))
        = groups bitLen (8 * input.length) (natBE input) := by
  refine List.map_congr_left fun place member => ?_
  rw [List.length_append, List.length_singleton, Nat.mul_add, natBE_append]
  refine group_append ?_ byte.toNat_lt _
  have whole := Nat.div_mul_le_self (8 * input.length) bitLen
  have below := Nat.mul_le_mul_left bitLen (List.mem_range.mp member)
  rw [Nat.mul_comm] at whole
  exact le_trans below whole

theorem Expanded.step {bitLen : Nat} (long : 8 ≤ bitLen) (short : bitLen ≤ 25) (bytePad : Nat)
    {input : List UInt8} {st : ExpandState} (expanded : Expanded bitLen bytePad input st)
    (byte : UInt8)
    : Expanded bitLen bytePad (input ++ [byte]) (expandStep bitLen bytePad st byte) := by
  have length : 8 * (input ++ [byte]).length = 8 * input.length + 8 := by
    rw [List.length_append, List.length_singleton, Nat.mul_add]
  have value : st.accValue <<< 8 % 2 ^ 32 ||| byte.toNat = natBE (input ++ [byte]) % 2 ^ 32 := by
    rw [expanded.value, natBE_append]
    exact window_push byte.toNat_lt (by decide)
  have below : st.accBits < bitLen := by
    have bits := expanded.bits
    have whole := Nat.div_add_mod (8 * input.length) bitLen
    have low := Nat.mod_lt (8 * input.length) (by omega : 0 < bitLen)
    omega
  have bits := expanded.bits
  simp only [expandStep, value]
  split
  · rename_i full
    have count : (8 * input.length + 8) / bitLen = 8 * input.length / bitLen + 1 := by
      refine div_eq_of_bounds ?_ ?_
      · rw [Nat.mul_succ]
        omega
      · rw [Nat.mul_succ]
        omega
    constructor
    · rw [length, count, Nat.mul_succ]
      simp only
      omega
    · rfl
    · simp only
      rw [groups, length, count, List.range_succ, List.map_append, List.flatMap_append, ← length,
        groups_prefix, ← expanded.out, expandedGroup_eq bytePad (by omega)]
      congr 1
      rw [List.map_singleton, List.flatMap_singleton, group, length, Nat.mul_succ,
        show 8 * input.length + 8 - (bitLen * (8 * input.length / bitLen) + bitLen)
          = st.accBits + 8 - bitLen by omega]
  · rename_i notFull
    have count : (8 * input.length + 8) / bitLen = 8 * input.length / bitLen := by
      exact div_eq_of_bounds (by omega) (by omega)
    constructor
    · rw [length, count]
      simp only
      omega
    · rfl
    · rw [groups, length, count, ← length, groups_prefix]
      exact expanded.out

theorem ehExpandArray_eq (long : 8 ≤ bitLen) (short : bitLen ≤ 25) (bytePad : Nat)
    (input : List UInt8)
    : ehExpandArray input bitLen bytePad
        = (groups bitLen (8 * input.length) (natBE input)).flatMap
          (bytesBE (groupWidth bitLen bytePad)) := by
  have expanded : Expanded bitLen bytePad input (input.foldl (expandStep bitLen bytePad) {}) := by
    induction input using List.reverseRecOn with
    | nil =>
      refine ⟨?_, rfl, ?_⟩
      · simp
      · simp [groups]
    | append_singleton input byte ih =>
      rw [List.foldl_append]
      exact ih.step long short bytePad byte
  exact expanded.out

-- Compression

theorem masked_byte {g : Nat} (fits : g < 2 ^ bitLen) {at_ : Nat} (within : 8 * at_ ≤ bitLen)
    : (UInt8.ofNat (g / 256 ^ at_)).toNat
          &&& ((bitLenMask bitLen >>> (8 * at_)) &&& 0xff)
        = g / 256 ^ at_ % 256 := by
  have low : g / 256 ^ at_ < 2 ^ (bitLen - 8 * at_) := by
    rw [show (256 : Nat) = 2 ^ 8 from rfl, ← Nat.pow_mul,
      Nat.div_lt_iff_lt_mul (Nat.two_pow_pos _), ← Nat.pow_add, Nat.sub_add_cancel within]
    exact fits
  rw [and_mask, UInt8.toNat_ofNat']
  have smaller := Nat.mod_le (g / 256 ^ at_) (2 ^ 8)
  rw [Nat.mod_eq_of_lt (lt_of_le_of_lt smaller low)]
  exact Nat.mod_mod _ _

theorem or_next_byte (g at_ : Nat)
    : (g / 256 ^ (at_ + 1)) <<< (8 * (at_ + 1)) ||| (g / 256 ^ at_ % 256) <<< (8 * at_)
        = (g / 256 ^ at_) <<< (8 * at_) := by
  have low : g / 256 ^ at_ % 256 < 2 ^ 8 := Nat.mod_lt _ (by decide)
  rw [show 8 * (at_ + 1) = 8 + 8 * at_ by omega, Nat.shiftLeft_add, ← Nat.shiftLeft_or_distrib,
    ← Nat.shiftLeft_add_eq_or_of_lt low, Nat.shiftLeft_eq _ 8, Nat.pow_succ,
    ← Nat.div_div_eq_div_mul]
  congr 1
  exact Nat.div_add_mod' _ 256

theorem loadGroup_eq {g : Nat} (short : bitLen ≤ 25) (fits : g < 2 ^ bitLen) (bytePad value : Nat)
    (rest : List UInt8)
    : loadGroup bitLen bytePad (value % 2 ^ 32) (bytesBE (groupWidth bitLen bytePad) g ++ rest)
        = (value * 2 ^ bitLen + g) % 2 ^ 32 := by
  rw [← window_push fits (by omega), loadGroup]
  generalize (value % 2 ^ 32) <<< bitLen % 2 ^ 32 = acc
  have high : ∀ at_, (bitLen + 7) / 8 ≤ at_ → g / 256 ^ at_ = 0 := fun at_ above =>
    Nat.div_eq_of_lt (lt_of_lt_of_le (lt_of_lt_of_le fits (two_pow_le_bytes bitLen))
      (Nat.pow_le_pow_right (by decide) above))
  -- after `count` bytes the top bytes of the group are in place
  have loop : ∀ count ≤ groupWidth bitLen bytePad,
      (List.range count).foldl (fun acc x =>
        if x < bytePad then acc
        else acc ||| ((((bytesBE (groupWidth bitLen bytePad) g ++ rest).getD x 0).toNat
          &&& ((bitLenMask bitLen >>> (8 * (groupWidth bitLen bytePad - x - 1))) &&& 0xff))
            <<< (8 * (groupWidth bitLen bytePad - x - 1)))) acc
        = acc ||| (g / 256 ^ (groupWidth bitLen bytePad - count))
          <<< (8 * (groupWidth bitLen bytePad - count)) := by
    intro count within
    induction count with
    | zero =>
      rw [Nat.sub_zero, high _ (by rw [groupWidth]; omega)]
      simp
    | succ count ih =>
      rw [List.range_succ, List.foldl_append, ih (by omega)]
      simp only [List.foldl_cons, List.foldl_nil]
      have next : groupWidth bitLen bytePad - count
          = groupWidth bitLen bytePad - (count + 1) + 1 := by omega
      split
      · rename_i pad
        rw [high _ (by rw [groupWidth]; omega), high _ (by rw [groupWidth]; omega)]
        simp
      · rename_i inside
        rw [groupWidth] at within
        have byte : (bytesBE (groupWidth bitLen bytePad) g ++ rest).getD count 0
            = UInt8.ofNat (g / 256 ^ (groupWidth bitLen bytePad - (count + 1))) := by
          rw [List.getD_append _ _ _ _ (by rw [length_bytesBE, groupWidth]; omega)]
          simp only [bytesBE, List.getD_eq_getElem?_getD, List.getElem?_map,
            List.getElem?_range (show count < groupWidth bitLen bytePad by
              rw [groupWidth]; omega), Option.map_some, Option.getD_some]
          rfl
        rw [Nat.sub_sub, byte, masked_byte fits (by rw [groupWidth]; omega), Nat.lor_assoc, next]
        rw [or_next_byte]
  have whole := loop (groupWidth bitLen bytePad) le_rfl
  rw [Nat.sub_self, Nat.pow_zero, Nat.div_one, Nat.mul_zero, Nat.shiftLeft_zero] at whole
  exact whole

theorem emitted_byte (enough : 8 ≤ accBits) (fits : accBits ≤ 32) (value : Nat)
    : (UInt8.ofNat ((value % 2 ^ 32) >>> (accBits - 8) &&& 0xff)).toNat
        = value / 2 ^ (accBits - 8) % 256 := by
  rw [show (0xff : Nat) = 2 ^ 8 - 1 from rfl, Nat.and_two_pow_sub_one_eq_mod,
    Nat.shiftRight_eq_div_pow, window_div (by omega), UInt8.toNat_ofNat', Nat.mod_mod]
  rfl

/-- What is left after a byte has been taken off the top. -/
theorem emitted_rest {outLen rest : Nat} (enough : 8 ≤ accBits)
    (bits : 8 * outLen = accBits - 8 + rest) (value low : Nat)
    : value % 2 ^ accBits * 2 ^ rest + low
        = value / 2 ^ (accBits - 8) % 256 * 256 ^ outLen
          + (value % 2 ^ (accBits - 8) * 2 ^ rest + low) := by
  have split : value % 2 ^ accBits
      = 2 ^ (accBits - 8) * (value / 2 ^ (accBits - 8) % 256) + value % 2 ^ (accBits - 8) := by
    rw [show accBits = accBits - 8 + 8 by omega, Nat.pow_add, Nat.mod_mul, Nat.add_sub_cancel,
      Nat.add_comm]
  rw [split, show (256 : Nat) = 2 ^ 8 from rfl, ← Nat.pow_mul, bits, Nat.pow_add]
  ring

theorem push_mod {g : Nat} (fits : g < 2 ^ bitLen) (value accBits : Nat)
    : (value * 2 ^ bitLen + g) % 2 ^ (accBits + bitLen)
        = value % 2 ^ accBits * 2 ^ bitLen + g := by
  have low : (value * 2 ^ bitLen + g) % 2 ^ bitLen = g := by
    rw [Nat.mul_comm, Nat.mul_add_mod, Nat.mod_eq_of_lt fits]
  have high : (value * 2 ^ bitLen + g) / 2 ^ bitLen = value := by
    rw [Nat.mul_comm, Nat.mul_add_div (Nat.two_pow_pos bitLen), Nat.div_eq_of_lt fits, Nat.add_zero]
  rw [Nat.add_comm accBits, Nat.pow_add, Nat.mod_mul, low, high]
  ring

theorem compressLoop_value {bitLen : Nat} (long : 8 ≤ bitLen) (short : bitLen ≤ 25)
    (bytePad : Nat) {outLen accBits value : Nat} {gs : List Nat} (fits : ∀ g ∈ gs, g < 2 ^ bitLen)
    (window : accBits ≤ 32) (bits : 8 * outLen = accBits + bitLen * gs.length)
    : (compressLoop bitLen bytePad outLen accBits (value % 2 ^ 32)
          (gs.flatMap (bytesBE (groupWidth bitLen bytePad)))).length = outLen
      ∧ natBE (compressLoop bitLen bytePad outLen accBits (value % 2 ^ 32)
          (gs.flatMap (bytesBE (groupWidth bitLen bytePad))))
        = value % 2 ^ accBits * 2 ^ (bitLen * gs.length) + joinGroups bitLen gs := by
  induction outLen generalizing accBits value gs with
  | zero =>
    have empty : gs = [] := by
      cases gs with
      | nil => rfl
      | cons g gs =>
        rw [List.length_cons, Nat.mul_add bitLen] at bits
        omega
    subst empty
    have none : accBits = 0 := by omega
    subst none
    exact ⟨rfl, by simp [compressLoop, natBE, Lib.Bytes.natLE, joinGroups, Nat.mod_one]⟩
  | succ outLen ih =>
    rw [compressLoop]
    split
    · rename_i few
      cases gs with
      | nil =>
        rw [List.length_nil] at bits
        omega
      | cons g gs =>
        have gFits := fits g List.mem_cons_self
        rw [List.length_cons, Nat.mul_add bitLen] at bits
        have load := loadGroup_eq short gFits bytePad value
          (gs.flatMap (bytesBE (groupWidth bitLen bytePad)))
        have rest : (bytesBE (groupWidth bitLen bytePad) g
            ++ gs.flatMap (bytesBE (groupWidth bitLen bytePad))).drop
              ((bitLen + 7) / 8 + bytePad)
            = gs.flatMap (bytesBE (groupWidth bitLen bytePad)) :=
          List.drop_left' (length_bytesBE _ _)
        obtain ⟨length, same⟩ := @ih (accBits + bitLen - 8) (value * 2 ^ bitLen + g) gs
          (List.forall_mem_cons.mp fits).2 (by omega) (by omega)
        rw [List.flatMap_cons, load, rest]
        refine ⟨by rw [List.length_cons, length], ?_⟩
        rw [natBE_cons, length, same, emitted_byte (by omega) (by omega),
          ← emitted_rest (by omega) (by omega), push_mod gFits, List.length_cons,
          Nat.mul_add bitLen, Nat.pow_add, joinGroups_cons, Nat.mul_one]
        ring
    · rename_i enough
      obtain ⟨length, same⟩ := @ih (accBits - 8) value gs fits (by omega) (by omega)
      refine ⟨by rw [List.length_cons, length], ?_⟩
      rw [natBE_cons, length, same, emitted_byte (by omega) window,
        ← emitted_rest (by omega) (by omega)]

-- Indices

theorem ehArrayToIndex_bytesBE {value : Nat} (fits : value < 2 ^ 32) (array : List UInt8)
    (starts : array.take 4 = bytesBE 4 value) : ehArrayToIndex array = UInt32.ofNat value := by
  rw [ehArrayToIndex, starts, natBE_bytesBE fits]

variable {collisionBitLen : Nat}

theorem groupWidth_index (short : collisionBitLen ≤ 24)
    : groupWidth (collisionBitLen + 1) (indexBytePad collisionBitLen) = 4 := by
  rw [groupWidth, indexBytePad]
  omega

theorem lenIndices_eq {count minLen : Nat} (bits : 8 * minLen = (collisionBitLen + 1) * count)
    : 8 * 4 * minLen / (collisionBitLen + 1) = 4 * count := by
  have spread : 8 * 4 * minLen = (collisionBitLen + 1) * (4 * count) := by
    rw [Nat.mul_left_comm, ← bits]
    omega
  rw [spread, Nat.mul_div_cancel_left _ (Nat.succ_pos _)]

theorem ehGetIndicesFromMinimal_eq {count : Nat} (long : 8 ≤ collisionBitLen)
    (short : collisionBitLen ≤ 24) {minimal : List UInt8}
    (bits : 8 * minimal.length = (collisionBitLen + 1) * count)
    : ehGetIndicesFromMinimal minimal collisionBitLen count
        = (groups (collisionBitLen + 1) (8 * minimal.length) (natBE minimal)).map UInt32.ofNat := by
  have number : 8 * minimal.length / (collisionBitLen + 1) = count := by
    rw [bits, Nat.mul_div_cancel_left _ (Nat.succ_pos _)]
  rw [ehGetIndicesFromMinimal, ehExpandArray_eq (by omega) (by omega), groupWidth_index short]
  simp only [lenIndices_eq bits]
  rw [show min count ((4 * count + 3) / 4) = count by omega, groups, number, List.map_map]
  refine List.map_congr_left fun place member => ?_
  have within := List.mem_range.mp member
  have low := group_lt (collisionBitLen + 1) (8 * minimal.length) (natBE minimal) place
  have size := Nat.pow_le_pow_right (by decide : 0 < 2) (by omega : collisionBitLen + 1 ≤ 32)
  refine ehArrayToIndex_bytesBE (lt_of_lt_of_le low size) _ ?_
  rw [slice_flatMap (length_bytesBE 4) _ (by rwa [List.length_map, List.length_range])]
  simp

theorem groups_compressArray (long : 8 ≤ collisionBitLen) (short : collisionBitLen ≤ 24)
    {indices : List UInt32} {outLen : Nat}
    (fits : ∀ idx ∈ indices, idx.toNat < 2 ^ (collisionBitLen + 1))
    (bits : 8 * outLen = (collisionBitLen + 1) * indices.length)
    : let minimal := ehCompressArray (indices.flatMap ehIndexToArray) outLen (collisionBitLen + 1)
        (indexBytePad collisionBitLen)
      minimal.length = outLen
        ∧ groups (collisionBitLen + 1) (8 * minimal.length) (natBE minimal)
          = indices.map UInt32.toNat := by
  have fitsNat : ∀ g ∈ indices.map UInt32.toNat, g < 2 ^ (collisionBitLen + 1) := by
    intro g member
    obtain ⟨idx, isIndex, rfl⟩ := List.mem_map.mp member
    exact fits idx isIndex
  have input : indices.flatMap ehIndexToArray = (indices.map UInt32.toNat).flatMap
      (bytesBE (groupWidth (collisionBitLen + 1) (indexBytePad collisionBitLen))) := by
    rw [groupWidth_index short, List.flatMap_map]
    rfl
  obtain ⟨length, value⟩ := @compressLoop_value _ (by omega : 8 ≤ collisionBitLen + 1) (by omega)
    (indexBytePad collisionBitLen) outLen 0 0 (indices.map UInt32.toNat) fitsNat (by omega)
    (by rw [List.length_map, bits, Nat.zero_add])
  rw [Nat.zero_mod, ← input, ← ehCompressArray] at length value
  rw [Nat.zero_mod, Nat.zero_mul, Nat.zero_add] at value
  refine ⟨length, ?_⟩
  rw [length, value, bits, ← List.length_map (f := UInt32.toNat),
    groups_joinGroups (by omega) fitsNat]

end Z23.Crypto
