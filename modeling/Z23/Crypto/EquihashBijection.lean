import Z23.Crypto.EquihashVerify

/-!
Packing and unpacking undo each other. Both are read as the groups of bits of one number, so that
the two accumulators never meet.
-/

namespace Z23.Crypto

open Z23.Lib.BitGroups

-- The packers

section Packers

variable {bitLen : Nat}

theorem ehCompressArray_groups (long : 8 ≤ bitLen) (short : bitLen ≤ 25) (bytePad : Nat)
    {gs : List Nat} {outLen : Nat} (fits : ∀ g ∈ gs, g < 2 ^ bitLen)
    (bits : 8 * outLen = bitLen * gs.length)
    : let packed := ehCompressArray (gs.flatMap (bytesBE (groupWidth bitLen bytePad))) outLen bitLen
        bytePad
      packed.length = outLen ∧ natBE packed = joinGroups bitLen gs := by
  obtain ⟨length, value⟩ := @compressLoop_value _ long short bytePad outLen 0 0 gs fits
    (Nat.zero_le _) (by rw [bits, Nat.zero_add])
  rw [Nat.zero_mod, ← ehCompressArray] at length value
  rw [Nat.zero_mod, Nat.zero_mul, Nat.zero_add] at value
  exact ⟨length, value⟩

theorem ehCompressArray_expandArray (long : 8 ≤ bitLen) (short : bitLen ≤ 25) (bytePad : Nat)
    {input : List UInt8} {count : Nat} (bits : 8 * input.length = bitLen * count)
    : ehCompressArray (ehExpandArray input bitLen bytePad) input.length bitLen bytePad
        = input := by
  have size : natBE input < 2 ^ (bitLen * count) := by
    rw [← bits, Nat.pow_mul]
    exact natBE_lt input
  rw [ehExpandArray_eq long short, bits]
  obtain ⟨length, value⟩ := ehCompressArray_groups long short bytePad
    (fun _ member => groups_lt member)
    (by rw [length_groups (by omega), bits] :
      8 * input.length = bitLen * (groups bitLen (bitLen * count) (natBE input)).length)
  apply natBE_inj length
  rw [value]
  exact joinGroups_groups (by omega) size

theorem ehExpandArray_compressArray (long : 8 ≤ bitLen) (short : bitLen ≤ 25) (bytePad : Nat)
    {gs : List Nat} {outLen : Nat} (fits : ∀ g ∈ gs, g < 2 ^ bitLen)
    (bits : 8 * outLen = bitLen * gs.length)
    : ehExpandArray (ehCompressArray (gs.flatMap (bytesBE (groupWidth bitLen bytePad))) outLen
          bitLen bytePad) bitLen bytePad
        = gs.flatMap (bytesBE (groupWidth bitLen bytePad)) := by
  obtain ⟨length, value⟩ := ehCompressArray_groups long short bytePad fits bits
  rw [ehExpandArray_eq long short, length, value, bits, groups_joinGroups (by omega) fits]

end Packers

-- Indices

section Indices

variable {collisionBitLen count : Nat}

theorem ehGetIndicesFromMinimal_room {minimal : List UInt8} {maxIndices : Nat}
    (bits : 8 * minimal.length = (collisionBitLen + 1) * count) (room : count ≤ maxIndices)
    : ehGetIndicesFromMinimal minimal collisionBitLen maxIndices
        = ehGetIndicesFromMinimal minimal collisionBitLen count := by
  rw [ehGetIndicesFromMinimal, ehGetIndicesFromMinimal]
  simp only [lenIndices_eq bits]
  rw [show min maxIndices ((4 * count + 3) / 4) = min count ((4 * count + 3) / 4) by omega]

theorem ehGetMinimalFromIndices_eq {indices : List UInt32} {minLen maxLen : Nat}
    (bits : 8 * minLen = (collisionBitLen + 1) * indices.length) (room : minLen ≤ maxLen)
    : ehGetMinimalFromIndices indices collisionBitLen maxLen
        = some (ehCompressArray (indices.flatMap ehIndexToArray) minLen (collisionBitLen + 1)
          (indexBytePad collisionBitLen)) := by
  have length : (collisionBitLen + 1) * (indices.length * 4) / (8 * 4) = minLen := by
    rw [← Nat.mul_assoc, ← bits]
    omega
  rw [ehGetMinimalFromIndices]
  simp only [length]
  rw [if_neg (Nat.not_lt.mpr room)]

theorem indices_of_minimal (long : 8 ≤ collisionBitLen) (short : collisionBitLen ≤ 24)
    {indices : List UInt32} {minLen maxLen maxIndices : Nat}
    (fits : ∀ idx ∈ indices, idx.toNat < 2 ^ (collisionBitLen + 1))
    (bits : 8 * minLen = (collisionBitLen + 1) * indices.length) (room : minLen ≤ maxLen)
    (roomIndices : indices.length ≤ maxIndices)
    : ∃ minimal, ehGetMinimalFromIndices indices collisionBitLen maxLen = some minimal
        ∧ minimal.length = minLen
        ∧ ehGetIndicesFromMinimal minimal collisionBitLen maxIndices = indices := by
  obtain ⟨length, same⟩ := groups_compressArray long short fits bits
  refine ⟨_, ehGetMinimalFromIndices_eq bits room, length, ?_⟩
  rw [← length] at bits
  rw [ehGetIndicesFromMinimal_room bits roomIndices, ehGetIndicesFromMinimal_eq long short bits,
    same, List.map_map]
  exact (List.map_congr_left fun idx _ => UInt32.ofNat_toNat).trans (List.map_id _)

theorem minimal_of_indices (long : 8 ≤ collisionBitLen) (short : collisionBitLen ≤ 24)
    {minimal : List UInt8} {maxLen maxIndices : Nat}
    (bits : 8 * minimal.length = (collisionBitLen + 1) * count) (room : minimal.length ≤ maxLen)
    (roomIndices : count ≤ maxIndices)
    : (ehGetIndicesFromMinimal minimal collisionBitLen maxIndices).length = count
      ∧ (∀ idx ∈ ehGetIndicesFromMinimal minimal collisionBitLen maxIndices,
          idx.toNat < 2 ^ (collisionBitLen + 1))
      ∧ ehGetMinimalFromIndices (ehGetIndicesFromMinimal minimal collisionBitLen maxIndices)
          collisionBitLen maxLen = some minimal := by
  have words : ∀ g ∈ groups (collisionBitLen + 1) (8 * minimal.length) (natBE minimal),
      (UInt32.ofNat g).toNat = g := by
    intro g member
    have size := Nat.pow_le_pow_right (by decide : 0 < 2) (by omega : collisionBitLen + 1 ≤ 32)
    exact UInt32.toNat_ofNat_of_lt' (Nat.lt_of_lt_of_le (groups_lt member) size)
  rw [ehGetIndicesFromMinimal_room bits roomIndices, ehGetIndicesFromMinimal_eq long short bits]
  refine ⟨?_, ?_, ?_⟩
  · rw [List.length_map, bits, length_groups (Nat.succ_pos _)]
  · intro idx member
    obtain ⟨g, isGroup, rfl⟩ := List.mem_map.mp member
    rw [words g isGroup]
    exact groups_lt isGroup
  · have array : ((groups (collisionBitLen + 1) (8 * minimal.length) (natBE minimal)).map
          UInt32.ofNat).flatMap ehIndexToArray
        = ehExpandArray minimal (collisionBitLen + 1) (indexBytePad collisionBitLen) := by
      rw [ehExpandArray_eq (by omega) (by omega), groupWidth_index short, List.flatMap_map]
      refine List.flatMap_congr fun g member => ?_
      rw [ehIndexToArray, words g member]
    rw [@ehGetMinimalFromIndices_eq _ _ minimal.length _ ?_ room, array,
      ehCompressArray_expandArray (by omega) (by omega) _ bits]
    rw [List.length_map, bits, length_groups (Nat.succ_pos _)]

end Indices

/-- Packing is a bijection for each of the parameter sets, whatever more room the buffers have, and
the packers undo each other for every width that they allow. -/
theorem equihash_packing_bijective
    : (∀ (pair : EquihashPair) (maxLen maxIndices : Nat), pair.params.solutionWidth ≤ maxLen →
        2 ^ pair.params.k ≤ maxIndices →
        (∀ indices : List UInt32, indices.length = 2 ^ pair.params.k →
          (∀ idx ∈ indices, idx.toNat < 2 ^ (pair.params.collisionBitLength + 1)) →
          ∃ minimal,
            ehGetMinimalFromIndices indices pair.params.collisionBitLength maxLen = some minimal
            ∧ minimal.length = pair.params.solutionWidth
            ∧ ehGetIndicesFromMinimal minimal pair.params.collisionBitLength maxIndices = indices)
        ∧ ∀ minimal : List UInt8, minimal.length = pair.params.solutionWidth →
            ∃ indices, ehGetIndicesFromMinimal minimal pair.params.collisionBitLength maxIndices
                = indices
              ∧ indices.length = 2 ^ pair.params.k
              ∧ (∀ idx ∈ indices, idx.toNat < 2 ^ (pair.params.collisionBitLength + 1))
              ∧ ehGetMinimalFromIndices indices pair.params.collisionBitLength maxLen
                = some minimal)
      ∧ ∀ bitLen bytePad : Nat, 8 ≤ bitLen → 7 + bitLen ≤ 32 →
        (∀ (input : List UInt8) (count : Nat), 8 * input.length = bitLen * count →
          ehCompressArray (ehExpandArray input bitLen bytePad) input.length bitLen bytePad = input)
        ∧ ∀ (gs : List Nat) (outLen : Nat), (∀ g ∈ gs, g < 2 ^ bitLen) →
            8 * outLen = bitLen * gs.length →
            ehExpandArray (ehCompressArray (gs.flatMap (bytesBE (groupWidth bitLen bytePad))) outLen
                bitLen bytePad) bitLen bytePad
              = gs.flatMap (bytesBE (groupWidth bitLen bytePad)) := by
  refine ⟨fun pair maxLen maxIndices room roomIndices => ⟨?_, ?_⟩,
    fun bitLen bytePad long short => ⟨?_, ?_⟩⟩
  · intro indices number fits
    have bits : 8 * pair.params.solutionWidth
        = (pair.params.collisionBitLength + 1) * indices.length := by
      rw [number, pair.sound.solution]
    exact indices_of_minimal pair.sound.long pair.sound.short fits bits room
      (by rwa [number])
  · intro minimal size
    have bits : 8 * minimal.length
        = (pair.params.collisionBitLength + 1) * 2 ^ pair.params.k := by
      rw [size, pair.sound.solution]
    exact ⟨_, rfl, minimal_of_indices pair.sound.long pair.sound.short bits (by rwa [size])
      roomIndices⟩
  · intro input count bits
    exact ehCompressArray_expandArray long (by omega) bytePad bits
  · intro gs outLen fits bits
    exact ehExpandArray_compressArray long (by omega) bytePad fits bits

/-- The smallest parameter set, with all indices 257. -/
theorem equihash_packing_bijective_small
    : ∃ minimal, ehGetMinimalFromIndices (List.replicate 32 257) 8 36 = some minimal
        ∧ minimal.length = 36
        ∧ ehGetIndicesFromMinimal minimal 8 32 = List.replicate 32 257 := by
  refine (equihash_packing_bijective.1 .n48k5 36 32 (by decide) (by decide)).1 _ (by decide) ?_
  intro idx member
  rw [List.eq_of_mem_replicate member]
  decide

end Z23.Crypto
