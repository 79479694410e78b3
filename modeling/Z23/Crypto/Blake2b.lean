import Z23.Lib.Bytes

/-!
BLAKE2b as a stream, and the batch of hashes that differ in a last four-byte index. The vector
units do in each lane what the sequential compression does.
-/

namespace Z23.Crypto

open Z23.Lib.Bytes

-- Compression

def blake2bBlockBytes : Nat := 128

def blake2bIV : Vector UInt64 8 := #v[
  0x6a09e667f3bcc908, 0xbb67ae8584caa73b, 0x3c6ef372fe94f82b, 0xa54ff53a5f1d36f1,
  0x510e527fade682d1, 0x9b05688c2b3e6c1f, 0x1f83d9abfb41bd6b, 0x5be0cd19137e2179]

def blake2bSigma : Vector (Vector (Fin 16) 16) 12 := #v[
  #v[0, 1, 2, 3, 4, 5, 6, 7, 8, 9, 10, 11, 12, 13, 14, 15],
  #v[14, 10, 4, 8, 9, 15, 13, 6, 1, 12, 0, 2, 11, 7, 5, 3],
  #v[11, 8, 12, 0, 5, 2, 15, 13, 10, 14, 3, 6, 7, 1, 9, 4],
  #v[7, 9, 3, 1, 13, 12, 11, 14, 2, 6, 5, 10, 4, 0, 15, 8],
  #v[9, 0, 5, 7, 2, 4, 10, 15, 14, 1, 11, 12, 6, 8, 3, 13],
  #v[2, 12, 6, 10, 0, 11, 8, 3, 4, 13, 7, 5, 15, 14, 1, 9],
  #v[12, 5, 1, 15, 14, 13, 4, 10, 0, 7, 6, 3, 9, 2, 8, 11],
  #v[13, 11, 7, 14, 12, 1, 3, 9, 5, 0, 15, 4, 8, 6, 2, 10],
  #v[6, 15, 14, 9, 11, 3, 0, 8, 12, 2, 13, 7, 1, 4, 10, 5],
  #v[10, 2, 8, 4, 7, 6, 1, 5, 15, 11, 9, 14, 3, 12, 13, 0],
  #v[0, 1, 2, 3, 4, 5, 6, 7, 8, 9, 10, 11, 12, 13, 14, 15],
  #v[14, 10, 4, 8, 9, 15, 13, 6, 1, 12, 0, 2, 11, 7, 5, 3]]

/-- `buf` holds the `buflen` bytes that wait for their block to fill. -/
structure Blake2bCtx where
  h : Vector UInt64 8
  t0 : UInt64 := 0
  t1 : UInt64 := 0
  f0 : UInt64 := 0
  f1 : UInt64 := 0
  buf : List UInt8 := []
  outlen : Nat
deriving DecidableEq, Repr

def Blake2bCtx.buflen (ctx : Blake2bCtx) : Nat := ctx.buf.length

def rotr64 (x n : UInt64) : UInt64 := (x >>> n) ||| (x <<< (64 - n))

def load64 (bytes : List UInt8) : UInt64 := UInt64.ofNat (natLE (bytes.take 8))

/-- The macro `G`. -/
def mixG (m : Vector UInt64 16) (r : Fin 12) (i : Fin 8) (a b c d : Fin 16)
    (v : Vector UInt64 16) : Vector UInt64 16 :=
  let v := v.set a (v[a] + v[b] + m[blake2bSigma[r][2 * i.val]])
  let v := v.set d (rotr64 (v[d] ^^^ v[a]) 32)
  let v := v.set c (v[c] + v[d])
  let v := v.set b (rotr64 (v[b] ^^^ v[c]) 24)
  let v := v.set a (v[a] + v[b] + m[blake2bSigma[r][2 * i.val + 1]])
  let v := v.set d (rotr64 (v[d] ^^^ v[a]) 16)
  let v := v.set c (v[c] + v[d])
  v.set b (rotr64 (v[b] ^^^ v[c]) 63)

/-- The macro `ROUND`. -/
def mixRound (m v : Vector UInt64 16) (r : Fin 12) : Vector UInt64 16 :=
  let v := mixG m r 0 0 4 8 12 v
  let v := mixG m r 1 1 5 9 13 v
  let v := mixG m r 2 2 6 10 14 v
  let v := mixG m r 3 3 7 11 15 v
  let v := mixG m r 4 0 5 10 15 v
  let v := mixG m r 5 1 6 11 12 v
  let v := mixG m r 6 2 7 8 13 v
  mixG m r 7 3 4 9 14 v

def blake2bCompress (ctx : Blake2bCtx) (block : List UInt8) : Blake2bCtx :=
  let m : Vector UInt64 16 := .ofFn fun i => load64 (block.drop (8 * i.val))
  let v : Vector UInt64 16 := ctx.h ++ #v[
    blake2bIV[0], blake2bIV[1], blake2bIV[2], blake2bIV[3],
    blake2bIV[4] ^^^ ctx.t0, blake2bIV[5] ^^^ ctx.t1,
    blake2bIV[6] ^^^ ctx.f0, blake2bIV[7] ^^^ ctx.f1]
  let v := (List.finRange 12).foldl (mixRound m) v
  { ctx with h := .ofFn fun i => ctx.h[i] ^^^ (v[i.val] ^^^ v[i.val + 8]) }

-- The stream

def blake2bIncrementCounter (ctx : Blake2bCtx) (inc : UInt64) : Blake2bCtx :=
  let t0 := ctx.t0 + inc
  { ctx with t0 := t0, t1 := ctx.t1 + if t0 < inc then 1 else 0 }

/-- One full block of input. -/
def absorbBlock (ctx : Blake2bCtx) (block : List UInt8) : Blake2bCtx :=
  blake2bCompress (blake2bIncrementCounter ctx (UInt64.ofNat blake2bBlockBytes)) block

/-- The blocks of the input but the last one, and what is left; `fuel` is at least their number. -/
def absorbBlocks : Nat → Blake2bCtx → List UInt8 → Blake2bCtx × List UInt8
  | 0, ctx, input => (ctx, input)
  | fuel + 1, ctx, input =>
    if input.length > blake2bBlockBytes then
      absorbBlocks fuel (absorbBlock ctx (input.take blake2bBlockBytes))
        (input.drop blake2bBlockBytes)
    else (ctx, input)

def blake2bUpdate (ctx : Blake2bCtx) (input : List UInt8) : Blake2bCtx :=
  let fill := blake2bBlockBytes - ctx.buflen
  if input.length > fill then
    let full := absorbBlock { ctx with buf := [] } (ctx.buf ++ input.take fill)
    let (ctx, rest) := absorbBlocks input.length full (input.drop fill)
    { ctx with buf := rest }
  else { ctx with buf := ctx.buf ++ input }

/-- The first bytes of the chain value, words in little-endian order. -/
def digest (ctx : Blake2bCtx) (length : Nat) : List UInt8 :=
  (ctx.h.toList.flatMap fun word => bytesLE 8 word.toNat).take length

/-- The state pads its last block; the buffer `out` is left as it is when it is too short. -/
def blake2bFinal (ctx : Blake2bCtx) (out : List UInt8) : List UInt8 :=
  if out.length < ctx.outlen then out
  else
    let last := { blake2bIncrementCounter ctx (UInt64.ofNat ctx.buflen) with f0 := -1 }
    let block := ctx.buf ++ List.replicate (blake2bBlockBytes - ctx.buflen) 0
    digest (blake2bCompress last block) ctx.outlen ++ out.drop ctx.outlen

/-- `blake2b_init_salt_personal` without a key or a salt. -/
def blake2bInitPersonal (outlen : Nat) (personal : List UInt8) : Blake2bCtx :=
  let param : List UInt8 :=
    [UInt8.ofNat outlen, 0, 1, 1] ++ List.replicate 44 0 ++ personal
  { h := .ofFn fun i => blake2bIV[i] ^^^ load64 (param.drop (8 * i.val))
    outlen := outlen % 256 }

-- Batches

/-- The bytes of an index in the machine's little-endian order. -/
def indexBytes (index : UInt32) : List UInt8 := bytesLE 4 index.toNat

/-- One index by the sequential code. -/
def hashScalar (base : Blake2bCtx) (index : UInt32) (hashLen : Nat) : List UInt8 :=
  blake2bFinal (blake2bUpdate base (indexBytes index)) (List.replicate hashLen 0)

/-- One lane of `blake2b_prepare_batch_states` and of the vector compression. -/
def hashLane (base : Blake2bCtx) (hashLen : Nat) (index : UInt32) : List UInt8 :=
  let state := { base with
    t0 := base.t0 + UInt64.ofNat (base.buflen + 4)
    t1 := 0
    f0 := -1 }
  let block := base.buf ++ indexBytes index
    ++ List.replicate (blake2bBlockBytes - (base.buflen + 4)) 0
  digest (blake2bCompress state block) hashLen

/-- The vector units in use: eight lanes, and four lanes of either architecture. -/
structure BatchImpl where
  useAvx512f : Bool
  useFourWay : Bool
deriving DecidableEq, Repr

/-- Whole groups of four go through the vector unit and the rest through the sequential code. -/
def finalizeGroupsOf4 (base : Blake2bCtx) (hashLen : Nat) : List UInt32 → List (List UInt8)
  | a :: b :: c :: d :: rest =>
    [a, b, c, d].map (hashLane base hashLen) ++ finalizeGroupsOf4 base hashLen rest
  | rest => rest.map fun index => hashScalar base index hashLen

def finalizeStates (impl : BatchImpl) (base : Blake2bCtx) (indices : List UInt32) (hashLen : Nat)
    : List (List UInt8) :=
  if indices.length = 8 ∧ impl.useAvx512f then indices.map (hashLane base hashLen)
  else if 4 ≤ indices.length ∧ impl.useFourWay then finalizeGroupsOf4 base hashLen indices
  else indices.map fun index => hashScalar base index hashLen

/-- `equihash_generate_hash_batch4` and `equihash_generate_hash_batch8`, by the indices given. -/
def equihashGenerateHashBatch (impl : BatchImpl) (base : Blake2bCtx) (indices : List UInt32)
    (hashLen : Nat) : List (List UInt8) :=
  if base.buflen + 4 ≤ blake2bBlockBytes then finalizeStates impl base indices hashLen
  else indices.map fun index => hashScalar base index hashLen

-- Batches agree with the stream

/-- A state that has been fed so many bytes that the low word of its counter holds them. -/
structure Blake2bCtx.Fed (ctx : Blake2bCtx) (bytes : Nat) : Prop where
  counted : ctx.t0.toNat + ctx.buf.length = bytes
  noCarry : ctx.t1 = 0
  pending : ctx.buf.length ≤ blake2bBlockBytes

variable {ctx : Blake2bCtx}

theorem blake2bIncrementCounter_fits {inc : Nat} (fits : ctx.t0.toNat + inc < 2 ^ 64)
    : (blake2bIncrementCounter ctx (UInt64.ofNat inc)).t0.toNat = ctx.t0.toNat + inc
      ∧ (blake2bIncrementCounter ctx (UInt64.ofNat inc)).t1 = ctx.t1 := by
  have small : inc % 2 ^ 64 = inc := Nat.mod_eq_of_lt (by omega)
  have sum : (ctx.t0 + UInt64.ofNat inc).toNat = ctx.t0.toNat + inc := by
    rw [UInt64.toNat_add, UInt64.toNat_ofNat', small, Nat.mod_eq_of_lt fits]
  have noCarry : ¬ctx.t0 + UInt64.ofNat inc < UInt64.ofNat inc := by
    rw [UInt64.lt_iff_toNat_lt, sum, UInt64.toNat_ofNat', small]
    omega
  refine ⟨sum, ?_⟩
  simp [blake2bIncrementCounter, noCarry]

theorem absorbBlock_counts (fits : ctx.t0.toNat + blake2bBlockBytes < 2 ^ 64) (block : List UInt8)
    : (absorbBlock ctx block).t0.toNat = ctx.t0.toNat + blake2bBlockBytes
      ∧ (absorbBlock ctx block).t1 = ctx.t1 ∧ (absorbBlock ctx block).outlen = ctx.outlen := by
  obtain ⟨low, high⟩ := blake2bIncrementCounter_fits fits
  exact ⟨low, high, rfl⟩

theorem absorbBlocks_counts {fuel : Nat} {ctx : Blake2bCtx} {input : List UInt8}
    (fits : ctx.t0.toNat + input.length < 2 ^ 64) (enough : input.length ≤ fuel)
    : (absorbBlocks fuel ctx input).1.t0.toNat + (absorbBlocks fuel ctx input).2.length
          = ctx.t0.toNat + input.length
      ∧ (absorbBlocks fuel ctx input).1.t1 = ctx.t1
      ∧ (absorbBlocks fuel ctx input).1.outlen = ctx.outlen
      ∧ (absorbBlocks fuel ctx input).2.length ≤ blake2bBlockBytes := by
  have size : blake2bBlockBytes = 128 := rfl
  induction fuel generalizing ctx input with
  | zero => exact ⟨rfl, rfl, rfl, Nat.le_trans enough (Nat.zero_le _)⟩
  | succ fuel ih =>
    rw [absorbBlocks]
    split
    · obtain ⟨low, high, outlen⟩ :=
        absorbBlock_counts (by omega : ctx.t0.toNat + blake2bBlockBytes < 2 ^ 64)
          (input.take blake2bBlockBytes)
      have dropped : (input.drop blake2bBlockBytes).length
          = input.length - blake2bBlockBytes := List.length_drop
      obtain ⟨sum, carry, sameOut, short⟩ :=
        @ih (absorbBlock ctx (input.take blake2bBlockBytes)) (input.drop blake2bBlockBytes)
          (by omega) (by omega)
      exact ⟨by omega, carry.trans high, sameOut.trans outlen, short⟩
    · rename_i short
      exact ⟨rfl, rfl, rfl, not_lt.mp short⟩

theorem Blake2bCtx.Fed.update {bytes : Nat} (fed : ctx.Fed bytes) {input : List UInt8}
    (fits : bytes + input.length < 2 ^ 64)
    : (blake2bUpdate ctx input).Fed (bytes + input.length)
      ∧ (blake2bUpdate ctx input).outlen = ctx.outlen := by
  have size : blake2bBlockBytes = 128 := rfl
  have counted := fed.counted
  have pending := fed.pending
  rw [blake2bUpdate]
  split
  · rename_i long
    rw [buflen] at long
    obtain ⟨low, high, outlen⟩ := absorbBlock_counts
      (show ({ ctx with buf := [] } : Blake2bCtx).t0.toNat + blake2bBlockBytes < 2 ^ 64 by
        simp only
        omega)
      (ctx.buf ++ input.take (blake2bBlockBytes - ctx.buflen))
    simp only at low high outlen
    have dropped : (input.drop (blake2bBlockBytes - ctx.buflen)).length
        = input.length - (blake2bBlockBytes - ctx.buf.length) := List.length_drop
    obtain ⟨sum, carry, sameOut, short⟩ := @absorbBlocks_counts input.length
      (absorbBlock { ctx with buf := [] }
        (ctx.buf ++ input.take (blake2bBlockBytes - ctx.buflen)))
      (input.drop (blake2bBlockBytes - ctx.buflen)) (by omega) (by omega)
    exact ⟨⟨by simp only; omega, carry.trans (high.trans fed.noCarry), short⟩, sameOut.trans outlen⟩
  · rename_i short
    rw [buflen] at short
    refine ⟨⟨?_, fed.noCarry, ?_⟩, rfl⟩
    · rw [List.length_append]
      simp only
      omega
    · rw [List.length_append]
      omega

variable {base : Blake2bCtx} {hashLen : Nat}

theorem hashLane_eq_hashScalar {bytes : Nat} (fed : base.Fed bytes) (fits : bytes + 4 < 2 ^ 64)
    (outlen : base.outlen = hashLen) (room : base.buflen + 4 ≤ blake2bBlockBytes) (index : UInt32)
    : hashLane base hashLen index = hashScalar base index hashLen := by
  subst outlen
  have length : (indexBytes index).length = 4 := length_bytesLE 4 _
  have counted := fed.counted
  rw [Blake2bCtx.buflen] at room
  have short : ¬(indexBytes index).length > blake2bBlockBytes - base.buflen := by
    rw [length, Blake2bCtx.buflen]
    omega
  have carry : (blake2bIncrementCounter base (UInt64.ofNat (base.buf.length + 4))).t1 = 0 := by
    rw [← fed.noCarry]
    exact (blake2bIncrementCounter_fits (by omega)).2
  rw [hashScalar, blake2bUpdate, if_neg short, blake2bFinal, List.length_replicate,
    if_neg (lt_irrefl _)]
  simp only [Blake2bCtx.buflen, List.length_append, length, List.drop_replicate,
    Nat.sub_self, List.replicate_zero, List.append_nil, hashLane]
  refine congrArg (fun h => digest { base with h := h } base.outlen) ?_
  change _ = (blake2bCompress { blake2bIncrementCounter base (UInt64.ofNat (base.buf.length + 4))
    with f0 := -1 } _).h
  rw [show ({ blake2bIncrementCounter base (UInt64.ofNat (base.buf.length + 4))
      with f0 := -1 } : Blake2bCtx) = { base with
        t0 := base.t0 + UInt64.ofNat (base.buf.length + 4), t1 := 0, f0 := -1 } by
    rw [← carry]
    rfl]

theorem finalizeGroupsOf4_eq
    (lane : ∀ index, hashLane base hashLen index = hashScalar base index hashLen)
    (indices : List UInt32)
    : finalizeGroupsOf4 base hashLen indices
        = indices.map fun index => hashScalar base index hashLen := by
  induction indices using finalizeGroupsOf4.induct with
  | case1 a b c d rest ih => simp [finalizeGroupsOf4, ih, lane]
  | case2 rest short => rw [finalizeGroupsOf4.eq_2 _ _ _ short]

theorem equihashGenerateHashBatch_eq (impl : BatchImpl) {bytes : Nat} (fed : base.Fed bytes)
    (fits : bytes + 4 < 2 ^ 64) (outlen : base.outlen = hashLen) (indices : List UInt32)
    : equihashGenerateHashBatch impl base indices hashLen
        = indices.map fun index => hashScalar base index hashLen := by
  rw [equihashGenerateHashBatch]
  split
  · rename_i room
    have lane := hashLane_eq_hashScalar fed fits outlen room
    rw [finalizeStates]
    split
    · exact List.map_congr_left fun index _ => lane index
    · split
      · exact finalizeGroupsOf4_eq lane indices
      · rfl
  · rfl

end Z23.Crypto
