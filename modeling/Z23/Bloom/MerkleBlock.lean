import Z23.Bloom.Merkle
import Z23.Core.Serialize

/-!
Partial Merkle trees on the wire: the number of transactions, the hashes, and the flags packed into
bytes, least significant bit first. What is built, sent and received yields the matched ids and the
root of the whole list.
-/

namespace Z23.Bloom

open Z23.Lib.PairTree Z23.Lib.Bytes

-- Codec

/-- Puts flags into the bits of a number. -/
def setFlags (flag : Nat → Bool) (count : Nat) : Nat :=
  (List.range count).foldl (fun byte p => byte ||| ((flag p).toNat <<< p)) 0

/-- The flags from a place on, put into one byte. -/
def packByte (bits : List Bool) (start : Nat) : UInt8 :=
  UInt8.ofNat (setFlags (fun p => bits.getD (start + p) false) 8)

def packBits (bits : List Bool) : List UInt8 :=
  (List.range ((bits.length + 7) / 8)).map fun i => packByte bits (8 * i)

def merkleTreeSerialize (t : PartialMerkleTree Uint256) : List UInt8 :=
  bytesLE 4 t.numTransactions.toNat ++ streamWriteCompactSize t.hashes.length
    ++ t.hashes.flatMap Uint256.data ++ streamWriteCompactSize ((t.bits.length + 7) / 8)
    ++ packBits t.bits

def unpackBits (packed : List UInt8) : List Bool :=
  (List.range (8 * packed.length)).map fun p => (packed.getD (p / 8) 0).toNat.testBit (p % 8)

def merkleTreeDeserialize : Reader (PartialMerkleTree Uint256) := fun bytes => do
  let (numTransactions, bytes) ← streamReadLE 4 bytes
  let (numHashes, bytes) ← streamReadCompactSize bytes
  if maxMerkleHashes < numHashes then none
  else do
    let (hashes, bytes) ← readMany streamReadHash numHashes bytes
    let (numBytes, bytes) ← streamReadCompactSize bytes
    if maxMerkleBits / 8 < numBytes then none
    else do
      let (packed, bytes) ← takeBytes numBytes bytes
      some (⟨UInt32.ofNat numTransactions, unpackBits packed, hashes⟩, bytes)

-- Flags

theorem testBit_setFlags (flag : Nat → Bool) (count j : Nat)
    : (setFlags flag count).testBit j = (decide (j < count) && flag j) := by
  induction count with
  | zero =>
    rw [setFlags, List.range_zero, List.foldl_nil, Nat.zero_testBit]
    simp
  | succ count ih =>
    have last : setFlags flag (count + 1)
        = setFlags flag count ||| ((flag count).toNat <<< count) := by
      rw [setFlags, List.range_succ, List.foldl_append]
      rfl
    have single : ((flag count).toNat <<< count).testBit j = (decide (j = count) && flag j) := by
      cases value : flag count with
      | false =>
        by_cases same : j = count
        · simp [same, value]
        · simp [same]
      | true =>
        rw [Bool.toNat_true, Nat.one_shiftLeft, Nat.testBit_two_pow]
        by_cases same : j = count
        · simp [same, value]
        · simp [same, Ne.symm same]
    rw [last, Nat.testBit_or, ih, single, ← Bool.and_or_distrib_right]
    congr 1
    rw [← Bool.decide_or]
    exact decide_eq_decide.mpr (by omega)

theorem setFlags_lt (flag : Nat → Bool) (count : Nat) : setFlags flag count < 2 ^ count := by
  apply Nat.lt_pow_two_of_testBit
  intro j high
  rw [testBit_setFlags, decide_eq_false (by omega), Bool.false_and]

theorem testBit_packByte {bits : List Bool} {start j : Nat} (low : j < 8)
    : (packByte bits start).toNat.testBit j = bits.getD (start + j) false := by
  have small := setFlags_lt (fun p => bits.getD (start + p) false) 8
  rw [packByte, UInt8.toNat_ofNat', Nat.mod_eq_of_lt small, testBit_setFlags, decide_eq_true low,
    Bool.true_and]

theorem length_packBits (bits : List Bool) : (packBits bits).length = (bits.length + 7) / 8 := by
  rw [packBits, List.length_map, List.length_range]

theorem unpackBits_packBits (bits : List Bool)
    : ∃ padding, unpackBits (packBits bits) = bits ++ padding
      ∧ (bits ++ padding).length = 8 * ((bits.length + 7) / 8) := by
  have room : bits.length ≤ 8 * ((bits.length + 7) / 8) := by omega
  refine ⟨List.replicate (8 * ((bits.length + 7) / 8) - bits.length) false, ?_, by simp; omega⟩
  apply List.ext_getElem?
  intro p
  rw [unpackBits, length_packBits, List.getElem?_map]
  by_cases inside : p < 8 * ((bits.length + 7) / 8)
  · have byte : p / 8 < (bits.length + 7) / 8 := by omega
    have flag : ((packBits bits).getD (p / 8) 0).toNat.testBit (p % 8) = bits.getD p false := by
      rw [packBits, List.getD_eq_getElem?_getD, List.getElem?_map, List.getElem?_range byte,
        Option.map_some, Option.getD_some, testBit_packByte (by omega), Nat.div_add_mod]
    rw [List.getElem?_range inside, Option.map_some, flag]
    by_cases given : p < bits.length
    · rw [List.getElem?_append_left given, List.getD_eq_getElem?_getD,
        List.getElem?_eq_getElem given]
      rfl
    · rw [List.getElem?_append_right (by omega), List.getElem?_replicate_of_lt (by omega),
        List.getD_eq_getElem?_getD, List.getElem?_eq_none (by omega)]
      rfl
  · rw [List.getElem?_eq_none (by rw [List.length_range]; omega),
      List.getElem?_eq_none (by simp; omega)]
    rfl

theorem merkleTreeDeserialize_serialize (t : PartialMerkleTree Uint256)
    (hashes : t.hashes.length ≤ maxMerkleHashes) (bits : t.bits.length ≤ maxMerkleBits)
    (rest : List UInt8)
    : ∃ padding, (t.bits ++ padding).length = 8 * ((t.bits.length + 7) / 8)
      ∧ merkleTreeDeserialize (merkleTreeSerialize t ++ rest)
        = some (⟨t.numTransactions, t.bits ++ padding, t.hashes⟩, rest) := by
  obtain ⟨padding, unpacked, length⟩ := unpackBits_packBits t.bits
  have caps : maxMerkleHashes = 65536 ∧ maxMerkleBits = 131072 := ⟨rfl, rfl⟩
  have count : t.numTransactions.toNat < 256 ^ 4 := t.numTransactions.toNat_lt
  refine ⟨padding, length, ?_⟩
  unfold merkleTreeDeserialize merkleTreeSerialize
  simp only [List.append_assoc]
  rw [streamReadLE_bytesLE count]
  simp only [Option.bind_eq_bind, Option.bind_some]
  rw [streamReadCompactSize_write (by omega)]
  simp only [Option.bind_some]
  rw [if_neg (by omega), readMany_flatMap streamReadHash_data]
  simp only [Option.bind_some]
  rw [streamReadCompactSize_write (by omega)]
  simp only [Option.bind_some]
  rw [if_neg (by omega), takeBytes_append (length_packBits _)]
  simp only [Option.bind_some, unpacked, UInt32.ofNat_toNat]

-- What a traversal writes

variable {W : Type} {hashPair : W → W → W} {zero : W} {txids : List W} {marks : List Bool}
  {nTx : UInt32}

/-- The flags and hashes below a node, without a cap on either. -/
def emitted (hashPair : W → W → W) (zero : W) (nTx : UInt32) (txids : List W) (marks : List Bool)
    : Nat → Nat → List Bool × List W
  | 0, pos => ([parentOfMatch nTx marks 0 pos], [calcHash hashPair zero nTx txids 0 pos])
  | height + 1, pos =>
    if !parentOfMatch nTx marks (height + 1) pos then
      ([false], [calcHash hashPair zero nTx txids (height + 1) pos])
    else
      let left := emitted hashPair zero nTx txids marks height (pos * 2)
      if pos * 2 + 1 < calcTreeWidth nTx height then
        let right := emitted hashPair zero nTx txids marks height (pos * 2 + 1)
        (true :: (left.1 ++ right.1), left.2 ++ right.2)
      else (true :: left.1, left.2)

/-- Flags and hashes behind those that are there. -/
def BuildState.write (s : BuildState W) (out : List Bool × List W) : BuildState W :=
  { s with bits := s.bits ++ out.1, hashes := s.hashes ++ out.2 }

variable {s : BuildState W}

theorem buildAddBit_eq {bit : Bool} (room : s.bits.length < s.bitsCap)
    : buildAddBit s bit = s.write ([bit], []) := by
  rw [buildAddBit, if_neg (Nat.not_le.mpr room), BuildState.write, List.append_nil]

theorem buildAddHash_eq {h : W} (room : s.hashes.length < s.hashesCap)
    : buildAddHash s h = s.write ([], [h]) := by
  rw [buildAddHash, if_neg (Nat.not_le.mpr room), BuildState.write, List.append_nil]

theorem BuildState.write_write (s : BuildState W) (out more : List Bool × List W)
    : (s.write out).write more = s.write (out.1 ++ more.1, out.2 ++ more.2) := by
  simp only [write, List.append_assoc]

/-- Room for what is to be written. -/
structure BuildState.Fits (s : BuildState W) (out : List Bool × List W) : Prop where
  bits : s.bits.length + out.1.length ≤ s.bitsCap
  hashes : s.hashes.length + out.2.length ≤ s.hashesCap

theorem buildStop_eq {bit : Bool} {h : W} (fits : s.Fits ([bit], [h]))
    : buildAddHash (buildAddBit s bit) h = s.write ([bit], [h]) := by
  have bits : s.bits.length + 1 ≤ s.bitsCap := fits.bits
  have hashes : s.hashes.length + 1 ≤ s.hashesCap := fits.hashes
  rw [buildAddBit_eq bits, buildAddHash_eq, BuildState.write_write]
  · rfl
  · rw [BuildState.write, List.append_nil]
    exact hashes

theorem BuildState.Fits.left {s : BuildState W} {out more : List Bool × List W}
    (fits : s.Fits (out.1 ++ more.1, out.2 ++ more.2)) : s.Fits out := by
  have bits := fits.bits
  have hashes := fits.hashes
  rw [List.length_append] at bits hashes
  exact ⟨by omega, by omega⟩

theorem BuildState.Fits.right {s : BuildState W} {out more : List Bool × List W}
    (fits : s.Fits (out.1 ++ more.1, out.2 ++ more.2)) : (s.write out).Fits more := by
  have bits := fits.bits
  have hashes := fits.hashes
  rw [List.length_append, ← Nat.add_assoc] at bits hashes
  exact ⟨by rw [write, List.length_append]; exact bits,
    by rw [write, List.length_append]; exact hashes⟩

theorem BuildState.Fits.flag {bit : Bool} {bits : List Bool} {hashes : List W}
    (fits : s.Fits (bit :: bits, hashes))
    : buildAddBit s bit = s.write ([bit], []) ∧ (s.write ([bit], [])).Fits (bits, hashes) := by
  have whole : s.Fits ([bit] ++ bits, [] ++ hashes) := fits
  exact ⟨buildAddBit_eq (@BuildState.Fits.left W s ([bit], []) (bits, hashes) whole).bits,
    @BuildState.Fits.right W s ([bit], []) (bits, hashes) whole⟩

theorem traverseAndBuild_eq {height pos : Nat}
    (fits : s.Fits (emitted hashPair zero nTx txids marks height pos))
    : traverseAndBuild hashPair zero nTx txids marks height pos s
        = s.write (emitted hashPair zero nTx txids marks height pos) := by
  induction height generalizing pos s with
  | zero => exact buildStop_eq fits
  | succ height ih =>
    unfold traverseAndBuild
    unfold emitted at fits ⊢
    cases parent : parentOfMatch nTx marks (height + 1) pos with
    | false =>
      simp only [parent, Bool.not_false, if_true] at fits ⊢
      exact buildStop_eq fits
    | true =>
      simp only [parent, Bool.not_true, Bool.false_eq_true, if_false] at fits ⊢
      split at fits
      · rename_i inside
        obtain ⟨flag, both⟩ := fits.flag
        rw [if_pos inside, flag, ih both.left, ih both.right, BuildState.write_write,
          BuildState.write_write, if_pos inside]
        rfl
      · rename_i outside
        obtain ⟨flag, child⟩ := fits.flag
        rw [if_neg outside, flag, ih child, BuildState.write_write, if_neg outside]
        rfl

theorem length_emitted_bits (height pos : Nat)
    : (emitted hashPair zero nTx txids marks height pos).1.length < 2 ^ (height + 1) := by
  induction height generalizing pos with
  | zero => exact Nat.one_lt_two
  | succ height ih =>
    have power : 2 ^ (height + 1 + 1) = 2 ^ (height + 1) * 2 := Nat.pow_succ _ _
    have left := ih (pos * 2)
    have right := ih (pos * 2 + 1)
    unfold emitted
    split
    · rw [List.length_singleton]
      omega
    · simp only
      split
      · rw [List.length_cons, List.length_append]
        omega
      · rw [List.length_cons]
        omega

theorem length_emitted_le (height pos : Nat)
    : (emitted hashPair zero nTx txids marks height pos).2.length
        ≤ (emitted hashPair zero nTx txids marks height pos).1.length := by
  induction height generalizing pos with
  | zero => exact Nat.le_refl 1
  | succ height ih =>
    have left := ih (pos * 2)
    have right := ih (pos * 2 + 1)
    unfold emitted
    split
    · exact Nat.le_refl 1
    · simp only
      split
      · rw [List.length_cons, List.length_append, List.length_append]
        omega
      · rw [List.length_cons]
        exact Nat.le_succ_of_le left

/-- A tree with at most 2^31 leaves: the 32 bits of its widths do not wrap. -/
structure Counted (nTx : UInt32) (txids : List W) : Prop where
  count : nTx.toNat = txids.length
  few : txids.length ≤ 2 ^ 31

theorem Counted.lt_width (counted : Counted nTx txids) {height pos : Nat} (low : height ≤ 31)
    : pos < calcTreeWidth nTx height ↔ pos * 2 ^ height < txids.length := by
  rw [@calcTreeWidth_eq_of_le W (fun a _ => a) txids nTx height counted.count counted.few low,
    lt_length_level_iff]

theorem child_start (pos height : Nat)
    : pos * 2 ^ (height + 1) = pos * 2 * 2 ^ height
      ∧ (pos * 2 + 1) * 2 ^ height = pos * 2 * 2 ^ height + 2 ^ height := by
  constructor
  · ring
  · ring

theorem Counted.length_emitted_hashes (counted : Counted nTx txids) {height pos : Nat}
    (low : height ≤ 31) (inside : pos * 2 ^ height < txids.length)
    : pos * 2 ^ height + (emitted hashPair zero nTx txids marks height pos).2.length
        ≤ min txids.length (pos * 2 ^ height + 2 ^ height) := by
  induction height generalizing pos with
  | zero =>
    change pos * 2 ^ 0 + 1 ≤ _
    omega
  | succ height ih =>
    obtain ⟨start, next⟩ := child_start pos height
    have power : 2 ^ (height + 1) = 2 ^ height * 2 := Nat.pow_succ _ _
    have positive : 0 < 2 ^ height := Nat.two_pow_pos height
    have left := @ih (pos * 2) (by omega) (by omega)
    unfold emitted
    split
    · rw [List.length_singleton]
      omega
    · simp only
      split
      · rename_i more
        rw [counted.lt_width (by omega)] at more
        have right := @ih (pos * 2 + 1) (by omega) more
        rw [List.length_append]
        omega
      · simp only
        omega

-- What a traversal reads back

/-- No two siblings of the tree are equal. -/
def SiblingsApart (hashPair : W → W → W) (txids : List W) : Prop :=
  ∀ height pos left right, (level hashPair height txids)[pos * 2]? = some left →
    (level hashPair height txids)[pos * 2 + 1]? = some right → right ≠ left

theorem Counted.calcHash_level (counted : Counted nTx txids) {height pos : Nat} (low : height ≤ 31)
    (inside : pos * 2 ^ height < txids.length)
    : (level hashPair height txids)[pos]? = some (calcHash hashPair zero nTx txids height pos) := by
  induction height generalizing pos with
  | zero =>
    rw [Nat.pow_zero, Nat.mul_one] at inside
    rw [level, calcHash, List.getD_eq_getElem?_getD, List.getElem?_eq_getElem inside]
    rfl
  | succ height ih =>
    obtain ⟨start, next⟩ := child_start pos height
    rw [level, getElem?_parents, Nat.mul_comm 2 pos, @ih (pos * 2) (by omega) (by omega)]
    rw [Option.map_some, calcHash]
    by_cases more : pos * 2 + 1 < calcTreeWidth nTx height
    · have here := (counted.lt_width (by omega)).mp more
      rw [if_pos more, @ih (pos * 2 + 1) (by omega) here]
      rfl
    · have none : (level hashPair height txids)[pos * 2 + 1]? = none := by
        rw [List.getElem?_eq_none_iff, ← Nat.not_lt, lt_length_level_iff,
          ← counted.lt_width (by omega)]
        exact more
      rw [if_neg more, none]
      rfl

/-- The id at a position, if it is matched. -/
def pick (txids : List W) (marks : List Bool) (p : Nat) : Option (Nat × W) :=
  if marks.getD p false then txids[p]?.map (p, ·) else none

/-- The matched ids below a node, with their positions. -/
def matchedBelow (txids : List W) (marks : List Bool) (height pos : Nat) : List (Nat × W) :=
  (List.range' (pos * 2 ^ height) (2 ^ height)).filterMap (pick txids marks)

theorem matchedBelow_succ (height pos : Nat)
    : matchedBelow txids marks (height + 1) pos
        = matchedBelow txids marks height (pos * 2)
          ++ matchedBelow txids marks height (pos * 2 + 1) := by
  obtain ⟨start, next⟩ := child_start pos height
  have power : 2 ^ (height + 1) = 2 ^ height + 2 ^ height := by ring
  rw [matchedBelow, matchedBelow, matchedBelow, ← List.filterMap_append, start, next, power,
    List.range'_append_1]

theorem Counted.matchedBelow_nil (counted : Counted nTx txids) {height pos : Nat}
    (none : parentOfMatch nTx marks height pos = false)
    : matchedBelow txids marks height pos = [] := by
  rw [parentOfMatch, List.any_eq_false] at none
  rw [matchedBelow, List.filterMap_eq_nil_iff]
  intro p member
  have unmarked := none p member
  rw [counted.count] at unmarked
  rw [pick]
  split
  · rename_i marked
    have outside : txids.length ≤ p := by
      by_contra inside
      exact unmarked (by rw [marked, decide_eq_true (Nat.not_le.mp inside)]; rfl)
    rw [List.getElem?_eq_none outside]
    rfl
  · rfl

theorem matchedBelow_outside {height pos : Nat} (outside : txids.length ≤ pos * 2 ^ height)
    : matchedBelow txids marks height pos = [] := by
  rw [matchedBelow, List.filterMap_eq_nil_iff]
  intro p member
  obtain ⟨first, -⟩ := List.mem_range'_1.mp member
  rw [pick, List.getElem?_eq_none (Nat.le_trans outside first)]
  exact ite_self none

theorem matchedBelow_leaf (hashPair : W → W → W) (zero : W) {pos : Nat}
    (inside : pos < txids.length) (marked : parentOfMatch nTx marks 0 pos = true)
    : matchedBelow txids marks 0 pos = [(pos, calcHash hashPair zero nTx txids 0 pos)] := by
  have mark : marks.getD pos false = true := by
    rw [parentOfMatch, List.any_eq_true] at marked
    obtain ⟨p, member, both⟩ := marked
    obtain rfl : p = pos := by
      have range := List.mem_range'_1.mp member
      omega
    exact (Bool.and_eq_true_iff.mp both).2
  rw [matchedBelow, Nat.pow_zero, Nat.mul_one]
  change (([pos] : List Nat).filterMap _) = _
  rw [List.filterMap_cons, pick, if_pos mark, List.getElem?_eq_getElem inside, calcHash,
    List.getD_eq_getElem?_getD, List.getElem?_eq_getElem inside]
  rfl

theorem Counted.traverseAndExtract_emitted [DecidableEq W] (counted : Counted nTx txids)
    (apart : SiblingsApart hashPair txids) {t : PartialMerkleTree W} {cap : Nat}
    (same : t.numTransactions = nTx) {height pos : Nat} (low : height ≤ 31)
    (inside : pos * 2 ^ height < txids.length) {s : Extraction W} {restBits : List Bool}
    {restHashes : List W}
    (bits : t.bits.drop s.bitsUsed
      = (emitted hashPair zero nTx txids marks height pos).1 ++ restBits)
    (hashes : t.hashes.drop s.hashUsed
      = (emitted hashPair zero nTx txids marks height pos).2 ++ restHashes)
    (room : s.matched.length + (matchedBelow txids marks height pos).length ≤ cap)
    : traverseAndExtract hashPair zero t cap height pos s
        = (calcHash hashPair zero nTx txids height pos,
          s.advance (emitted hashPair zero nTx txids marks height pos).1.length
            (emitted hashPair zero nTx txids marks height pos).2.length
            (matchedBelow txids marks height pos)) := by
  induction height generalizing pos s restBits restHashes with
  | zero =>
    rw [Nat.pow_zero, Nat.mul_one] at inside
    unfold emitted at bits hashes ⊢
    cases marked : parentOfMatch nTx marks 0 pos with
    | false =>
      rw [marked] at bits
      rw [counted.matchedBelow_nil marked]
      exact traverseAndExtract_skip bits hashes
    | true =>
      rw [marked] at bits
      rw [matchedBelow_leaf hashPair zero inside marked] at room ⊢
      exact traverseAndExtract_leaf bits hashes room
  | succ height ih =>
    obtain ⟨start, next⟩ := child_start pos height
    unfold emitted at bits hashes ⊢
    cases marked : parentOfMatch nTx marks (height + 1) pos with
    | false =>
      simp only [marked, Bool.not_false, if_true] at bits hashes ⊢
      rw [counted.matchedBelow_nil marked]
      exact traverseAndExtract_skip bits hashes
    | true =>
      simp only [marked, Bool.not_true, Bool.false_eq_true, if_false] at bits hashes ⊢
      rw [matchedBelow_succ, List.length_append] at room
      rw [matchedBelow_succ]
      rw [calcHash]
      have leftRoom : (s.advance 1 0 []).matched.length
          + (matchedBelow txids marks height (pos * 2)).length ≤ cap := by
        simp only [Extraction.advance, List.append_nil]
        omega
      by_cases more : pos * 2 + 1 < calcTreeWidth nTx height
      · have here := (counted.lt_width (by omega)).mp more
        simp only [if_pos more] at bits hashes ⊢
        rw [List.cons_append, List.append_assoc] at bits
        rw [List.append_assoc] at hashes
        have bitsLeft : t.bits.drop (s.advance 1 0 []).bitsUsed = _ :=
          drop_past (show t.bits.drop s.bitsUsed = [true] ++ _ from bits)
        have leftRun := ih (by omega) (by omega) bitsLeft hashes leftRoom
        rw [Extraction.advance_advance] at leftRun
        have bitsRight := drop_past bitsLeft
        have hashesRight := drop_past hashes
        have rightRun := @ih (pos * 2 + 1) (by omega) here
          (s.advance (1 + (emitted hashPair zero nTx txids marks height (pos * 2)).1.length)
            (0 + (emitted hashPair zero nTx txids marks height (pos * 2)).2.length)
            ([] ++ matchedBelow txids marks height (pos * 2))) restBits restHashes
          (by rwa [Extraction.advance, Nat.add_assoc] at bitsRight)
          (by rw [Extraction.advance, Nat.zero_add]; exact hashesRight)
          (by
            simp only [Extraction.advance, List.nil_append, List.length_append]
            omega)
        rw [Extraction.advance_advance] at rightRun
        rw [traverseAndExtract_pair bits (by rw [same]; exact more) leftRun rightRun
          (apart height pos _ _ (counted.calcHash_level (by omega) (by omega))
            (counted.calcHash_level (by omega) here))]
        congr 2
        · rw [List.length_cons, List.length_append]
          omega
        · rw [List.length_append]
          omega
      · have outside : txids.length ≤ (pos * 2 + 1) * 2 ^ height := by
          rw [← Nat.not_lt, ← counted.lt_width (by omega)]
          exact more
        simp only [if_neg more] at bits hashes ⊢
        rw [List.cons_append] at bits
        have bitsLeft : t.bits.drop (s.advance 1 0 []).bitsUsed = _ :=
          drop_past (show t.bits.drop s.bitsUsed = [true] ++ _ from bits)
        have leftRun := ih (by omega) (by omega) bitsLeft hashes leftRoom
        rw [Extraction.advance_advance] at leftRun
        rw [traverseAndExtract_single bits (by rw [same]; exact more) leftRun,
          matchedBelow_outside outside]
        congr 2
        · rw [List.length_cons]
          omega
        · omega
        · simp

-- Round trip

/-- The ids that are matched, in order. -/
def matchedIds (txids : List W) (marks : List Bool) : List W :=
  ((txids.zip marks).filter Prod.snd).map Prod.fst

theorem filterMap_range_marks {marks : List Bool} {k : Nat} (same : marks.length = txids.length)
    (enough : txids.length ≤ k)
    : (List.range k).filterMap (fun p => if marks.getD p false then txids[p]? else none)
        = matchedIds txids marks := by
  induction txids generalizing marks k with
  | nil =>
    rw [matchedIds, List.zip_nil_left, List.filterMap_eq_nil_iff.mpr]
    · rfl
    · intro p member
      exact ite_self none
  | cons txid txids ih =>
    cases marks with
    | nil => cases same
    | cons mark marks =>
      obtain ⟨k, rfl⟩ : ∃ smaller, k = smaller + 1 :=
        ⟨k - 1, by rw [List.length_cons] at enough; omega⟩
      have rest := @ih marks k (Nat.succ.inj same) (Nat.le_of_succ_le_succ enough)
      rw [List.range_succ_eq_map, List.filterMap_cons, List.filterMap_map]
      rw [show matchedIds (txid :: txids) (mark :: marks)
        = (if mark then [txid] else []) ++ matchedIds txids marks by cases mark <;> rfl, ← rest]
      cases mark with
      | false => rfl
      | true => rfl

theorem matchedBelow_ids {height : Nat} (same : marks.length = txids.length)
    (enough : txids.length ≤ 2 ^ height)
    : (matchedBelow txids marks height 0).map Prod.snd = matchedIds txids marks := by
  rw [← filterMap_range_marks same enough, matchedBelow, Nat.zero_mul, ← List.range_eq_range',
    List.map_filterMap]
  congr 1
  funext p
  rw [pick]
  split
  · rw [Option.map_map]
    exact congrFun Option.map_id _
  · rfl

theorem length_matchedIds_le (txids : List W) (marks : List Bool)
    : (matchedIds txids marks).length ≤ txids.length := by
  rw [matchedIds, List.length_map]
  apply Nat.le_trans (List.length_filter_le _ _)
  rw [List.length_zip]
  exact Nat.min_le_left _ _

/-- A tree with the most leaves that a build takes has sixteen levels above them. -/
theorem Counted.treeHeight_le (counted : Counted nTx txids) (few : txids.length ≤ maxMerkleHashes)
    : treeHeight nTx ≤ 16 := by
  have height := treeHeight_firstNarrow nTx
  by_contra tall
  have wide := height.wide 16 (Nat.zero_le _) (by omega)
  rw [counted.lt_width (by decide)] at wide
  have cap : maxMerkleHashes = 65536 := rfl
  omega

/-- No cap is reached: there are fewer flags than twice the leaves, and a leaf for each hash. -/
theorem Counted.emitted_le (counted : Counted nTx txids) (nonempty : txids ≠ [])
    (few : txids.length ≤ maxMerkleHashes)
    : (emitted hashPair zero nTx txids marks (treeHeight nTx) 0).1.length ≤ maxMerkleBits
      ∧ (emitted hashPair zero nTx txids marks (treeHeight nTx) 0).2.length ≤ txids.length := by
  have height := counted.treeHeight_le few
  have flags := @length_emitted_bits W hashPair zero txids marks nTx (treeHeight nTx) 0
  have power : 2 ^ (treeHeight nTx + 1) ≤ 2 ^ 17 := Nat.pow_le_pow_right (by decide) (by omega)
  have positive := List.length_pos_of_ne_nil nonempty
  have hashes := @Counted.length_emitted_hashes W hashPair zero txids marks nTx counted
    (treeHeight nTx) 0 (by omega) (by omega)
  have cap : maxMerkleBits = 2 ^ 17 := rfl
  omega

theorem merkleTreeBuild_eq (nonempty : txids ≠ []) (few : txids.length ≤ maxMerkleHashes)
    (same : marks.length = txids.length) (count : nTx = UInt32.ofNat txids.length)
    (counted : Counted nTx txids)
    : merkleTreeBuild hashPair zero txids marks
        = some ⟨nTx, (emitted hashPair zero nTx txids marks (treeHeight nTx) 0).1,
          (emitted hashPair zero nTx txids marks (treeHeight nTx) 0).2⟩ := by
  have positive := List.length_pos_of_ne_nil nonempty
  obtain ⟨flags, hashes⟩ := @Counted.emitted_le W hashPair zero txids marks nTx counted nonempty few
  have sized : ¬ (txids.length = 0 ∨ txids.length ≠ marks.length
      ∨ maxMerkleHashes < txids.length) := by omega
  have fits : (⟨[], maxMerkleBits, [], txids.length⟩ : BuildState W).Fits
      (emitted hashPair zero nTx txids marks (treeHeight nTx) 0) := by
    refine ⟨?_, ?_⟩
    · rw [List.length_nil, Nat.zero_add]
      exact flags
    · rw [List.length_nil, Nat.zero_add]
      exact hashes
  unfold merkleTreeBuild
  rw [if_neg sized]
  simp only [← count, traverseAndBuild_eq fits]
  rfl

theorem Counted.calcHash_root [DecidableEq W] (counted : Counted nTx txids) (nonempty : txids ≠ [])
    : calcHash hashPair zero nTx txids (treeHeight nTx) 0
        = computeMerkleRoot hashPair zero txids := by
  have positive := List.length_pos_of_ne_nil nonempty
  have node := @Counted.calcHash_level W hashPair zero txids nTx counted (treeHeight nTx) 0
    (treeHeight_firstNarrow nTx).le (by omega)
  rw [@level_treeHeight W hashPair txids nTx zero counted.count counted.few nonempty] at node
  exact (Option.some.inj node).symm

/--
Built, written, read back and extracted: no cap cuts anything off, the matched ids come back in
order, and the root is that of the whole list.
-/
theorem merkleTree_roundTrip (hashPair : Uint256 → Uint256 → Uint256) (txids : List Uint256)
    (marks : List Bool) (nonempty : txids ≠ []) (few : txids.length ≤ maxMerkleHashes)
    (same : marks.length = txids.length) (apart : SiblingsApart hashPair txids) (rest : List UInt8)
    : ∃ t received extracted, merkleTreeBuild hashPair (.fill 0) txids marks = some t
      ∧ (t.bits, t.hashes) = emitted hashPair (.fill 0) t.numTransactions txids marks
          (treeHeight t.numTransactions) 0
      ∧ merkleTreeDeserialize (merkleTreeSerialize t ++ rest) = some (received, rest)
      ∧ merkleTreeExtract hashPair (.fill 0) received = some extracted
      ∧ extracted.matched.map Prod.snd = matchedIds txids marks
      ∧ extracted.merkleRoot = (Validation.merkleRootOverwriting hashPair txids).1 := by
  have cap : maxMerkleHashes = 65536 := rfl
  have positive := List.length_pos_of_ne_nil nonempty
  have count : (UInt32.ofNat txids.length).toNat = txids.length :=
    UInt32.toNat_ofNat_of_lt' (by
      change txids.length < 4294967296
      omega)
  obtain ⟨nTx, nTxIs⟩ : ∃ nTx, nTx = UInt32.ofNat txids.length := ⟨_, rfl⟩
  rw [← nTxIs] at count
  have counted : Counted nTx txids := ⟨count, by omega⟩
  have build := @merkleTreeBuild_eq Uint256 hashPair (.fill 0) txids marks nTx nonempty few same
    nTxIs counted
  obtain ⟨flags, hashes⟩ :=
    @Counted.emitted_le Uint256 hashPair (.fill 0) txids marks nTx counted nonempty few
  have each := @length_emitted_le Uint256 hashPair (.fill 0) txids marks nTx (treeHeight nTx) 0
  have root := @Counted.calcHash_root Uint256 hashPair (.fill 0) txids nTx _ counted nonempty
  have height := (treeHeight_firstNarrow nTx).le
  have enough : txids.length ≤ 2 ^ treeHeight nTx := by
    have top := (treeHeight_firstNarrow nTx).narrow
    rw [← Nat.not_lt, counted.lt_width height] at top
    omega
  have ids := matchedBelow_ids same enough
  generalize outIs : emitted hashPair (.fill 0) nTx txids marks (treeHeight nTx) 0 = out at *
  obtain ⟨padding, padded, received⟩ :=
    merkleTreeDeserialize_serialize ⟨nTx, out.1, out.2⟩ (Nat.le_trans hashes few) flags rest
  change (out.1 ++ padding).length = 8 * ((out.1.length + 7) / 8) at padded
  have run := @Counted.traverseAndExtract_emitted Uint256 hashPair (.fill 0) txids marks nTx _
    counted apart ⟨nTx, out.1 ++ padding, out.2⟩ nTx.toNat rfl (treeHeight nTx) 0 height (by omega)
    ⟨0, 0, [], false⟩ padding [] (by rw [outIs]; rfl)
    (by rw [outIs]; exact (List.append_nil _).symm)
    (by
      have length := congrArg List.length ids
      rw [List.length_map] at length
      have bound := length_matchedIds_le txids marks
      change 0 + _ ≤ _
      omega)
  rw [outIs] at run
  refine ⟨_, _, _, build, outIs.symm, received, merkleTreeExtract_eq ?_ ?_ ?_ run rfl ?_ ?_, ids,
    ?_⟩
  · intro none
    change nTx = 0 at none
    rw [none] at count
    exact Nat.ne_of_lt positive count
  · change out.2.length ≤ nTx.toNat
    omega
  · change out.2.length ≤ (out.1 ++ padding).length
    rw [padded]
    omega
  · change (0 + out.1.length + 7) % 2 ^ 32 / 8 = ((out.1 ++ padding).length + 7) / 8
    have cap : maxMerkleBits = 131072 := rfl
    rw [padded]
    omega
  · exact Nat.zero_add _
  · rw [← computeMerkleRoot_eq_overwriting]
    exact root

theorem siblingsApart_three
    : SiblingsApart Validation.toyHashPair [.fill 1, .fill 2, .fill 3] := by
  intro height pos left right first second
  have inside : pos * 2 + 1 < (level Validation.toyHashPair height
      [.fill 1, .fill 2, .fill 3]).length := by
    rw [List.getElem?_eq_some_iff] at second
    exact second.1
  rw [lt_length_level_iff] at inside
  change (pos * 2 + 1) * 2 ^ height < 3 at inside
  match height with
  | 0 =>
    obtain rfl : pos = 0 := by omega
    cases first
    cases second
    decide
  | 1 =>
    obtain rfl : pos = 0 := by omega
    cases first
    cases second
    decide
  | height + 2 =>
    have power : 2 ^ 2 ≤ 2 ^ (height + 2) :=
      Nat.pow_le_pow_right Nat.two_pos (Nat.le_add_left 2 height)
    have first : 2 ^ (height + 2) ≤ (pos * 2 + 1) * 2 ^ (height + 2) :=
      Nat.le_mul_of_pos_left _ (Nat.succ_pos _)
    omega

theorem merkleTree_roundTrip_three
    : ∃ t received extracted, merkleTreeBuild Validation.toyHashPair (.fill 0)
          [.fill 1, .fill 2, .fill 3] [true, false, true] = some t
      ∧ (t.bits, t.hashes) = emitted Validation.toyHashPair (.fill 0) t.numTransactions
          [.fill 1, .fill 2, .fill 3] [true, false, true] (treeHeight t.numTransactions) 0
      ∧ merkleTreeDeserialize (merkleTreeSerialize t ++ []) = some (received, [])
      ∧ merkleTreeExtract Validation.toyHashPair (.fill 0) received = some extracted
      ∧ extracted.matched.map Prod.snd
          = matchedIds [.fill 1, .fill 2, .fill 3] [true, false, true]
      ∧ extracted.merkleRoot
          = (Validation.merkleRootOverwriting Validation.toyHashPair
            [.fill 1, .fill 2, .fill 3]).1 :=
  merkleTree_roundTrip Validation.toyHashPair [.fill 1, .fill 2, .fill 3] [true, false, true]
    (by simp) (by decide) rfl siblingsApart_three []

end Z23.Bloom
