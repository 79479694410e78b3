import Z23.Storage.ChainLogTampering

/-!
The head of a chain log binds its records. Every link hashes the link before it with the prefix and
the payload of its frame, so two files are compared from their last frames backwards.
-/

namespace Z23.Storage.ChainLog

open Z23.Lib.BitGroups

-- Verifying

section Hash

variable (sha3 : List UInt8 → Uint256)

/-- The scan of a file behind its header. -/
def scanFile (file : List UInt8) : ScanResult :=
  scanFrom sha3 headerBytes ⟨0, sha3 (file.take headerBytes), []⟩ (file.drop headerBytes)

/-- Models `zcl_chainlog_verify`. -/
def chainlogVerify (stream : Uint256) (file : List UInt8) : Report :=
  if file.length < headerBytes then ⟨.format, 0, 0, 0, Uint256.fill 0⟩
  else
    let status := headerCheck sha3 (file.take headerBytes) stream
    if status ≠ .ok then ⟨status, 0, 0, 0, Uint256.fill 0⟩
    else
      let r := scanFile sha3 file
      ⟨r.status, r.scan.records, r.firstBadSeq, r.tornBytes, r.scan.head⟩

/-- What a committed frame holds. -/
structure Entry where
  kind : UInt32
  seq : UInt64
  payload : List UInt8
deriving DecidableEq, Repr

/-- The fields of the frame that starts at a position. -/
def entryAt (file : List UInt8) (start : Nat) : Entry where
  kind := UInt32.ofNat (natBE (readAt (file.drop start) 0 4))
  seq := prefixSeq (file.drop start)
  payload := readAt (file.drop start) prefixBytes (prefixLen (file.drop start))

/-- The committed records of a file, in order. -/
def committed (file : List UInt8) : List Entry :=
  (scanFile sha3 file).scan.offsets.map (entryAt file)

/-- What is hashed for a frame behind a link. -/
def Entry.input (e : Entry) (prev : Uint256) : List UInt8 :=
  prev.data ++ framePrefix e.kind e.seq e.payload.length ++ e.payload

/-- The link behind the frames. -/
def chainHead (seed : Uint256) (entries : List Entry) : Uint256 :=
  entries.foldl (fun prev e => sha3 (e.input prev)) seed

/-- What is hashed for the frames. -/
def chainInputs : Uint256 → List Entry → List (List UInt8)
  | _, [] => []
  | prev, e :: rest => e.input prev :: chainInputs (sha3 (e.input prev)) rest

/-- What is hashed for the committed frames of a file. -/
def hashedFrames (file : List UInt8) : List (List UInt8) :=
  chainInputs sha3 (sha3 (file.take headerBytes)) (committed sha3 file)

end Hash

-- Links

section Links

variable {sha3 : List UInt8 → Uint256} {seed : Uint256}

theorem chainHead_append (entries : List Entry) (e : Entry)
    : chainHead sha3 seed (entries ++ [e]) = sha3 (e.input (chainHead sha3 seed entries)) := by
  rw [chainHead, List.foldl_append]
  rfl

theorem chainInputs_append (entries : List Entry) (e : Entry)
    : chainInputs sha3 seed (entries ++ [e])
        = chainInputs sha3 seed entries ++ [e.input (chainHead sha3 seed entries)] := by
  induction entries generalizing seed with
  | nil => rfl
  | cons first entries ih =>
    rw [List.cons_append, chainInputs, ih]
    rfl

theorem Entry.input_inj {e e' : Entry} {prev prev' : Uint256}
    (same : e.input prev = e'.input prev') : prev = prev' ∧ e = e' := by
  rw [Entry.input, Entry.input, List.append_assoc, List.append_assoc] at same
  obtain ⟨links, frames⟩ := List.append_inj same (by rw [prev.size_data, prev'.size_data])
  obtain ⟨fronts, payloads⟩ := List.append_inj frames
    (by rw [length_framePrefix, length_framePrefix])
  rw [framePrefix, framePrefix, List.append_assoc, List.append_assoc] at fronts
  obtain ⟨kinds, fronts⟩ := List.append_inj fronts (by rw [length_bytesBE, length_bytesBE])
  obtain ⟨seqs, -⟩ := List.append_inj fronts (by rw [length_bytesBE, length_bytesBE])
  refine ⟨Uint256.ext links, ?_⟩
  have kind := UInt32.toNat_inj.mp (bytesBE_inj e.kind.toNat_lt e'.kind.toNat_lt kinds)
  have seq := UInt64.toNat_inj.mp (bytesBE_inj e.seq.toNat_lt e'.seq.toNat_lt seqs)
  cases e
  cases e'
  simp_all

theorem chainHead_inj {seed' : Uint256} {as bs : List Entry}
    (injective : ∀ x ∈ chainInputs sha3 seed as, ∀ y ∈ chainInputs sha3 seed' bs,
      sha3 x = sha3 y → x = y)
    (length : as.length = bs.length)
    (heads : chainHead sha3 seed as = chainHead sha3 seed' bs) : as = bs := by
  induction as using List.reverseRecOn generalizing bs with
  | nil => exact (List.eq_nil_of_length_eq_zero length.symm).symm
  | append_singleton as a ih =>
    rcases List.eq_nil_or_concat' bs with rfl | ⟨bs, b, rfl⟩
    · simp at length
    · rw [chainInputs_append, chainInputs_append] at injective
      rw [chainHead_append, chainHead_append] at heads
      have inputs := injective _ List.mem_concat_self _ List.mem_concat_self heads
      obtain ⟨links, rfl⟩ := Entry.input_inj inputs
      have earlier : as = bs := by
        refine ih ?_ (by simpa using length) links
        intro x inA y inB
        exact injective x (List.mem_append_left _ inA) y (List.mem_append_left _ inB)
      rw [earlier]

end Links

-- The scan

section Scan

variable {sha3 : List UInt8 → Uint256} {file : List UInt8} {pos : Nat} {s : Scan}

theorem take_prefix {rest : List UInt8} (long : prefixBytes + prefixLen rest ≤ rest.length)
    : rest.take prefixBytes
        = framePrefix (UInt32.ofNat (natBE (readAt rest 0 4))) (prefixSeq rest)
            (readAt rest prefixBytes (prefixLen rest)).length := by
  have wide : prefixBytes ≤ rest.length := Nat.le_trans (Nat.le_add_right _ _) long
  rw [prefixBytes] at wide
  have size : ∀ at_ count, at_ + count ≤ 16 → (readAt rest at_ count).length = count := by
    intro at_ count within
    rw [readAt, List.length_take, List.length_drop]
    omega
  have payload : (readAt rest prefixBytes (prefixLen rest)).length = prefixLen rest := by
    rw [readAt, List.length_take, List.length_drop]
    omega
  have kind : (UInt32.ofNat (natBE (readAt rest 0 4))).toNat = natBE (readAt rest 0 4) := by
    have low := natBE_lt (readAt rest 0 4)
    rw [size 0 4 (by decide)] at low
    exact UInt32.toNat_ofNat_of_lt' low
  have seq : (prefixSeq rest).toNat = natBE (readAt rest 4 8) := by
    have low := natBE_lt (readAt rest 4 8)
    rw [size 4 8 (by decide)] at low
    exact UInt64.toNat_ofNat_of_lt' low
  rw [framePrefix, payload, kind, seq, prefixLen, bytesBE_natBE (size 0 4 (by decide)),
    bytesBE_natBE (size 4 8 (by decide)), bytesBE_natBE (size 12 4 (by decide)), readAt, readAt,
    readAt, List.drop_zero, ← List.take_add, ← List.take_add, prefixBytes]

theorem scanFrame_link {chain : Uint256} {need : Nat}
    (accepted : scanFrame sha3 pos s (file.drop pos) = .accepted chain need)
    : chain = sha3 ((entryAt file pos).input s.head)
      ∧ (entryAt file pos).seq = UInt64.ofNat (s.records + 1) := by
  obtain ⟨rfl, fits, seq, link⟩ := scanFrame_accepted sha3 accepted
  have long : prefixBytes + prefixLen (file.drop pos) ≤ (file.drop pos).length := by
    rw [frameNeed] at fits
    omega
  refine ⟨?_, seq⟩
  rw [link, frameHash, take_prefix long]
  rfl

/-- The frames walked through, as the links and the numbers say. -/
structure Walked (sha3 : List UInt8 → Uint256) (file : List UInt8) (s : Scan) : Prop where
  records : s.offsets.length = s.records
  head : s.head
    = chainHead sha3 (sha3 (file.take headerBytes)) (s.offsets.map (entryAt file))
  seqs : (s.offsets.map (entryAt file)).map Entry.seq
    = (List.range s.records).map fun i => UInt64.ofNat (i + 1)

theorem WalksTo.walked (walks : WalksTo sha3 file pos s) : Walked sha3 file s := by
  induction walks with
  | start => exact ⟨rfl, rfl, rfl⟩
  | frame _ accepted ih =>
    obtain ⟨link, seq⟩ := scanFrame_link accepted
    constructor
    · rw [List.length_append, ih.records, List.length_singleton]
    · rw [List.map_append, List.map_singleton, chainHead_append, ← ih.head, link]
    · rw [List.map_append, List.map_append, ih.seqs, List.range_succ, List.map_append,
        List.map_singleton, List.map_singleton, List.map_singleton, seq]

theorem verify_walked {stream : Uint256} (ok : (chainlogVerify sha3 stream file).status = .ok)
    : Walked sha3 file (scanFile sha3 file).scan
      ∧ (chainlogVerify sha3 stream file).records = (scanFile sha3 file).scan.records
      ∧ (chainlogVerify sha3 stream file).head = (scanFile sha3 file).scan.head := by
  rw [chainlogVerify] at ok ⊢
  split at ok
  · cases ok
  · dsimp only at ok ⊢
    split at ok
    · rename_i refused
      exact absurd ok refused
    · rename_i long header
      rw [if_neg long, if_neg header]
      obtain ⟨pos, s, walks, final, -⟩ := WalksTo.start.stops ok
      refine ⟨?_, rfl, rfl⟩
      rw [scanFile, final]
      exact walks.walked

theorem Walked.last (walked : Walked sha3 file s) {entries : List Entry} {e : Entry}
    (last : s.offsets.map (entryAt file) = entries ++ [e]) : e.seq = UInt64.ofNat s.records := by
  have seqs := walked.seqs
  have count : s.records = entries.length + 1 := by
    rw [← walked.records, ← @List.length_map _ _ s.offsets (entryAt file), last, List.length_append,
      List.length_singleton]
  rw [last, count, List.map_append, List.range_succ, List.map_append] at seqs
  have lasts := (List.append_inj' seqs rfl).2
  rw [count]
  exact (List.cons.inj lasts).1

end Scan

-- Two files

/-- Without a collision among the links, two accepted files with one head and one number of records
hold the same records. The numbers need not be compared where both files have a record. -/
theorem chainlogVerify_binds {sha3 : List UInt8 → Uint256} {stream : Uint256} {a b : List UInt8}
    (injective : ∀ x ∈ hashedFrames sha3 a, ∀ y ∈ hashedFrames sha3 b, sha3 x = sha3 y → x = y)
    (okA : (chainlogVerify sha3 stream a).status = .ok)
    (okB : (chainlogVerify sha3 stream b).status = .ok)
    (heads : (chainlogVerify sha3 stream a).head = (chainlogVerify sha3 stream b).head)
    : (committed sha3 a).length = (chainlogVerify sha3 stream a).records
      ∧ ((chainlogVerify sha3 stream a).records = (chainlogVerify sha3 stream b).records →
          committed sha3 a = committed sha3 b)
      ∧ (0 < (chainlogVerify sha3 stream a).records →
          0 < (chainlogVerify sha3 stream b).records →
          (chainlogVerify sha3 stream a).records < 2 ^ 64 →
          (chainlogVerify sha3 stream b).records < 2 ^ 64 →
          committed sha3 a = committed sha3 b) := by
  obtain ⟨walkedA, recordsA, headA⟩ := verify_walked okA
  obtain ⟨walkedB, recordsB, headB⟩ := verify_walked okB
  have lengthA : (committed sha3 a).length = (scanFile sha3 a).scan.records := by
    rw [committed, List.length_map, walkedA.records]
  have lengthB : (committed sha3 b).length = (scanFile sha3 b).scan.records := by
    rw [committed, List.length_map, walkedB.records]
  rw [recordsA, recordsB]
  rw [headA, headB, walkedA.head, walkedB.head] at heads
  have binds : (scanFile sha3 a).scan.records = (scanFile sha3 b).scan.records →
      committed sha3 a = committed sha3 b := by
    intro same
    exact chainHead_inj injective (by rw [lengthA, lengthB, same]) heads
  refine ⟨lengthA, binds, ?_⟩
  intro someA someB fewA fewB
  apply binds
  -- The numbers of the last frames are part of the last link.
  rcases List.eq_nil_or_concat' (committed sha3 a) with none | ⟨as, x, lastA⟩
  · rw [none, List.length_nil] at lengthA
    omega
  · rcases List.eq_nil_or_concat' (committed sha3 b) with none | ⟨bs, y, lastB⟩
    · rw [none, List.length_nil] at lengthB
      omega
    · rw [hashedFrames, hashedFrames, lastA, lastB, chainInputs_append, chainInputs_append]
        at injective
      rw [← committed, ← committed, lastA, lastB, chainHead_append, chainHead_append] at heads
      have inputs := injective _ List.mem_concat_self _ List.mem_concat_self heads
      obtain ⟨-, rfl⟩ := Entry.input_inj inputs
      have seqs := (walkedA.last lastA).symm.trans (walkedB.last lastB)
      have numbers := congrArg UInt64.toNat seqs
      rwa [UInt64.toNat_ofNat_of_lt' fewA, UInt64.toNat_ofNat_of_lt' fewB] at numbers

-- A log and its torn copy

/-- The log of two records, and a copy with one byte behind it. -/
theorem chainlogVerify_binds_torn
    : committed sampleSha3 (sampleFile ++ []) = committed sampleSha3 (sampleFile ++ [1]) := by
  refine (@chainlogVerify_binds sampleSha3 sampleStream _ _ ?_ ?_ ?_ ?_).2.1 ?_
  · decide +kernel
  · decide +kernel
  · decide +kernel
  · decide +kernel
  · decide +kernel

end Z23.Storage.ChainLog
