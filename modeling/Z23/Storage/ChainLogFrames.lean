import Mathlib.Data.List.Induction
import Z23.Storage.ChainLog

/-!
The file that a list of records makes, and what the scan finds in it: every frame, and nothing of a
frame that is cut short.
-/

namespace Z23.Storage.ChainLog

open Z23.Lib.AppendDisk
open Z23.Lib.BitGroups

-- Records and their frames

/-- A record that an append accepts. -/
structure Record where
  kind : UInt32
  payload : List UInt8
  fits : payload.length ≤ payloadMax
deriving DecidableEq, Repr

section Hash

variable (sha3 : List UInt8 → Uint256)

def Record.front (r : Record) (s : Scan) : List UInt8 :=
  framePrefix r.kind (UInt64.ofNat (s.records + 1)) r.payload.length

def Record.chain (r : Record) (s : Scan) : Uint256 := frameHash sha3 s.head (r.front s) r.payload

/-- The frame of a record at a position, behind the frames walked through. -/
def Record.frame (r : Record) (pos : Nat) (s : Scan) : List UInt8 :=
  r.front s ++ (r.payload ++ ((r.chain sha3 s).data ++ sentinelBuild (UInt64.ofNat pos)))

def Record.accept (r : Record) (pos : Nat) (s : Scan) : Scan :=
  ⟨s.records + 1, r.chain sha3 s, s.offsets ++ [pos]⟩

def Record.need (r : Record) : Nat := frameNeed r.payload.length

def frames : Nat → Scan → List Record → List UInt8
  | _, _, [] => []
  | pos, s, r :: rest =>
    r.frame sha3 pos s ++ frames (pos + r.need) (r.accept sha3 pos s) rest

/-- What the scan knows behind the frames. -/
def afterFrames : Nat → Scan → List Record → Scan
  | _, s, [] => s
  | pos, s, r :: rest => afterFrames (pos + r.need) (r.accept sha3 pos s) rest

def framesSize (records : List Record) : Nat := (records.map Record.need).sum

def startScan (stream : Uint256) : Scan := ⟨0, sha3 (headerBuild sha3 stream), []⟩

/-- The file of a log with the records. -/
def image (stream : Uint256) (records : List Record) : List UInt8 :=
  headerBuild sha3 stream ++ frames sha3 headerBytes (startScan sha3 stream) records

/-- What is known of a log with the records. -/
def recordsScan (stream : Uint256) (records : List Record) : Scan :=
  afterFrames sha3 headerBytes (startScan sha3 stream) records

/-- A handle on a log with the records. -/
def logOf (stream : Uint256) (records : List Record) : Log where
  readOnly := false
  writeFailed := false
  stream := stream
  seed := sha3 (headerBuild sha3 stream)
  head := (recordsScan sha3 stream records).head
  count := (recordsScan sha3 stream records).records
  size := headerBytes + framesSize records
  offsets := (recordsScan sha3 stream records).offsets

-- Lengths

theorem length_framePrefix (kind : UInt32) (seq : UInt64) (len : Nat)
    : (framePrefix kind seq len).length = prefixBytes := by
  simp [framePrefix, prefixBytes]

theorem length_sentinelBuild (start : UInt64) : (sentinelBuild start).length = sentinelBytes := by
  simp [sentinelBuild, sentinelMagic, sentinelBytes]

theorem length_headerFront (stream : Uint256) : (headerFront stream).length = 48 := by
  simp [headerFront, magic, stream.size_data]

theorem length_headerBuild (stream : Uint256)
    : (headerBuild sha3 stream).length = headerBytes := by
  rw [headerBuild, List.length_append, length_headerFront, List.length_take, Uint256.size_data]
  rfl

variable {sha3} {r : Record} {pos : Nat} {s : Scan}

theorem length_frame : (r.frame sha3 pos s).length = r.need := by
  simp only [Record.frame, Record.front, List.length_append, length_framePrefix, Uint256.size_data,
    length_sentinelBuild, Record.need, frameNeed, hashBytes, Nat.add_assoc]

theorem length_frames (records : List Record)
    : (frames sha3 pos s records).length = framesSize records := by
  induction records generalizing pos s with
  | nil => rfl
  | cons r records ih =>
    rw [frames, List.length_append, length_frame, ih, framesSize, framesSize, List.map_cons,
      List.sum_cons]

theorem length_image (stream : Uint256) (records : List Record)
    : (image sha3 stream records).length = headerBytes + framesSize records := by
  rw [image, List.length_append, length_headerBuild, length_frames]

-- Reading a frame

theorem readAt_middle {front middle back : List UInt8} {at_ count : Nat}
    (start : front.length = at_) (length : middle.length = count)
    : readAt (front ++ (middle ++ back)) at_ count = middle := by
  rw [readAt, ← start, ← length, List.drop_left, List.take_left]

theorem sentinelOk_build (start : UInt64) : sentinelOk (sentinelBuild start) start = true := by
  have value : natBE (bytesBE 8 start.toNat) = start.toNat := natBE_bytesBE start.toNat_lt
  simp [sentinelOk, sentinelBuild, sentinelMagic, value]

theorem prefix_fields (kind : UInt32) (seq : UInt64) {len : Nat} (fits : len ≤ payloadMax)
    (rest : List UInt8)
    : prefixSeq (framePrefix kind seq len ++ rest) = seq
        ∧ prefixLen (framePrefix kind seq len ++ rest) = len := by
  have seqFits : seq.toNat < 256 ^ 8 := seq.toNat_lt
  have lenFits : len < 256 ^ 4 := Nat.lt_of_le_of_lt fits (by decide)
  constructor
  · have read : readAt (framePrefix kind seq len ++ rest) 4 8 = bytesBE 8 seq.toNat := by
      rw [framePrefix, List.append_assoc, List.append_assoc]
      exact readAt_middle (length_bytesBE 4 _) (length_bytesBE 8 _)
    rw [prefixSeq, read, natBE_bytesBE seqFits, UInt64.ofNat_toNat]
  · have read : readAt (framePrefix kind seq len ++ rest) 12 4 = bytesBE 4 len := by
      rw [framePrefix, List.append_assoc]
      apply readAt_middle
      · rw [List.length_append, length_bytesBE, length_bytesBE]
      · exact length_bytesBE 4 _
    rw [prefixLen, read, natBE_bytesBE lenFits]

theorem scanFrame_frame (tail : List UInt8)
    : scanFrame sha3 pos s (r.frame sha3 pos s ++ tail) = .accepted (r.chain sha3 s) r.need := by
  obtain ⟨seq, len⟩ := prefix_fields r.kind (UInt64.ofNat (s.records + 1)) r.fits
    (r.payload ++ ((r.chain sha3 s).data ++ (sentinelBuild (UInt64.ofNat pos) ++ tail)))
  have front := length_framePrefix r.kind (UInt64.ofNat (s.records + 1)) r.payload.length
  have whole : r.frame sha3 pos s ++ tail
      = framePrefix r.kind (UInt64.ofNat (s.records + 1)) r.payload.length
        ++ (r.payload ++ ((r.chain sha3 s).data ++ (sentinelBuild (UInt64.ofNat pos) ++ tail))) := by
    simp only [Record.frame, Record.front, List.append_assoc]
  have long : frameNeed r.payload.length ≤ (r.frame sha3 pos s ++ tail).length := by
    rw [List.length_append, length_frame]
    exact Nat.le_add_right _ _
  have payload : readAt (r.frame sha3 pos s ++ tail) prefixBytes r.payload.length = r.payload := by
    rw [whole]
    exact readAt_middle front rfl
  have stored : readAt (r.frame sha3 pos s ++ tail) (prefixBytes + r.payload.length) hashBytes
      = (r.chain sha3 s).data := by
    rw [whole, ← List.append_assoc]
    apply readAt_middle
    · rw [List.length_append, front]
    · exact Uint256.size_data _
  have sent : readAt (r.frame sha3 pos s ++ tail) (prefixBytes + r.payload.length + hashBytes)
      sentinelBytes = sentinelBuild (UInt64.ofNat pos) := by
    rw [whole, ← List.append_assoc, ← List.append_assoc]
    apply readAt_middle
    · rw [List.length_append, List.length_append, front, Uint256.size_data]
      rfl
    · exact length_sentinelBuild _
  have start : (r.frame sha3 pos s ++ tail).take prefixBytes
      = framePrefix r.kind (UInt64.ofNat (s.records + 1)) r.payload.length := by
    rw [whole, ← front, List.take_left]
  rw [← whole] at seq len
  have wide : ¬ (r.frame sha3 pos s ++ tail).length < prefixBytes := by
    rw [frameNeed] at long
    omega
  rw [scanFrame, if_neg wide]
  dsimp only
  rw [len, if_neg (Nat.not_lt.mpr r.fits), if_neg (Nat.not_lt.mpr long), scanAcceptFrame,
    sent, sentinelOk_build, payload, stored, start, seq]
  simp [Record.chain, Record.front, Record.need]

theorem scanFrame_cut {count : Nat} (short : count < r.need)
    : scanFrame sha3 pos s ((r.frame sha3 pos s).take count) = .stop := by
  have length : ((r.frame sha3 pos s).take count).length = count := by
    rw [List.length_take, length_frame, Nat.min_eq_left (Nat.le_of_lt short)]
  rw [scanFrame]
  by_cases tiny : count < prefixBytes
  · rw [length, if_pos tiny]
  · have front := length_framePrefix r.kind (UInt64.ofNat (s.records + 1)) r.payload.length
    have cut : (r.frame sha3 pos s).take count
        = framePrefix r.kind (UInt64.ofNat (s.records + 1)) r.payload.length
          ++ (r.payload ++ ((r.chain sha3 s).data ++ sentinelBuild (UInt64.ofNat pos))).take
            (count - prefixBytes) := by
      rw [Record.frame, Record.front, List.take_append, front, List.take_of_length_le]
      rw [front]
      exact Nat.le_of_not_lt tiny
    have len := (prefix_fields r.kind (UInt64.ofNat (s.records + 1)) r.fits
      ((r.payload ++ ((r.chain sha3 s).data ++ sentinelBuild (UInt64.ofNat pos))).take
        (count - prefixBytes))).2
    rw [← cut] at len
    rw [length, if_neg tiny]
    dsimp only
    rw [len, if_neg (Nat.not_lt.mpr r.fits)]
    exact if_pos short

-- Walking through

theorem scanFrom_accepted {rest : List UInt8} {chain : Uint256} {need : Nat}
    (accepted : scanFrame sha3 pos s rest = .accepted chain need)
    : scanFrom sha3 pos s rest
        = scanFrom sha3 (pos + need) ⟨s.records + 1, chain, s.offsets ++ [pos]⟩
            (rest.drop need) := by
  have bounds := scanFrame_accepted_pos sha3 accepted
  have some : rest ≠ [] := by
    rintro rfl
    exact absurd bounds.2 (Nat.not_le.mpr bounds.1)
  rw [scanFrom, if_neg some]
  split
  · rename_i stopped
    rw [accepted] at stopped
    cases stopped
  · rename_i refused
    rw [accepted] at refused
    cases refused
  · rename_i same
    rw [accepted] at same
    cases same
    rfl

theorem scanFrom_stop {rest : List UInt8} (stopped : scanFrame sha3 pos s rest = .stop)
    : scanFrom sha3 pos s rest = ⟨.ok, 0, rest.length, s⟩ := by
  rw [scanFrom]
  split
  · rename_i empty
    rw [empty]
    rfl
  · split
    · rfl
    · rename_i refused
      rw [stopped] at refused
      cases refused
    · rename_i accepted
      rw [stopped] at accepted
      cases accepted

theorem scanFrom_frames (records : List Record) (tail : List UInt8)
    : scanFrom sha3 pos s (frames sha3 pos s records ++ tail)
        = scanFrom sha3 (pos + framesSize records) (afterFrames sha3 pos s records) tail := by
  induction records generalizing pos s with
  | nil => rfl
  | cons r records ih =>
    rw [frames, List.append_assoc, scanFrom_accepted (scanFrame_frame _), ← length_frame,
      List.drop_left, length_frame]
    refine ih.trans ?_
    rw [framesSize, framesSize, List.map_cons, List.sum_cons, ← Nat.add_assoc]
    rfl

-- Opening

theorem headerCheck_build (stream : Uint256)
    : headerCheck sha3 (headerBuild sha3 stream) stream = .ok := by
  have front := length_headerFront stream
  have taken : (headerBuild sha3 stream).take 48 = headerFront stream := by
    rw [headerBuild, ← front, List.take_left]
  have digest : readAt (headerBuild sha3 stream) 48 16
      = (sha3 (headerFront stream)).data.take 16 := by
    rw [headerBuild, readAt, ← front, List.drop_left, List.take_of_length_le]
    rw [List.length_take]
    exact Nat.min_le_left _ _
  have streamRead : readAt (headerBuild sha3 stream) 16 streamBytes = stream.data := by
    rw [headerBuild, headerFront, List.append_assoc (magic ++ bytesBE 4 version ++ bytesBE 4 0)]
    exact readAt_middle (by simp [magic]) stream.size_data
  have magicRead : (headerBuild sha3 stream).take 8 = magic := by
    simp [headerBuild, headerFront, magic]
  have versionRead : natBE (readAt (headerBuild sha3 stream) 8 4) = version := by
    have read : readAt (headerBuild sha3 stream) 8 4 = bytesBE 4 version := by
      rw [headerBuild, headerFront]
      simp only [List.append_assoc]
      exact readAt_middle rfl (length_bytesBE 4 _)
    rw [read]
    exact natBE_bytesBE (by decide)
  have reservedRead : natBE (readAt (headerBuild sha3 stream) 12 4) = 0 := by
    have read : readAt (headerBuild sha3 stream) 12 4 = bytesBE 4 0 := by
      rw [headerBuild, headerFront]
      simp only [List.append_assoc]
      rw [← List.append_assoc magic]
      exact readAt_middle rfl (length_bytesBE 4 _)
    rw [read]
    exact natBE_bytesBE (by decide)
  rw [headerCheck, magicRead, versionRead, reservedRead, digest, taken, streamRead]
  simp

theorem openLog_header (stream : Uint256) (rest : List UInt8)
    : openLog sha3 stream (headerBuild sha3 stream ++ rest)
        = openFrames sha3 stream false (headerBuild sha3 stream ++ rest) := by
  have length := length_headerBuild sha3 stream
  have header : (headerBuild sha3 stream ++ rest).take headerBytes = headerBuild sha3 stream := by
    rw [← length, List.take_left]
  have long : ¬ (headerBuild sha3 stream ++ rest).length < headerBytes := by
    rw [List.length_append, length]
    exact Nat.not_lt.mpr (Nat.le_add_right _ _)
  have some : ¬ (headerBuild sha3 stream ++ rest = [] ∧ (!false) = true) := by
    rintro ⟨empty, -⟩
    rw [empty] at long
    exact long (by decide)
  rw [openLog, chainlogOpen]
  dsimp only
  rw [if_neg some, if_neg long, header, headerCheck_build]
  rfl

theorem openLog_empty (stream : Uint256)
    : openLog sha3 stream [] = openLog sha3 stream (image sha3 stream []) := by
  have same : image sha3 stream [] = headerBuild sha3 stream := List.append_nil _
  rw [same, ← List.append_nil (headerBuild sha3 stream), openLog_header, List.append_nil, openLog,
    chainlogOpen]
  have length := length_headerBuild sha3 stream
  have taken : (headerBuild sha3 stream).take headerBytes = headerBuild sha3 stream := by
    rw [← length, List.take_length]
  simp only [Bool.not_false, and_self, if_true, length, lt_irrefl, if_false, taken,
    headerCheck_build]
  rfl

variable (stream : Uint256) (records : List Record)

theorem frames_append (more : List Record)
    : frames sha3 pos s (records ++ more)
        = frames sha3 pos s records
          ++ frames sha3 (pos + framesSize records) (afterFrames sha3 pos s records) more
      ∧ afterFrames sha3 pos s (records ++ more)
        = afterFrames sha3 (pos + framesSize records) (afterFrames sha3 pos s records) more := by
  induction records generalizing pos s with
  | nil => exact ⟨rfl, rfl⟩
  | cons r records ih =>
    have size : pos + framesSize (r :: records) = pos + r.need + framesSize records := by
      rw [framesSize, framesSize, List.map_cons, List.sum_cons, Nat.add_assoc]
    rw [size]
    obtain ⟨bytes, scan⟩ := @ih (pos + r.need) (r.accept sha3 pos s)
    refine ⟨?_, scan⟩
    rw [List.cons_append, frames, bytes, frames, List.append_assoc]
    rfl

/-- The next frame of the log with the records. -/
def nextFrame (sha3 : List UInt8 → Uint256) (r : Record) : List UInt8 :=
  r.frame sha3 (headerBytes + framesSize records) (recordsScan sha3 stream records)

theorem image_snoc (r : Record)
    : image sha3 stream (records ++ [r])
        = image sha3 stream records ++ nextFrame stream records sha3 r := by
  rw [image, (frames_append records [r]).1, image, List.append_assoc]
  simp only [frames, List.append_nil]
  rfl

theorem recordsScan_snoc (r : Record)
    : recordsScan sha3 stream (records ++ [r])
        = r.accept sha3 (headerBytes + framesSize records) (recordsScan sha3 stream records) :=
  (frames_append records [r]).2

theorem recordsScan_records : (recordsScan sha3 stream records).records = records.length := by
  induction records using List.reverseRecOn with
  | nil => rfl
  | append_singleton records r ih =>
    rw [recordsScan_snoc, List.length_append, List.length_singleton, ← ih]
    rfl

/-- What opening finds in a log's file with a tail at which the scan stops. -/
def reportOf (sha3 : List UInt8 → Uint256) (tornBytes : Nat) : Report where
  status := .ok
  records := (recordsScan sha3 stream records).records
  firstBadSeq := 0
  tornBytes := tornBytes
  head := (recordsScan sha3 stream records).head

theorem openLog_tail {tail : List UInt8}
    (stops
      : scanFrame sha3 (headerBytes + framesSize records) (recordsScan sha3 stream records) tail
          = .stop)
    : openLog sha3 stream (image sha3 stream records ++ tail)
        = ⟨reportOf stream records sha3 tail.length, some (logOf sha3 stream records),
            image sha3 stream records⟩ := by
  have header := length_headerBuild sha3 stream
  have front : (image sha3 stream records ++ tail).take headerBytes = headerBuild sha3 stream := by
    rw [image, List.append_assoc, ← header, List.take_left]
  have behind : (image sha3 stream records ++ tail).drop headerBytes
      = frames sha3 headerBytes (startScan sha3 stream) records ++ tail := by
    rw [image, List.append_assoc, ← header, List.drop_left]
  have scanned : scanFrom sha3 headerBytes (startScan sha3 stream)
        (frames sha3 headerBytes (startScan sha3 stream) records ++ tail)
      = ⟨.ok, 0, tail.length, recordsScan sha3 stream records⟩ :=
    (scanFrom_frames records tail).trans (scanFrom_stop stops)
  have kept : (image sha3 stream records ++ tail).length - tail.length
      = headerBytes + framesSize records := by
    rw [List.length_append, Nat.add_sub_cancel, length_image]
  have start : (⟨0, sha3 (headerBuild sha3 stream), []⟩ : Scan) = startScan sha3 stream := rfl
  have opened : openLog sha3 stream (image sha3 stream records ++ tail)
      = openFrames sha3 stream false (image sha3 stream records ++ tail) := by
    rw [image, List.append_assoc]
    exact openLog_header stream _
  have file : (if tail.length ≠ 0 ∧ (!false) = true
        then (image sha3 stream records ++ tail).take (headerBytes + framesSize records)
        else image sha3 stream records ++ tail) = image sha3 stream records := by
    rw [← @length_image sha3 stream records, List.take_left]
    split
    · rfl
    · rename_i none
      rw [not_and_or, not_not] at none
      rw [List.length_eq_zero_iff.mp (none.resolve_right (by simp)), List.append_nil]
  rw [opened, openFrames, front, behind, start, scanned]
  dsimp only
  rw [kept, file]
  rfl

theorem openLog_image
    : openLog sha3 stream (image sha3 stream records)
        = ⟨reportOf stream records sha3 0, some (logOf sha3 stream records),
            image sha3 stream records⟩ := by
  have opened := @openLog_tail sha3 stream records [] rfl
  rwa [List.append_nil] at opened

/-- A file cut within its next frame is a log with the records, or with one more when the whole
frame is there. -/
theorem openLog_cut (r : Record) (count : Nat)
    : ∃ records' report, (records' = records ∨ records' = records ++ [r])
        ∧ report.status = .ok ∧ report.records = records'.length
        ∧ report.head = (logOf sha3 stream records').head
        ∧ openLog sha3 stream
            (image sha3 stream records ++ (nextFrame stream records sha3 r).take count)
          = ⟨report, some (logOf sha3 stream records'), image sha3 stream records'⟩ := by
  by_cases short : count < r.need
  · exact ⟨records, _, .inl rfl, rfl, recordsScan_records stream records, rfl,
      openLog_tail stream records (scanFrame_cut short)⟩
  · refine ⟨records ++ [r], reportOf stream (records ++ [r]) sha3 0, .inr rfl, rfl,
      recordsScan_records stream (records ++ [r]), rfl, ?_⟩
    have whole : (nextFrame stream records sha3 r).take count = nextFrame stream records sha3 r := by
      apply List.take_of_length_le
      rw [nextFrame, length_frame]
      exact Nat.le_of_not_lt short
    rw [whole, ← image_snoc]
    exact openLog_image stream (records ++ [r])

end Hash

end Z23.Storage.ChainLog
