import Z23.Lib.AppendDisk
import Z23.Lib.BitGroups
import Z23.Primitives

/-!
The chain log: an append-only file of hash-chained frames, each committed by a sentinel behind it.
Opening walks the frames, refuses what was altered and drops an uncommitted tail.

Reads, the lock and allocations succeed here; writes and flushes of an append may fail.
-/

namespace Z23.Storage.ChainLog

open Z23.Lib.AppendDisk
open Z23.Lib.BitGroups

-- Format

def headerBytes : Nat := 64

def streamBytes : Nat := 32

def hashBytes : Nat := 32

/-- Kind, sequence number and length. -/
def prefixBytes : Nat := 16

def sentinelBytes : Nat := 16

def payloadMax : Nat := 65536

/-- "Z23CHLOG" -/
def magic : List UInt8 := [0x5a, 0x32, 0x33, 0x43, 0x48, 0x4c, 0x4f, 0x47]

/-- "Z23CMIT" -/
def sentinelMagic : List UInt8 := [0x5a, 0x32, 0x33, 0x43, 0x4d, 0x49, 0x54]

def version : Nat := 1

inductive Status where
  | ok
  | argument
  | io
  | format
  | streamMismatch
  | brokenChain
  | sequence
  | uncommittedGap
deriving DecidableEq, Repr

/-- The `count` bytes of a file from a position on. -/
def readAt (file : List UInt8) (pos count : Nat) : List UInt8 := (file.drop pos).take count

section Hash

variable (sha3 : List UInt8 → Uint256)

def headerFront (stream : Uint256) : List UInt8 :=
  magic ++ bytesBE 4 version ++ bytesBE 4 0 ++ stream.data

/-- Models `header_build`. -/
def headerBuild (stream : Uint256) : List UInt8 :=
  headerFront stream ++ (sha3 (headerFront stream)).data.take 16

/-- Models `header_check`. -/
def headerCheck (hdr : List UInt8) (stream : Uint256) : Status :=
  if hdr.take 8 ≠ magic then .format
  else if natBE (readAt hdr 8 4) ≠ version then .format
  else if natBE (readAt hdr 12 4) ≠ 0 then .format
  else if readAt hdr 48 16 ≠ (sha3 (hdr.take 48)).data.take 16 then .format
  else if readAt hdr 16 streamBytes ≠ stream.data then .streamMismatch
  else .ok

/-- Models `frame_hash`. -/
def frameHash (prev : Uint256) (framePrefix payload : List UInt8) : Uint256 :=
  sha3 (prev.data ++ framePrefix ++ payload)

end Hash

def framePrefix (kind : UInt32) (seq : UInt64) (len : Nat) : List UInt8 :=
  bytesBE 4 kind.toNat ++ bytesBE 8 seq.toNat ++ bytesBE 4 len

/-- Models `sentinel_build`. -/
def sentinelBuild (start : UInt64) : List UInt8 := sentinelMagic ++ [0] ++ bytesBE 8 start.toNat

/-- Models `sentinel_ok`. -/
def sentinelOk (sent : List UInt8) (start : UInt64) : Bool :=
  sent.take 7 = sentinelMagic && sent[7]? = some 0 && natBE (sent.drop 8) = start.toNat

-- The scan

/-- What is known of the frames walked through. -/
structure Scan where
  records : Nat
  head : Uint256
  offsets : List Nat
deriving DecidableEq, Repr

/-- How the bytes from a position on begin: with the end of the committed frames, with something
refused, or with a committed frame of `need` bytes. -/
inductive FrameScan where
  | stop
  | refused (status : Status) (seq : UInt64)
  | accepted (chain : Uint256) (need : Nat)
deriving DecidableEq, Repr

def prefixSeq (rest : List UInt8) : UInt64 := UInt64.ofNat (natBE (readAt rest 4 8))

def prefixLen (rest : List UInt8) : Nat := natBE (readAt rest 12 4)

/-- The bytes of a frame with a payload of `len` bytes. -/
def frameNeed (len : Nat) : Nat := prefixBytes + len + hashBytes + sentinelBytes

section Hash

variable (sha3 : List UInt8 → Uint256)

/-- Models `scan_accept_frame`, where `rest` are the bytes from `pos` to the end of the file. -/
def scanAcceptFrame (pos : Nat) (s : Scan) (rest : List UInt8) (len : Nat) : FrameScan :=
  let need := frameNeed len
  let payload := readAt rest prefixBytes len
  let stored := readAt rest (prefixBytes + len) hashBytes
  let sent := readAt rest (prefixBytes + len + hashBytes) sentinelBytes
  let chain := frameHash sha3 s.head (rest.take prefixBytes) payload
  if !sentinelOk sent (UInt64.ofNat pos) then
    if need ≠ rest.length then .refused .uncommittedGap (prefixSeq rest) else .stop
  else if chain.data ≠ stored then .refused .brokenChain (prefixSeq rest)
  else if prefixSeq rest ≠ UInt64.ofNat (s.records + 1) then .refused .sequence (prefixSeq rest)
  else .accepted chain need

/-- Models `scan_frame_prefix` followed by `scan_accept_frame`. -/
def scanFrame (pos : Nat) (s : Scan) (rest : List UInt8) : FrameScan :=
  if rest.length < prefixBytes then .stop
  else
    let len := prefixLen rest
    if len > payloadMax then .refused .format (prefixSeq rest)
    else if rest.length < frameNeed len then .stop
    else scanAcceptFrame sha3 pos s rest len

/-- The outcome of a scan: `tornBytes` counts an uncommitted tail. -/
structure ScanResult where
  status : Status
  firstBadSeq : UInt64
  tornBytes : Nat
  scan : Scan
deriving DecidableEq, Repr

theorem scanFrame_accepted {pos : Nat} {s : Scan} {rest : List UInt8} {chain : Uint256}
    {need : Nat} (accepted : scanFrame sha3 pos s rest = .accepted chain need)
    : need = frameNeed (prefixLen rest) ∧ need ≤ rest.length
      ∧ prefixSeq rest = UInt64.ofNat (s.records + 1)
      ∧ chain = frameHash sha3 s.head (rest.take prefixBytes)
          (readAt rest prefixBytes (prefixLen rest)) := by
  rw [scanFrame] at accepted
  split at accepted
  · cases accepted
  · dsimp only at accepted
    split at accepted
    · cases accepted
    · split at accepted
      · cases accepted
      · rename_i _ fits
        rw [scanAcceptFrame] at accepted
        split at accepted
        · split at accepted <;> cases accepted
        · split at accepted
          · cases accepted
          · split at accepted
            · cases accepted
            · rename_i seq
              cases accepted
              exact ⟨rfl, Nat.le_of_not_lt fits, not_not.mp seq, rfl⟩

theorem scanFrame_accepted_pos {pos : Nat} {s : Scan} {rest : List UInt8} {chain : Uint256}
    {need : Nat} (accepted : scanFrame sha3 pos s rest = .accepted chain need)
    : 0 < need ∧ need ≤ rest.length := by
  obtain ⟨rfl, fits, -⟩ := scanFrame_accepted sha3 accepted
  exact ⟨Nat.succ_pos _, fits⟩

/-- Models `scan`, from a position on. -/
def scanFrom (pos : Nat) (s : Scan) (rest : List UInt8) : ScanResult :=
  if rest = [] then ⟨.ok, 0, 0, s⟩
  else
    match _accepts : scanFrame sha3 pos s rest with
    | .stop => ⟨.ok, 0, rest.length, s⟩
    | .refused status seq => ⟨status, seq, 0, s⟩
    | .accepted chain need =>
      scanFrom (pos + need) ⟨s.records + 1, chain, s.offsets ++ [pos]⟩ (rest.drop need)
termination_by rest.length
decreasing_by
  obtain ⟨positive, fits⟩ := scanFrame_accepted_pos sha3 _accepts
  rw [List.length_drop]
  omega

-- Opening

/-- Models `struct zcl_chainlog`. -/
structure Log where
  readOnly : Bool
  writeFailed : Bool
  stream : Uint256
  seed : Uint256
  head : Uint256
  count : Nat
  size : Nat
  offsets : List Nat
deriving DecidableEq, Repr

/-- Models `struct zcl_chainlog_report`. -/
structure Report where
  status : Status
  records : Nat
  firstBadSeq : UInt64
  tornBytes : Nat
  head : Uint256
deriving DecidableEq, Repr

/-- The report, the handle unless refused, and the file as it is left. -/
structure Opened where
  report : Report
  log : Option Log
  file : List UInt8
deriving DecidableEq, Repr

/-- A refusal before the scan, with the report reset. -/
def refuse (status : Status) (file : List UInt8) : Opened :=
  ⟨⟨status, 0, 0, 0, Uint256.fill 0⟩, none, file⟩

/-- The part of `chainlog_open` behind the header. -/
def openFrames (stream : Uint256) (readOnly : Bool) (file : List UInt8) : Opened :=
  let seed := sha3 (file.take headerBytes)
  let r := scanFrom sha3 headerBytes ⟨0, seed, []⟩ (file.drop headerBytes)
  let report : Report := ⟨r.status, r.scan.records, r.firstBadSeq, r.tornBytes, r.scan.head⟩
  if r.status ≠ .ok then ⟨report, none, file⟩
  else
    let kept := file.length - r.tornBytes
    { report
      log := some {
        readOnly
        writeFailed := false
        stream
        seed
        head := r.scan.head
        count := r.scan.records
        size := kept
        offsets := r.scan.offsets }
      file := if r.tornBytes ≠ 0 ∧ !readOnly then file.take kept else file }

/-- Models `chainlog_open`; an empty file gets its header unless it is only observed. -/
def chainlogOpen (stream : Uint256) (readOnly : Bool) (file : List UInt8) : Opened :=
  let file := if file = [] ∧ !readOnly then headerBuild sha3 stream else file
  if file.length < headerBytes then refuse .format file
  else
    let status := headerCheck sha3 (file.take headerBytes) stream
    if status ≠ .ok then refuse status file else openFrames sha3 stream readOnly file

/-- Models `zcl_chainlog_open`. -/
def openLog (stream : Uint256) (file : List UInt8) : Opened := chainlogOpen sha3 stream false file

-- Appending

/-- The chain value of the next frame. -/
def nextChain (log : Log) (kind : UInt32) (payload : List UInt8) : Uint256 :=
  frameHash sha3 log.head (framePrefix kind (UInt64.ofNat (log.count + 1)) payload.length) payload

/-- The two phases of `chainlog_write_frame`: the frame and a flush, its sentinel and a flush. -/
def frameOps (log : Log) (kind : UInt32) (payload : List UInt8) : List IoOp :=
  let pos := log.size
  [.write (framePrefix kind (UInt64.ofNat (log.count + 1)) payload.length) pos]
    ++ (if payload = [] then [] else [.write payload (pos + prefixBytes)])
    ++ [.write (nextChain sha3 log kind payload).data (pos + prefixBytes + payload.length),
      .flush,
      .write (sentinelBuild (UInt64.ofNat pos)) (pos + prefixBytes + payload.length + hashBytes),
      .flush]

/-- Models `zcl_chainlog_append`. -/
def append (log : Log) (disk : Disk) (kind : UInt32) (payload : List UInt8)
    (results : List IoResult) : Status × Log × Disk :=
  if log.readOnly ∨ payload.length > payloadMax then (.argument, log, disk)
  else if log.writeFailed then (.io, log, disk)
  else
    let (disk, written) := Disk.run (frameOps sha3 log kind payload) results disk
    if !written then (.io, { log with writeFailed := true }, disk)
    else
      (.ok, { log with
        head := nextChain sha3 log kind payload
        count := log.count + 1
        size := log.size + frameNeed payload.length
        offsets := log.offsets ++ [log.size] }, disk)

end Hash

end Z23.Storage.ChainLog
