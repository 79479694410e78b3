import Z23.Storage.ChainLogFrames

/-!
Crashes: at whatever byte of an append the machine stops, reopening finds the records whose append
returned, at most with the interrupted one behind them, and goes on from there.
-/

namespace Z23.Storage.ChainLog

open Z23.Lib.AppendDisk
open Z23.Lib.BitGroups

variable {sha3 : List UInt8 → Uint256} {stream : Uint256} {records : List Record}

-- One append

theorem frameOps_continues (r : Record)
    : Continues (image sha3 stream records) (nextFrame stream records sha3 r) 0
          (frameOps sha3 (logOf sha3 stream records) r.kind r.payload)
        ∧ advance 0 (frameOps sha3 (logOf sha3 stream records) r.kind r.payload)
          = (nextFrame stream records sha3 r).length := by
  obtain ⟨log, sameLog⟩ : ∃ log, log = logOf sha3 stream records := ⟨_, rfl⟩
  obtain ⟨front, isFront⟩
      : ∃ front, front = framePrefix r.kind (UInt64.ofNat (log.count + 1)) r.payload.length :=
    ⟨_, rfl⟩
  obtain ⟨chain, isChain⟩ : ∃ chain, chain = (nextChain sha3 log r.kind r.payload).data := ⟨_, rfl⟩
  obtain ⟨sentinel, isSentinel⟩ : ∃ sentinel, sentinel = sentinelBuild (UInt64.ofNat log.size) :=
    ⟨_, rfl⟩
  have frontLength : front.length = prefixBytes := by
    rw [isFront, length_framePrefix]
  have chainLength : chain.length = hashBytes := by
    rw [isChain, Uint256.size_data]
    rfl
  have whole : nextFrame stream records sha3 r
      = front ++ (r.payload ++ (chain ++ sentinel)) := by
    rw [isFront, isChain, isSentinel, sameLog]
    rfl
  have size : log.size = (image sha3 stream records).length := by
    rw [sameLog, length_image]
    rfl
  have behindFront : (front ++ (r.payload ++ (chain ++ sentinel))).drop prefixBytes
      = r.payload ++ (chain ++ sentinel) := by
    rw [← frontLength, List.drop_left]
  have behindPayload : (front ++ (r.payload ++ (chain ++ sentinel))).drop
      (prefixBytes + r.payload.length) = chain ++ sentinel := by
    rw [← List.drop_drop, behindFront, List.drop_left]
  have behindChain : (front ++ (r.payload ++ (chain ++ sentinel))).drop
      (prefixBytes + r.payload.length + hashBytes) = sentinel := by
    rw [← List.drop_drop, behindPayload, ← chainLength, List.drop_left]
  have sentinelLength : sentinel.length = sentinelBytes := by
    rw [isSentinel, length_sentinelBuild]
  have tail : Continues (image sha3 stream records) (front ++ (r.payload ++ (chain ++ sentinel)))
      (prefixBytes + r.payload.length)
      [.write chain (log.size + prefixBytes + r.payload.length), .flush,
        .write sentinel (log.size + prefixBytes + r.payload.length + hashBytes), .flush] := by
    refine ⟨?_, ?_, ?_, ?_, trivial⟩
    · rw [size, Nat.add_assoc]
    · rw [behindPayload]
      exact List.prefix_append _ _
    · rw [size, chainLength, Nat.add_assoc, Nat.add_assoc, Nat.add_assoc]
    · refine ⟨[], ?_⟩
      rw [List.append_nil, chainLength, behindChain]
  have place : log.size + prefixBytes = (image sha3 stream records).length + prefixBytes := by
    rw [size]
  have next : r.payload <+: (front ++ (r.payload ++ (chain ++ sentinel))).drop prefixBytes := by
    rw [behindFront]
    exact List.prefix_append _ _
  obtain ⟨continues, advances⟩ := continues_optional place next tail
  rw [whole, frameOps, ← sameLog, ← isFront, ← isChain, ← isSentinel, List.append_assoc,
    List.singleton_append]
  refine ⟨⟨size, List.prefix_append _ _, ?_⟩, ?_⟩
  · rw [Nat.zero_add, frontLength]
    exact continues
  · rw [advance, Nat.zero_add, frontLength, advances]
    simp only [advance, List.length_append, frontLength, chainLength, sentinelLength]
    omega

theorem frameOps_flushes (log : Log) (kind : UInt32) (payload : List UInt8) (d : Disk)
    : ((frameOps sha3 log kind payload).foldl Disk.apply d).pending = [] := by
  rw [frameOps, List.foldl_append]
  rfl

/-- The log with the records, everything flushed. -/
def diskOf (sha3 : List UInt8 → Uint256) (stream : Uint256) (records : List Record) : Disk :=
  ⟨image sha3 stream records, []⟩

theorem run_frameOps_done (r : Record) (results : List IoResult)
    (done
      : (Disk.run (frameOps sha3 (logOf sha3 stream records) r.kind r.payload) results
          (diskOf sha3 stream records)).2 = true)
    : (Disk.run (frameOps sha3 (logOf sha3 stream records) r.kind r.payload) results
          (diskOf sha3 stream records)).1
        = diskOf sha3 stream (records ++ [r]) := by
  obtain ⟨continues, advances⟩ := @frameOps_continues sha3 stream records r
  have contents := ((Growing.start _ _).foldl continues).contents
  rw [advances, List.take_length, ← image_snoc] at contents
  have flushed := Disk.eq_of_flushed (@frameOps_flushes sha3 (logOf sha3 stream records) r.kind
    r.payload (diskOf sha3 stream records))
  rw [Disk.run_done results done, flushed]
  exact congrArg (Disk.mk · []) contents

theorem logOf_snoc (r : Record)
    : logOf sha3 stream (records ++ [r])
        = { logOf sha3 stream records with
            head := nextChain sha3 (logOf sha3 stream records) r.kind r.payload
            count := (logOf sha3 stream records).count + 1
            size := (logOf sha3 stream records).size + frameNeed r.payload.length
            offsets := (logOf sha3 stream records).offsets
              ++ [(logOf sha3 stream records).size] } := by
  have size : framesSize (records ++ [r]) = framesSize records + frameNeed r.payload.length := by
    rw [framesSize, List.map_append, List.sum_append, List.map_singleton, List.sum_singleton]
    rfl
  rw [logOf, recordsScan_snoc, size, ← Nat.add_assoc]
  rfl

/-- What an append does to a log at rest: it adds the record, or fails and leaves a part of its
frame behind. -/
theorem append_rest (kind : UInt32) (payload : List UInt8) (results : List IoResult)
    (fits : payload.length ≤ payloadMax)
    : append sha3 (logOf sha3 stream records) (diskOf sha3 stream records) kind payload results
          = (.ok, logOf sha3 stream (records ++ [⟨kind, payload, fits⟩]),
              diskOf sha3 stream (records ++ [⟨kind, payload, fits⟩]))
        ∨ ∃ disk part,
            append sha3 (logOf sha3 stream records) (diskOf sha3 stream records) kind payload results
              = (.io, { logOf sha3 stream records with writeFailed := true }, disk)
            ∧ Growing (image sha3 stream records)
                (nextFrame stream records sha3 ⟨kind, payload, fits⟩) part disk
            ∧ (Disk.run (frameOps sha3 (logOf sha3 stream records) kind payload) results
                (diskOf sha3 stream records)).2 = false := by
  have accepted : ¬ ((logOf sha3 stream records).readOnly = true
      ∨ payload.length > payloadMax) := by
    rintro (readOnly | long)
    · cases readOnly
    · exact absurd fits (Nat.not_le.mpr long)
  have sound : ¬ (logOf sha3 stream records).writeFailed = true := by
    rintro failed
    cases failed
  rw [append, if_neg accepted, if_neg sound]
  cases done : (Disk.run (frameOps sha3 (logOf sha3 stream records) kind payload) results
      (diskOf sha3 stream records)).2 with
  | true =>
    left
    have disk := run_frameOps_done ⟨kind, payload, fits⟩ results done
    dsimp only at disk
    dsimp only
    rw [done, disk, logOf_snoc]
    rfl
  | false =>
    right
    obtain ⟨part, growing⟩ := (Growing.start _ _).run
      (@frameOps_continues sha3 stream records ⟨kind, payload, fits⟩).1 results
    refine ⟨_, part, ?_, growing, rfl⟩
    dsimp only
    rw [done]
    rfl

-- Histories

/-- What a crash inside an append leaves: some of its operations were made, and of the bytes not
flushed the first `kept` survive. -/
def crashInside (sha3 : List UInt8 → Uint256) (log : Log) (disk : Disk) (r : Record)
    (made kept : Nat) : List UInt8 :=
  (((frameOps sha3 log r.kind r.payload).take made).foldl Disk.apply disk).crash kept

/-- The states of a log since its creation: the handle, the disk, the records, and the record whose
append failed on this handle. A reopened log has as many of the records as its handle counts. -/
inductive Session (sha3 : List UInt8 → Uint256) (stream : Uint256)
    : Log → Disk → List Record → Option Record → Prop where
  | created {log : Log} (opened : (openLog sha3 stream []).log = some log)
      : Session sha3 stream log ⟨(openLog sha3 stream []).file, []⟩ [] none
  | appended {log log' : Log} {disk disk' : Disk} {records : List Record}
      {interrupted : Option Record} {r : Record} {results : List IoResult}
      (session : Session sha3 stream log disk records interrupted)
      (returned : append sha3 log disk r.kind r.payload results = (.ok, log', disk'))
      : Session sha3 stream log' disk' (records ++ [r]) interrupted
  | failed {log log' : Log} {disk disk' : Disk} {records : List Record}
      {interrupted : Option Record} {r : Record} {results : List IoResult}
      (session : Session sha3 stream log disk records interrupted)
      (returned : append sha3 log disk r.kind r.payload results = (.io, log', disk'))
      : Session sha3 stream log' disk' records (interrupted.or (some r))
  | refused {log log' : Log} {disk disk' : Disk} {records : List Record}
      {interrupted : Option Record} {kind : UInt32} {payload : List UInt8}
      {results : List IoResult} (session : Session sha3 stream log disk records interrupted)
      (returned : append sha3 log disk kind payload results = (.argument, log', disk'))
      : Session sha3 stream log' disk' records interrupted
  | reopened {log log' : Log} {disk : Disk} {records : List Record}
      {interrupted : Option Record} {kept : Nat}
      (session : Session sha3 stream log disk records interrupted)
      (opened : (openLog sha3 stream (disk.crash kept)).log = some log')
      : Session sha3 stream log' ⟨(openLog sha3 stream (disk.crash kept)).file, []⟩
          ((records ++ interrupted.toList).take log'.count) none
  | crashed {log log' : Log} {disk : Disk} {records : List Record} {r : Record} {made kept : Nat}
      (session : Session sha3 stream log disk records none)
      (opened : (openLog sha3 stream (crashInside sha3 log disk r made kept)).log = some log')
      : Session sha3 stream log' ⟨(openLog sha3 stream
        (crashInside sha3 log disk r made kept)).file, []⟩
          ((records ++ [r]).take log'.count) none

/-- At rest with the records, or with a failed append's frame in part behind them. -/
def Holds (sha3 : List UInt8 → Uint256) (stream : Uint256) (log : Log) (disk : Disk)
    (records : List Record) : Option Record → Prop
  | none => log = logOf sha3 stream records ∧ disk = diskOf sha3 stream records
  | some r =>
    log = { logOf sha3 stream records with writeFailed := true }
      ∧ ∃ part, Growing (image sha3 stream records) (nextFrame stream records sha3 r) part disk

/-- The file opens as a log with the records, or with `more` behind them, and as nothing else. -/
def Recovers (sha3 : List UInt8 → Uint256) (stream : Uint256) (file : List UInt8)
    (records more : List Record) : Prop :=
  ∃ records' report, (records' = records ∨ records' = records ++ more)
    ∧ report.status = .ok ∧ report.records = records'.length
    ∧ report.head = (logOf sha3 stream records').head
    ∧ openLog sha3 stream file
      = ⟨report, some (logOf sha3 stream records'), image sha3 stream records'⟩

variable {log : Log} {disk : Disk} {interrupted : Option Record}

theorem Holds.recovers (holds : Holds sha3 stream log disk records interrupted) (kept : Nat)
    : Recovers sha3 stream (disk.crash kept) records interrupted.toList := by
  cases interrupted with
  | none =>
    obtain ⟨-, rfl⟩ := holds
    have same : (diskOf sha3 stream records).crash kept = image sha3 stream records := by
      rw [diskOf, Disk.crash, List.take_nil]
      rfl
    rw [same]
    exact ⟨records, _, .inl rfl, rfl, recordsScan_records stream records, rfl,
      openLog_image stream records⟩
  | some r =>
    obtain ⟨-, part, growing⟩ := holds
    obtain ⟨left, -, crashed⟩ := growing.crash kept
    rw [crashed]
    exact openLog_cut stream records r left

theorem Holds.recovers_inside (holds : Holds sha3 stream log disk records none) (r : Record)
    (made kept : Nat)
    : Recovers sha3 stream (crashInside sha3 log disk r made kept) records [r] := by
  obtain ⟨rfl, rfl⟩ := holds
  have continues := (@frameOps_continues sha3 stream records r).1.take made
  obtain ⟨left, -, crashed⟩ := ((Growing.start _ _).foldl continues).crash kept
  rw [crashInside, diskOf, crashed]
  exact openLog_cut stream records r left

variable {log' : Log}

theorem Recovers.holds {file : List UInt8} {more : List Record}
    (recovers : Recovers sha3 stream file records more)
    (opened : (openLog sha3 stream file).log = some log')
    : Holds sha3 stream log' ⟨(openLog sha3 stream file).file, []⟩
        ((records ++ more).take log'.count) none := by
  obtain ⟨records', report, which, -, -, -, result⟩ := recovers
  rw [result] at opened ⊢
  obtain rfl := Option.some.inj opened
  have count : (logOf sha3 stream records').count = records'.length :=
    recordsScan_records stream records'
  have counted : (records ++ more).take (logOf sha3 stream records').count = records' := by
    rw [count]
    rcases which with rfl | rfl
    · exact List.take_left
    · exact List.take_length
  rw [counted]
  exact ⟨rfl, rfl⟩

variable {results : List IoResult} {disk' : Disk}

theorem Holds.append (holds : Holds sha3 stream log disk records interrupted) {r : Record}
    {status : Status} (returned : append sha3 log disk r.kind r.payload results = (status, log', disk'))
    : (status = .ok → Holds sha3 stream log' disk' (records ++ [r]) interrupted)
      ∧ (status = .io → Holds sha3 stream log' disk' records (interrupted.or (some r))) := by
  by_cases unaccepted : log.readOnly = true ∨ r.payload.length > payloadMax
  · rw [ChainLog.append, if_pos unaccepted] at returned
    cases returned
    exact ⟨nofun, nofun⟩
  cases interrupted with
  | none =>
    obtain ⟨rfl, rfl⟩ := holds
    rcases append_rest r.kind r.payload results r.fits with done | ⟨disk, part, failed, growing, -⟩
    · rw [done] at returned
      cases returned
      exact ⟨fun _ => ⟨rfl, rfl⟩, nofun⟩
    · rw [failed] at returned
      cases returned
      exact ⟨nofun, fun _ => ⟨rfl, part, growing⟩⟩
  | some old =>
    obtain ⟨rfl, growing⟩ := holds
    rw [ChainLog.append, if_neg unaccepted, if_pos rfl] at returned
    cases returned
    exact ⟨nofun, fun _ => ⟨rfl, growing⟩⟩

theorem append_argument {kind : UInt32} {payload : List UInt8}
    (returned : append sha3 log disk kind payload results = (.argument, log', disk'))
    : log' = log ∧ disk' = disk := by
  rw [append] at returned
  split at returned
  · cases returned
    exact ⟨rfl, rfl⟩
  · split at returned
    · cases returned
    · dsimp only at returned
      split at returned <;> cases returned

theorem Session.holds (session : Session sha3 stream log disk records interrupted)
    : Holds sha3 stream log disk records interrupted := by
  induction session with
  | created opened =>
    rw [openLog_empty, openLog_image] at opened ⊢
    cases opened
    exact ⟨rfl, rfl⟩
  | appended _ returned ih => exact (ih.append returned).1 rfl
  | failed _ returned ih => exact (ih.append returned).2 rfl
  | refused _ returned ih =>
    obtain ⟨rfl, rfl⟩ := append_argument returned
    exact ih
  | reopened _ opened ih => exact (ih.recovers _).holds opened
  | crashed _ opened ih => exact (ih.recovers_inside _ _ _).holds opened

theorem Holds.writable (holds : Holds sha3 stream log disk records interrupted)
    (writable : log.writeFailed = false)
    : interrupted = none := by
  cases interrupted with
  | none => rfl
  | some r =>
    rw [holds.1] at writable
    cases writable

theorem append_failed {kind : UInt32} {payload : List UInt8} {results : List IoResult}
    (failed : log.writeFailed = true)
    : (append sha3 log disk kind payload results).1 ≠ .ok
        ∧ (append sha3 log disk kind payload results).2 = (log, disk) := by
  rw [append]
  split
  · exact ⟨Status.noConfusion, rfl⟩
  · exact ⟨Status.noConfusion, rfl⟩

theorem append_io_writeFailed {kind : UInt32} {payload : List UInt8}
    (returned : append sha3 log disk kind payload results = (.io, log', disk'))
    : log'.writeFailed = true := by
  rw [append] at returned
  split at returned
  · cases returned
  · split at returned
    · rename_i failed
      cases returned
      exact failed
    · dsimp only at returned
      split at returned
      · cases returned
        rfl
      · cases returned

/-- In every state of a log, whatever crashes came before: the handle counts the records, a crash
now or inside the next append is recovered from, an append that returns extends the chain, and
after one that failed to write or flush every further one is refused and changes nothing. -/
theorem session_recovers (session : Session sha3 stream log disk records interrupted)
    : { log with writeFailed := false } = logOf sha3 stream records
        ∧ log.count = records.length
        ∧ (∀ kept, Recovers sha3 stream (disk.crash kept) records interrupted.toList)
        ∧ (log.writeFailed = false → ∀ r made kept,
            Recovers sha3 stream (crashInside sha3 log disk r made kept) records [r])
        ∧ (∀ r results log' disk',
            append sha3 log disk r.kind r.payload results = (.ok, log', disk') →
              log' = logOf sha3 stream (records ++ [r])
                ∧ disk' = diskOf sha3 stream (records ++ [r]))
        ∧ ∀ kind payload results log' disk',
            append sha3 log disk kind payload results = (.io, log', disk') →
              ∀ kind' payload' results',
                (append sha3 log' disk' kind' payload' results').1 ≠ .ok
                  ∧ (append sha3 log' disk' kind' payload' results').2 = (log', disk') := by
  have holds := session.holds
  have handle : { log with writeFailed := false } = logOf sha3 stream records := by
    cases interrupted with
    | none => rw [holds.1, logOf]
    | some r => rw [holds.1, logOf]
  refine ⟨handle, ?_, holds.recovers, ?_, ?_, ?_⟩
  · exact (congrArg Log.count handle).trans (recordsScan_records stream records)
  · intro writable r made kept
    have rest := holds.writable writable
    subst rest
    exact holds.recovers_inside r made kept
  · intro r results log' disk' returned
    have after := (holds.append returned).1 rfl
    cases interrupted with
    | none => exact after
    | some old =>
      have failed : log.writeFailed = true := by
        rw [holds.1]
      have refused := (@append_failed sha3 log disk r.kind r.payload results failed).1
      rw [returned] at refused
      exact absurd rfl refused
  · intro kind payload results log' disk' returned kind' payload' results'
    exact append_failed (append_io_writeFailed returned)

-- A log of one record

def sampleStream : Uint256 := Uint256.fill 7

def sampleDigest (value : Nat) : Uint256 := Uint256.ofNatLE value

/-- SHA3-256 of the header's front, of the header and of the first two links. -/
def sampleSha3 (bytes : List UInt8) : Uint256 :=
  let front := sampleDigest 0x2108c4cb696bfe79b2b46ec37d6e98941b6d28085246d102331db91c65f23f85
  let seed := sampleDigest 0x8d88b5cd6e4a5a33ff6217708b5efd7d2bb74719b6cd1d7a70bb5033fadbc457
  let link := sampleDigest 0xe075df07f43c18fdaa3067911f498006e49adb7b700d3ea205ea5af126e6804a
  if bytes = headerFront sampleStream then front
  else if bytes = headerFront sampleStream ++ front.data.take 16 then seed
  else if bytes = seed.data ++ framePrefix 3 1 2 ++ [8, 9] then link
  else if bytes = link.data ++ framePrefix 3 2 2 ++ [8, 9] then
    sampleDigest 0x2d3392653fc26d38711ed421a97e408a168c861ea46e27386131cbb814f08162
  else Uint256.fill 0

def sampleRecord : Record := ⟨3, [8, 9], by decide⟩

theorem session_created (sha3 : List UInt8 → Uint256) (stream : Uint256)
    : Session sha3 stream (logOf sha3 stream []) (diskOf sha3 stream []) [] none := by
  have opened : (openLog sha3 stream []).log = some (logOf sha3 stream []) := by
    rw [openLog_empty, openLog_image]
  have created := Session.created opened
  rwa [openLog_empty, openLog_image] at created

theorem Session.append_done (session : Session sha3 stream (logOf sha3 stream records)
      (diskOf sha3 stream records) records none) (r : Record)
    : Session sha3 stream (logOf sha3 stream (records ++ [r]))
        (diskOf sha3 stream (records ++ [r])) (records ++ [r]) none := by
  rcases append_rest r.kind r.payload [] r.fits with done | ⟨_, _, _, _, undone⟩
  · exact session.appended done
  · rw [Disk.run_nil] at undone
    cases undone

theorem session_one_record
    : Session sampleSha3 sampleStream (logOf sampleSha3 sampleStream [sampleRecord])
        (diskOf sampleSha3 sampleStream [sampleRecord]) [sampleRecord] none :=
  (session_created sampleSha3 sampleStream).append_done sampleRecord

theorem session_recovers_sample
    : (logOf sampleSha3 sampleStream [sampleRecord]).count = 1
        ∧ Recovers sampleSha3 sampleStream
            (crashInside sampleSha3 (logOf sampleSha3 sampleStream [sampleRecord])
              (diskOf sampleSha3 sampleStream [sampleRecord]) ⟨4, [], by decide⟩ 2 5)
            [sampleRecord] [⟨4, [], by decide⟩] := by
  have recovers := session_recovers session_one_record
  exact ⟨recovers.2.1, recovers.2.2.2.1 rfl ⟨4, [], by decide⟩ 2 5⟩

/-- An append that failed for its arguments does not keep the handle from further ones. -/
theorem append_after_argument
    : Session sampleSha3 sampleStream (logOf sampleSha3 sampleStream [])
          (diskOf sampleSha3 sampleStream []) [] none
        ∧ (append sampleSha3 (logOf sampleSha3 sampleStream []) (diskOf sampleSha3 sampleStream []) 0
          (List.replicate 65537 0) []).1 = .argument
        ∧ (append sampleSha3
            (append sampleSha3 (logOf sampleSha3 sampleStream [])
              (diskOf sampleSha3 sampleStream []) 0 (List.replicate 65537 0) []).2.1
            (append sampleSha3 (logOf sampleSha3 sampleStream [])
              (diskOf sampleSha3 sampleStream []) 0 (List.replicate 65537 0) []).2.2 0 [] []).1
          = .ok := by
  have long : (logOf sampleSha3 sampleStream []).readOnly = true
      ∨ (List.replicate 65537 (0 : UInt8)).length > payloadMax := by
    right
    rw [List.length_replicate]
    decide
  have refused : append sampleSha3 (logOf sampleSha3 sampleStream [])
      (diskOf sampleSha3 sampleStream []) 0 (List.replicate 65537 0) []
      = (.argument, logOf sampleSha3 sampleStream [], diskOf sampleSha3 sampleStream []) := by
    rw [append, if_pos long]
  rw [refused]
  refine ⟨session_created _ _, rfl, ?_⟩
  rcases append_rest 0 [] [] (Nat.zero_le _) with done | ⟨_, _, _, _, undone⟩
  · rw [done]
  · rw [Disk.run_nil] at undone
    cases undone

end Z23.Storage.ChainLog
