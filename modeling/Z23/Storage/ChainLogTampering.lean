import Z23.Storage.ChainLogCrash

/-!
Altered files: opening tells a torn tail from a committed frame by the length that the frame itself
declares, so a length that runs to the end of the file takes the intact frames behind it along.
-/

namespace Z23.Storage.ChainLog

open Z23.Lib.AppendDisk
open Z23.Lib.BitGroups

-- Where the scan stops

/-- A run of frames that pass every check leads from the header to the position. -/
inductive WalksTo (sha3 : List UInt8 → Uint256) (file : List UInt8) : Nat → Scan → Prop where
  | start : WalksTo sha3 file headerBytes ⟨0, sha3 (file.take headerBytes), []⟩
  | frame {pos : Nat} {s : Scan} {chain : Uint256} {need : Nat} (walks : WalksTo sha3 file pos s)
      (accepted : scanFrame sha3 pos s (file.drop pos) = .accepted chain need)
      : WalksTo sha3 file (pos + need) ⟨s.records + 1, chain, s.offsets ++ [pos]⟩

/-- The length declared at the position is allowed, and the frame would end behind the file, or
with it and without its sentinel. -/
def Overruns (file : List UInt8) (pos : Nat) : Prop :=
  prefixLen (file.drop pos) ≤ payloadMax
    ∧ (file.length < pos + frameNeed (prefixLen (file.drop pos))
      ∨ (file.length = pos + frameNeed (prefixLen (file.drop pos))
        ∧ sentinelOk
            (readAt (file.drop pos) (prefixBytes + prefixLen (file.drop pos) + hashBytes)
              sentinelBytes)
            (UInt64.ofNat pos) = false))

variable {sha3 : List UInt8 → Uint256} {file : List UInt8} {pos : Nat} {s : Scan}

theorem scanFrame_stop_iff (wide : pos + prefixBytes ≤ file.length)
    : scanFrame sha3 pos s (file.drop pos) = .stop ↔ Overruns file pos := by
  have length : (file.drop pos).length = file.length - pos := List.length_drop
  have long : ¬ (file.drop pos).length < prefixBytes := by omega
  rw [scanFrame, if_neg long, Overruns]
  dsimp only
  by_cases allowed : prefixLen (file.drop pos) > payloadMax
  · rw [if_pos allowed]
    simp [Nat.not_le.mpr allowed]
  · rw [if_neg allowed]
    have within := Nat.le_of_not_lt allowed
    by_cases short : (file.drop pos).length < frameNeed (prefixLen (file.drop pos))
    · rw [if_pos short]
      have behind : file.length < pos + frameNeed (prefixLen (file.drop pos)) := by omega
      simp [within, behind]
    · rw [if_neg short, scanAcceptFrame]
      have inside : ¬ file.length < pos + frameNeed (prefixLen (file.drop pos)) := by omega
      have ends : frameNeed (prefixLen (file.drop pos)) = (file.drop pos).length
          ↔ file.length = pos + frameNeed (prefixLen (file.drop pos)) := by omega
      simp only [within, inside, true_and, false_or, ← ends]
      cases sentinelOk
          (readAt (file.drop pos) (prefixBytes + prefixLen (file.drop pos) + hashBytes)
            sentinelBytes) (UInt64.ofNat pos) with
      | false =>
        by_cases whole : frameNeed (prefixLen (file.drop pos)) = (file.drop pos).length
        · simp [whole]
        · simp
      | true =>
        simp only [Bool.not_true, Bool.false_eq_true, if_false, Bool.true_eq_false, and_false,
          iff_false]
        split
        · intro same
          cases same
        · split
          · intro same
            cases same
          · intro same
            cases same

theorem scanFrame_refused {status : Status} {seq : UInt64} {rest : List UInt8}
    (refused : scanFrame sha3 pos s rest = .refused status seq)
    : status ≠ .ok := by
  rw [scanFrame] at refused
  split at refused
  · cases refused
  · dsimp only at refused
    split at refused
    · cases refused
      intro same
      cases same
    · split at refused
      · cases refused
      · rw [scanAcceptFrame] at refused
        split at refused
        · split at refused <;> cases refused
          intro same
          cases same
        · split at refused
          · cases refused
            intro same
            cases same
          · split at refused <;> cases refused
            intro same
            cases same

theorem scanFrom_refused {status : Status} {seq : UInt64} {rest : List UInt8}
    (refused : scanFrame sha3 pos s rest = .refused status seq) (some : rest ≠ [])
    : (scanFrom sha3 pos s rest).status = status := by
  rw [scanFrom, if_neg some]
  split
  · rename_i stopped
    rw [refused] at stopped
    cases stopped
  · rename_i same
    rw [refused] at same
    cases same
    rfl
  · rename_i accepted
    rw [refused] at accepted
    cases accepted

theorem WalksTo.scanFrom_eq (walks : WalksTo sha3 file pos s)
    : scanFrom sha3 headerBytes ⟨0, sha3 (file.take headerBytes), []⟩ (file.drop headerBytes)
        = scanFrom sha3 pos s (file.drop pos) := by
  induction walks with
  | start => rfl
  | frame _ accepted ih => rw [ih, scanFrom_accepted accepted, List.drop_drop]

theorem WalksTo.stops (walks : WalksTo sha3 file pos s)
    (ok : (scanFrom sha3 pos s (file.drop pos)).status = .ok)
    : ∃ pos' s', WalksTo sha3 file pos' s'
        ∧ (scanFrom sha3 pos s (file.drop pos)).scan = s'
        ∧ (scanFrom sha3 pos s (file.drop pos)).tornBytes = file.length - pos'
        ∧ (file.length ≤ pos' ∨ scanFrame sha3 pos' s' (file.drop pos') = .stop) := by
  generalize size : (file.drop pos).length = left
  induction left using Nat.strongRecOn generalizing pos s with
  | ind left ih =>
    by_cases ended : file.drop pos = []
    · refine ⟨pos, s, walks, ?_, ?_, .inl (List.drop_eq_nil_iff.mp ended)⟩
      · rw [scanFrom, if_pos ended]
      · rw [scanFrom, if_pos ended, Nat.sub_eq_zero_of_le (List.drop_eq_nil_iff.mp ended)]
    · cases step : scanFrame sha3 pos s (file.drop pos) with
      | stop =>
        refine ⟨pos, s, walks, ?_, ?_, .inr step⟩
        · rw [scanFrom_stop step]
        · rw [scanFrom_stop step, List.length_drop]
      | refused status seq =>
        rw [scanFrom_refused step ended] at ok
        exact absurd ok (scanFrame_refused step)
      | accepted chain need =>
        have bounds := scanFrame_accepted_pos sha3 step
        rw [scanFrom_accepted step, List.drop_drop] at ok ⊢
        refine ih _ ?_ (walks.frame step) ok rfl
        rw [List.length_drop] at size bounds ⊢
        omega

-- Committed frames of an altered file

/-- Where the frame of a record starts. -/
def frameStart (records : List Record) (i : Nat) : Nat := headerBytes + framesSize (records.take i)

/-- The frame has the same bytes in both files. -/
def Intact (records : List Record) (file altered : List UInt8) (i : Nat) : Prop :=
  readAt altered (frameStart records i) (frameStart records (i + 1) - frameStart records i)
    = readAt file (frameStart records i) (frameStart records (i + 1) - frameStart records i)

/-- Opening the altered file refuses and leaves it as it is, or the bytes it truncates contain no
intact frame. -/
def Spares (sha3 : List UInt8 → Uint256) (stream : Uint256) (records : List Record)
    (file altered : List UInt8) : Prop :=
  ((openLog sha3 stream altered).log = none ∧ (openLog sha3 stream altered).file = altered)
    ∨ ∀ i < records.length, Intact records file altered i →
        ¬ (openLog sha3 stream altered).file.length ≤ frameStart records i

/-- The same length and the same header. -/
structure Altered (file altered : List UInt8) : Prop where
  length : altered.length = file.length
  header : altered.take headerBytes = file.take headerBytes

variable {stream : Uint256} {records : List Record} {altered : List UInt8} {log : Log} {disk : Disk}

theorem frameStart_lt {i : Nat} (inside : i < records.length)
    : frameStart records i + prefixBytes ≤ (image sha3 stream records).length := by
  have split : records = records.take i ++ records.drop i := (List.take_append_drop i records).symm
  have some : records.drop i = records[i] :: records.drop (i + 1) := List.drop_eq_getElem_cons inside
  have size : framesSize records
      = framesSize (records.take i) + (records[i].need + framesSize (records.drop (i + 1))) := by
    conv_lhs => rw [split, framesSize, List.map_append, List.sum_append, some, List.map_cons,
      List.sum_cons]
    rfl
  have need : prefixBytes ≤ records[i].need := by
    rw [Record.need, frameNeed, Nat.add_assoc, Nat.add_assoc]
    exact Nat.le_add_right _ _
  rw [length_image, frameStart, size]
  omega

section

variable (changed : Altered (image sha3 stream records) altered)
include changed

theorem Altered.openLog_eq
    : openLog sha3 stream altered = openFrames sha3 stream false altered := by
  have header : altered.take headerBytes = headerBuild sha3 stream := by
    rw [changed.header, image, ← length_headerBuild sha3 stream, List.take_left]
  rw [← List.take_append_drop headerBytes altered, header]
  exact openLog_header stream _

theorem Altered.truncates (walks : WalksTo sha3 altered pos s) (overruns : Overruns altered pos)
    (wide : pos + prefixBytes ≤ altered.length)
    : (openLog sha3 stream altered).log ≠ none
        ∧ (openLog sha3 stream altered).file.length = pos := by
  have stops : scanFrame sha3 pos s (altered.drop pos) = .stop :=
    (scanFrame_stop_iff wide).mpr overruns
  have stopped := scanFrom_stop stops
  rw [← walks.scanFrom_eq, List.length_drop] at stopped
  have torn : altered.length - pos ≠ 0 := by
    rw [prefixBytes] at wide
    omega
  rw [changed.openLog_eq, openFrames, stopped]
  dsimp only
  rw [if_neg (fun differs => differs rfl)]
  refine ⟨fun same => Option.some_ne_none _ same, ?_⟩
  rw [if_pos ⟨torn, rfl⟩, List.length_take]
  omega

theorem Altered.keeps (opened : (openLog sha3 stream altered).log ≠ none)
    : (openLog sha3 stream altered).file = altered
        ∨ ∃ pos s, WalksTo sha3 altered pos s
            ∧ (openLog sha3 stream altered).file.length = pos
            ∧ scanFrame sha3 pos s (altered.drop pos) = .stop := by
  rw [changed.openLog_eq, openFrames] at opened ⊢
  dsimp only at opened ⊢
  by_cases ok : (scanFrom sha3 headerBytes ⟨0, sha3 (altered.take headerBytes), []⟩
      (altered.drop headerBytes)).status = .ok
  · obtain ⟨pos, s, walks, -, torn, ends⟩ := WalksTo.start.stops ok
    rw [if_neg (fun differs => differs ok), torn]
    dsimp only
    by_cases whole : altered.length - pos = 0
    · left
      rw [if_neg (fun cut => cut.1 whole)]
    · right
      refine ⟨pos, s, walks, ?_, ends.resolve_left (by omega)⟩
      rw [if_pos ⟨whole, rfl⟩, List.length_take]
      omega
  · rw [if_pos ok] at opened
    exact absurd rfl opened

theorem openLog_none_file (refused : (openLog sha3 stream altered).log = none)
    : (openLog sha3 stream altered).file = altered := by
  rw [changed.openLog_eq, openFrames] at refused ⊢
  dsimp only at refused ⊢
  split
  · rfl
  · rename_i ok
    rw [if_neg ok] at refused
    cases refused

end

/-- Opening an altered file of a log spares the intact frames exactly when no run of valid frames
ends, in front of an intact one, at a length that runs to the end of the file. -/
theorem openLog_spares_iff (session : Session sha3 stream log disk records none)
    (changed : Altered disk.contents altered)
    : Spares sha3 stream records disk.contents altered
        ↔ ¬ ∃ pos s i, WalksTo sha3 altered pos s ∧ Overruns altered pos
            ∧ i < records.length ∧ Intact records disk.contents altered i
            ∧ pos ≤ frameStart records i := by
  have contents : disk.contents = image sha3 stream records := by
    rw [session.holds.2]
    rfl
  rw [contents] at changed ⊢
  have room : ∀ i < records.length, frameStart records i + prefixBytes ≤ altered.length := by
    intro i inside
    rw [changed.length]
    exact frameStart_lt inside
  constructor
  · rintro spares ⟨pos, s, i, walks, overruns, inside, intact, before⟩
    have wide : pos + prefixBytes ≤ altered.length :=
      (Nat.add_le_add_right before _).trans (room i inside)
    obtain ⟨opened, length⟩ := changed.truncates walks overruns wide
    rcases spares with ⟨refused, -⟩ | kept
    · exact opened refused
    · apply kept i inside intact
      rwa [length]
  · intro safe
    by_cases refused : (openLog sha3 stream altered).log = none
    · exact .inl ⟨refused, openLog_none_file changed refused⟩
    · right
      intro i inside intact contained
      have wide := room i inside
      rcases changed.keeps refused with whole | ⟨pos, s, walks, length, stops⟩
      · rw [whole] at contained
        rw [prefixBytes] at wide
        omega
      · rw [length] at contained
        have posWide : pos + prefixBytes ≤ altered.length :=
          (Nat.add_le_add_right contained _).trans wide
        exact safe ⟨pos, s, i, walks, (scanFrame_stop_iff posWide).mp stops, inside, intact,
          contained⟩

-- A log of two records

def sampleRecords : List Record := [sampleRecord, sampleRecord]

def sampleFile : List UInt8 := image sampleSha3 sampleStream sampleRecords

/-- The first frame declares 258 bytes instead of two. -/
def sampleAltered : List UInt8 := sampleFile.set 78 1

theorem session_two_records
    : Session sampleSha3 sampleStream (logOf sampleSha3 sampleStream sampleRecords)
        (diskOf sampleSha3 sampleStream sampleRecords) sampleRecords none :=
  session_one_record.append_done sampleRecord

theorem sample_altered
    : Altered (diskOf sampleSha3 sampleStream sampleRecords).contents sampleAltered where
  length := List.length_set
  header := by decide +kernel

theorem openLog_spares_sample
    : Spares sampleSha3 sampleStream sampleRecords
          (diskOf sampleSha3 sampleStream sampleRecords).contents sampleAltered
        ↔ ¬ ∃ pos s i, WalksTo sampleSha3 sampleAltered pos s ∧ Overruns sampleAltered pos
            ∧ i < sampleRecords.length
            ∧ Intact sampleRecords (diskOf sampleSha3 sampleStream sampleRecords).contents
                sampleAltered i
            ∧ pos ≤ frameStart sampleRecords i :=
  openLog_spares_iff session_two_records sample_altered

/-- Opening cuts the altered first frame off, and the intact second one with it. -/
theorem openLog_drops_intact_frame
    : Session sampleSha3 sampleStream (logOf sampleSha3 sampleStream sampleRecords)
          (diskOf sampleSha3 sampleStream sampleRecords) sampleRecords none
        ∧ Altered (diskOf sampleSha3 sampleStream sampleRecords).contents sampleAltered
        ∧ ¬ Spares sampleSha3 sampleStream sampleRecords
            (diskOf sampleSha3 sampleStream sampleRecords).contents sampleAltered := by
  have overruns : Overruns sampleAltered headerBytes := by
    refine ⟨by decide +kernel, .inl ?_⟩
    decide +kernel
  have intact : Intact sampleRecords (diskOf sampleSha3 sampleStream sampleRecords).contents
      sampleAltered 1 := by
    rw [Intact]
    decide +kernel
  have changed : Altered (image sampleSha3 sampleStream sampleRecords) sampleAltered :=
    sample_altered
  obtain ⟨opened, length⟩ := changed.truncates WalksTo.start overruns (by decide +kernel)
  refine ⟨session_two_records, sample_altered, ?_⟩
  rintro (⟨refused, -⟩ | kept)
  · exact opened refused
  · apply kept 1 (by decide) intact
    rw [length]
    decide

end Z23.Storage.ChainLog
