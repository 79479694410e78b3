import Z23.Net.DownloadCooldown
import Z23.Net.DownloadParking

/-!
Parked peers over whole runs. While no attempt parks on avoided forward blocks with history
waiting for room, and no delivery widens the window of a peer parked on it, a peer that
`dl_assignment_should_attempt` holds back would get nothing.
-/

namespace Z23.Net

open DownloadManager

variable {dm after : DownloadManager} {peerId : UInt32} {now : Int}

-- The reason of an attempt that parks

theorem eq_of_getMaxInFlightTotal {ibd ibd' : Bool}
    (same : getMaxInFlightTotal ibd = getMaxInFlightTotal ibd')
    : ibd = ibd' := by
  revert same
  cases ibd <;> cases ibd' <;> decide

theorem assignHistoryRoom_eq_zero {historyGlobalCount historyPeerCount historyQueued : Nat}
    (queued : 0 < historyQueued)
    : assignHistoryRoom historyGlobalCount historyPeerCount historyQueued = 0
      ↔ dlMaxHistoryInFlight ≤ historyGlobalCount ∨ dlMaxHistoryPerPeer ≤ historyPeerCount := by
  rw [assignHistoryRoom]
  split
  · rename_i room
    dsimp only
    constructor
    · split
      · split <;> omega
      · split <;> omega
    · omega
  · rename_i full
    refine iff_of_true rfl ?_
    omega

namespace DownloadManager

/-- The picks of an attempt that is not parked. -/
def attempt (dm : DownloadManager) (ibd : Bool) (peerId : UInt32) (now : Int) (maxAssign : Nat)
    : DownloadManager × AssignOutcome :=
  (dm.located peerId).1.assignPicks peerId now (dm.attemptWindows ibd peerId maxAssign)
    (dm.attemptReserve peerId)

/-- The result it is recorded with. -/
def attemptResult (dm : DownloadManager) (ibd : Bool) (peerId : UInt32) (now : Int)
    (maxAssign : Nat)
    : AssignResult :=
  assignResolve (dm.attempt ibd peerId now maxAssign).2.hashes.length
    (dm.attempt ibd peerId now maxAssign).2.attemptedSlot
    (dm.attempt ibd peerId now maxAssign).2.avoidance.blocked
    (assignPrelimResult dm.queue.entries.length maxAssign (dm.assignMeasure peerId)
      (dm.attemptPeerLimit ibd peerId) dm.table.numActive (dm.attemptWindows ibd peerId maxAssign))

/-- If an attempt has only forward blocks to avoid and no room for history, the queued history
avoids the peer too, at least until one of the forward blocks no longer does. -/
def HistoryCovered (dm : DownloadManager) (ibd : Bool) (peerId : UInt32) (now : Int)
    (maxAssign : Nat)
    : Prop :=
  (dm.attemptWindows ibd peerId maxAssign).historyAvailable = 0 →
    (∃ row ∈ dm.queue.entries, row.isHistory = false) →
    (∀ row ∈ dm.queue.entries, row.isHistory = false → row.avoids peerId now = true) →
    ∀ row ∈ dm.queue.entries, row.isHistory = true →
      row.avoidPeer = peerId
        ∧ ∃ other ∈ dm.queue.entries, other.isHistory = false ∧ other.avoidUntil ≤ row.avoidUntil

/-- What a call may not do if parked results are to keep their reasons. -/
def Steady (dm : DownloadManager) : Call → Prop
  | .assignToPeer ibd peerId now maxAssign =>
    dm.attemptIsParked ibd peerId now = false →
      0 < (dm.attemptWindows ibd peerId maxAssign).available →
      (∀ row ∈ dm.queue.entries, row.avoids peerId now = true → 0 < row.avoidUntil)
        ∧ dm.HistoryCovered ibd peerId now maxAssign
  | .peerBlockReceived peerId deliveryUs now =>
    ∀ ps, dm.peerRecord peerId = some ps → ps.zeroAssignResult = .peerWindowFull →
      ps.zeroAssignGeneration = dm.capacityGeneration →
      WindowFull dm (ps.delivered deliveryUs now)
  | _ => True

end DownloadManager

theorem avoids_iff {row : QueueEntry}
    : row.avoids peerId now = true ↔ row.avoidPeer = peerId ∧ now < row.avoidUntil := by
  rw [QueueEntry.avoids]
  split
  · rename_i over_
    refine iff_of_false Bool.false_ne_true fun avoids => ?_
    omega
  · exact decide_eq_true_iff

variable {maxAssign : Nat}

/-- An attempt that parks on avoided blocks has every queued block avoid the peer until its
retry. -/
theorem Unassigned.cooldown {outcome : AssignOutcome} {ibd : Bool}
    (idle : Unassigned dm.queue.entries peerId now
      (dm.attemptWindows ibd peerId maxAssign).historyAvailable outcome)
    (blocked : outcome.avoidance.blocked = true)
    (positive : ∀ row ∈ dm.queue.entries, row.avoids peerId now = true → 0 < row.avoidUntil)
    (covered : dm.HistoryCovered ibd peerId now maxAssign)
    : 0 < outcome.avoidance.retryAfter ∧ ∀ row ∈ dm.queue.entries,
        row.avoidPeer = peerId ∧ outcome.avoidance.retryAfter ≤ row.avoidUntil := by
  obtain ⟨rows, noted, known, all⟩ := idle.noted blocked
  rw [noted] at blocked ⊢
  have earliest := earliest_of_noted
    (fun row member => positive row (known row member).1 (known row member).2.1) blocked
  refine ⟨earliest.positive, fun row member => ?_⟩
  rcases all row member with inRows | left
  · exact ⟨(avoids_iff.mp (known row inRows).2.1).1, earliest.first row inRows⟩
  · -- The row waits for room: the forward rows are the noted ones, and it outlasts one of them.
    simp only [throttled, Bool.and_eq_true, beq_iff_eq] at left
    have forward : ∀ other ∈ dm.queue.entries, other.isHistory = false → other ∈ rows := by
      intro other queued isForward
      refine (all other queued).resolve_right fun waits => ?_
      simp [throttled, isForward] at waits
    obtain ⟨first, noted⟩ : ∃ first, first ∈ rows := by
      cases rows with
      | nil => cases blocked
      | cons first rest => exact ⟨first, List.mem_cons_self⟩
    have isForward : first.isHistory = false := by
      have free := (known first noted).2.2
      rw [throttled, left.2, beq_self_eq_true, Bool.and_true] at free
      exact free
    obtain ⟨own, other, queued, otherForward, sooner⟩ := covered left.2
      ⟨first, (known first noted).1, isForward⟩
      (fun other queued isForward => (known other (forward other queued isForward)).2.1)
      row member left.1
    exact ⟨own, Int.le_trans (earliest.first other (forward other queued otherForward)) sooner⟩

theorem assignPrelimResult_spec {queueBefore maxAssign peerLimit activeBefore : Nat}
    {load : AssignLoad} {win : AssignWindows} {result : AssignResult}
    (prelim : assignPrelimResult queueBefore maxAssign load peerLimit activeBefore win = result)
    : (result = .noQueue → queueBefore = 0)
        ∧ (result = .peerWindowFull → peerLimit ≤ load.peerCount)
        ∧ (result = .globalWindowFull → win.globalLimit ≤ activeBefore)
        ∧ (result = .historyThrottled → 0 < load.historyQueued ∧ win.historyAvailable = 0)
        ∧ result ≠ .peerAvoidCooldown := by
  subst prelim
  rw [assignPrelimResult]
  refine ⟨?_, ?_, ?_, ?_, ?_⟩ <;> (repeat' split) <;> simp_all

theorem ParkReason.congr {ps : PeerStats} (queue : after.queue = dm.queue)
    (table : after.table = dm.table)
    : ParkReason after ps ↔ ParkReason dm ps := by
  simp only [ParkReason, WindowFull, assignMeasure, queue, table]

theorem Unassigned.reason {outcome : AssignOutcome} {ibd : Bool} {ps : PeerStats}
    {result : AssignResult} (own : ps.peerId = peerId)
    (limit : assignPeerLimit ibd (some ps) = dm.attemptPeerLimit ibd peerId)
    (idle : Unassigned dm.queue.entries peerId now
      (dm.attemptWindows ibd peerId maxAssign).historyAvailable outcome)
    (resolved : assignResolve 0 outcome.attemptedSlot outcome.avoidance.blocked
      (assignPrelimResult dm.queue.entries.length maxAssign (dm.assignMeasure peerId)
      (dm.attemptPeerLimit ibd peerId) dm.table.numActive
      (dm.attemptWindows ibd peerId maxAssign)) = result)
    (steady : result = .peerAvoidCooldown →
      (∀ row ∈ dm.queue.entries, row.avoids peerId now = true → 0 < row.avoidUntil) ∧
      dm.HistoryCovered ibd peerId now maxAssign)
    (generation : UInt64)
    : ParkReason dm
        { ps with
          zeroAssignGeneration := generation
          zeroAssignRetryAfter :=
            if result = .peerAvoidCooldown then outcome.avoidance.retryAfter else 0
          zeroAssignGlobalLimit := (dm.attemptWindows ibd peerId maxAssign).globalLimit
          zeroAssignResult := result } := by
  obtain ⟨noQueue, peerWindow, globalWindow, throttled, noCooldown⟩ :=
    @assignPrelimResult_spec dm.queue.entries.length maxAssign (dm.attemptPeerLimit ibd peerId)
      dm.table.numActive (dm.assignMeasure peerId) (dm.attemptWindows ibd peerId maxAssign) _ rfl
  generalize assignPrelimResult dm.queue.entries.length maxAssign (dm.assignMeasure peerId)
    (dm.attemptPeerLimit ibd peerId) dm.table.numActive (dm.attemptWindows ibd peerId maxAssign)
    = prelim at resolved noQueue peerWindow globalWindow throttled noCooldown
  rw [assignResolve, idle.unattempted, if_neg (Nat.lt_irrefl 0)] at resolved
  rw [ParkReason]
  dsimp only
  have plain : ∀ parked, parked ≠ .peerAvoidCooldown → parked ≠ .noSlot → result = parked →
      prelim = parked := by
    intro parked noAvoid slot same
    rw [same] at resolved
    split at resolved
    · exact absurd resolved.symm noAvoid
    · split at resolved
      · exact absurd resolved.symm slot
      · exact resolved
  cases isResult : result with
  | noQueue => exact List.length_eq_zero_iff.mp (noQueue (plain _ (by decide) (by decide) isResult))
  | peerAvoidCooldown =>
    obtain ⟨positive, covered⟩ := steady isResult
    rw [isResult] at resolved
    split at resolved
    · rename_i blocked
      rw [if_pos rfl, own]
      exact idle.cooldown blocked.2.1 positive covered
    · split at resolved
      · cases resolved
      · exact absurd resolved noCooldown
  | peerWindowFull =>
    intro other same
    obtain rfl := eq_of_getMaxInFlightTotal same
    have full := peerWindow (plain _ (by decide) (by decide) isResult)
    rw [← limit, ← own] at full
    exact full
  | globalWindowFull => exact globalWindow (plain _ (by decide) (by decide) isResult)
  | historyThrottled =>
    obtain ⟨queued, none⟩ := throttled (plain _ (by decide) (by decide) isResult)
    rw [own]
    exact (assignHistoryRoom_eq_zero queued).mp none
  | none => trivial
  | assigned => trivial
  | maxZero => trivial
  | noSlot => trivial

theorem attempt_taken (sound : Sound dm.queue dm.table) (ibd : Bool) (maxAssign : Nat)
    : Taken (dm.located peerId).1 (dm.attempt ibd peerId now maxAssign).1 := by
  rw [attempt, assignPicks]
  split
  · exact @assignBatch_taken (dm.located peerId).1 sound peerId now _ _ _
  · exact @assignScanLoop_taken (dm.located peerId).1 peerId now _ _ _ _ sound _ _

theorem assignCommit_peers (dm : DownloadManager) (ps? : Option Nat) (last : LastAssign)
    (attemptedSlot : Bool) (a : Avoidance)
    : (dm.assignCommit ps? last attemptedSlot a).peers
        = ps?.elim dm.peers fun i => dm.peers.modify i fun ps =>
            ps.committed
              (dm.assignDependencyGeneration
                (assignResolve last.assigned attemptedSlot a.blocked last.result))
              last.assigned last.globalLimit
              (assignResolve last.assigned attemptedSlot a.blocked last.result) a.retryAfter := by
  cases ps? with
  | none => rfl
  | some i => rfl

theorem assignToPeer_peers (sound : Sound dm.queue dm.table) (ibd : Bool) (maxAssign : Nat)
    (unparked : dm.attemptIsParked ibd peerId now = false) {ps' : PeerStats}
    (member : ps' ∈ (dm.assignToPeer ibd peerId now maxAssign).1.peers)
    : ps' ∈ (dm.located peerId).1.peers
      ∨ ∃ ps ∈ (dm.located peerId).1.peers, (dm.located peerId).2 = some ps ∧ ps.peerId = peerId
        ∧ ps' = ps.committed
            (dm.assignDependencyGeneration (dm.attemptResult ibd peerId now maxAssign))
            (dm.attempt ibd peerId now maxAssign).2.hashes.length
            (dm.attemptWindows ibd peerId maxAssign).globalLimit
            (dm.attemptResult ibd peerId now maxAssign)
            (dm.attempt ibd peerId now maxAssign).2.avoidance.retryAfter := by
  have taken := @attempt_taken dm peerId now sound ibd maxAssign
  have dependency : ∀ result, (dm.attempt ibd peerId now maxAssign).1.assignDependencyGeneration
      result = dm.assignDependencyGeneration result := by
    intro result
    rw [assignDependencyGeneration, assignDependencyGeneration, taken.queueGeneration,
      taken.capacityGeneration]
    rfl
  have created := @findOrCreatePeer_peerId dm.peers peerId
  have record : (dm.located peerId).2
      = (findOrCreatePeer dm.peers peerId).2.bind fun i => (dm.located peerId).1.peers[i]? := rfl
  have committed : (dm.assignToPeer ibd peerId now maxAssign).1.peers
      = (findOrCreatePeer dm.peers peerId).2.elim (dm.attempt ibd peerId now maxAssign).1.peers
          fun i => (dm.attempt ibd peerId now maxAssign).1.peers.modify i fun ps =>
            ps.committed ((dm.attempt ibd peerId now maxAssign).1.assignDependencyGeneration
                (dm.attemptResult ibd peerId now maxAssign))
              (dm.attempt ibd peerId now maxAssign).2.hashes.length
              (dm.attemptWindows ibd peerId maxAssign).globalLimit
              (dm.attemptResult ibd peerId now maxAssign)
              (dm.attempt ibd peerId now maxAssign).2.avoidance.retryAfter := by
    rw [attemptIsParked, located] at unparked
    dsimp only at unparked
    rw [assignToPeer]
    dsimp only
    rw [if_neg (by rw [unparked]; exact Bool.false_ne_true), assignUnparked]
    exact assignCommit_peers _ _ _ _ _
  rw [committed, taken.peers] at member
  cases index : (findOrCreatePeer dm.peers peerId).2 with
  | none =>
    rw [index] at member
    exact .inl member
  | some i =>
    rw [index] at member record
    rcases mem_modify member with old | ⟨ps, read, made⟩
    · exact .inl old
    · refine .inr ⟨ps, List.mem_of_getElem? read, ?_, created index read, ?_⟩
      · rw [record, Option.bind_some, read]
      · rw [made, dependency]

theorem attemptResult_of_zero {ibd : Bool}
    (zero : (dm.attemptWindows ibd peerId maxAssign).available = 0)
    : dm.attemptResult ibd peerId now maxAssign ≠ .peerAvoidCooldown := by
  have untouched : dm.attempt ibd peerId now maxAssign = ((dm.located peerId).1, {}) := by
    rw [attempt, assignPicks, zero, if_neg (by simp [assignCanBatch]), assignScanLoop_zero]
  obtain ⟨-, -, -, -, noCooldown⟩ := @assignPrelimResult_spec dm.queue.entries.length maxAssign
    (dm.attemptPeerLimit ibd peerId) dm.table.numActive (dm.assignMeasure peerId)
    (dm.attemptWindows ibd peerId maxAssign) _ rfl
  rw [attemptResult, untouched, assignResolve]
  dsimp only [List.length_nil]
  rw [if_neg (Nat.lt_irrefl 0), if_neg (by simp)]
  split
  · decide
  · exact noCooldown

theorem assignToPeer_work (ibd : Bool) (maxAssign : Nat)
    (unparked : dm.attemptIsParked ibd peerId now = false)
    : SameWork (dm.attempt ibd peerId now maxAssign).1
        (dm.assignToPeer ibd peerId now maxAssign).1 := by
  rw [attemptIsParked, located] at unparked
  dsimp only at unparked
  rw [assignToPeer]
  dsimp only
  rw [unparked]
  exact ⟨rfl, rfl, rfl, rfl, rfl, rfl, rfl, rfl⟩

theorem committed_justified (sound : Sound dm.queue dm.table) (ibd : Bool) (maxAssign : Nat)
    (unparked : dm.attemptIsParked ibd peerId now = false)
    (steady : dm.Steady (.assignToPeer ibd peerId now maxAssign)) {ps : PeerStats}
    (record : (dm.located peerId).2 = some ps) (own : ps.peerId = peerId)
    : Justified (dm.assignToPeer ibd peerId now maxAssign).1
          (ps.committed (dm.assignDependencyGeneration (dm.attemptResult ibd peerId now maxAssign))
            (dm.attempt ibd peerId now maxAssign).2.hashes.length
            (dm.attemptWindows ibd peerId maxAssign).globalLimit
            (dm.attemptResult ibd peerId now maxAssign)
            (dm.attempt ibd peerId now maxAssign).2.avoidance.retryAfter)
      ∨ ps.committed (dm.assignDependencyGeneration (dm.attemptResult ibd peerId now maxAssign))
            (dm.attempt ibd peerId now maxAssign).2.hashes.length
            (dm.attemptWindows ibd peerId maxAssign).globalLimit
            (dm.attemptResult ibd peerId now maxAssign)
            (dm.attempt ibd peerId now maxAssign).2.avoidance.retryAfter = ps := by
  rw [PeerStats.committed]
  split
  · exact .inl (.unparked rfl)
  · rename_i nothing
    have none : (dm.attempt ibd peerId now maxAssign).2.hashes = [] :=
      List.length_eq_zero_iff.mp (Nat.eq_zero_of_not_pos nothing)
    have idle := assignPicks_idle sound.tracked.toCounted peerId now ibd maxAssign none
    have work := @assignToPeer_work dm peerId now ibd maxAssign unparked
    have same : (dm.attempt ibd peerId now maxAssign).1 = (dm.located peerId).1 := idle.same
    have resolved : assignResolve 0 (dm.attempt ibd peerId now maxAssign).2.attemptedSlot
        (dm.attempt ibd peerId now maxAssign).2.avoidance.blocked
        (assignPrelimResult dm.queue.entries.length maxAssign (dm.assignMeasure peerId)
          (dm.attemptPeerLimit ibd peerId) dm.table.numActive
          (dm.attemptWindows ibd peerId maxAssign))
        = dm.attemptResult ibd peerId now maxAssign := by
      rw [attemptResult, none, List.length_nil]
    have queue : (dm.assignToPeer ibd peerId now maxAssign).1.queue = dm.queue := by
      rw [work.queue, same]
      rfl
    have table : (dm.assignToPeer ibd peerId now maxAssign).1.table = dm.table := by
      rw [work.table, same]
      rfl
    have dependency : ∀ result,
        (dm.assignToPeer ibd peerId now maxAssign).1.assignDependencyGeneration result
          = dm.assignDependencyGeneration result := by
      intro result
      rw [assignDependencyGeneration, assignDependencyGeneration, work.queueGeneration,
        work.capacityGeneration, same]
      rfl
    split
    · have limit : assignPeerLimit ibd (some ps) = dm.attemptPeerLimit ibd peerId := by
        rw [attemptPeerLimit, record]
      have seen : Unassigned dm.queue.entries peerId now
          (dm.attemptWindows ibd peerId maxAssign).historyAvailable
          (dm.attempt ibd peerId now maxAssign).2 := idle.toUnassigned
      refine .inl ⟨fun _ => ?_, fun _ => ?_⟩
      · exact Nat.le_of_eq (congrArg UInt64.toNat (dependency _).symm)
      · rw [ParkReason.congr queue table]
        refine seen.reason own limit resolved ?_ _
        intro cooldown
        refine steady unparked (Nat.pos_of_ne_zero fun zero => ?_)
        exact attemptResult_of_zero zero cooldown
    · exact .inr rfl

theorem assignToPeer_justified (all : AllJustified dm) (sound : Sound dm.queue dm.table)
    (queueSmall : dm.queueGeneration.toNat < 2 ^ 64 - 1)
    (capacitySmall : dm.capacityGeneration.toNat < 2 ^ 64 - 1) (ibd : Bool) (maxAssign : Nat)
    (steady : dm.Steady (.assignToPeer ibd peerId now maxAssign))
    : AllJustified (dm.assignToPeer ibd peerId now maxAssign).1 := by
  have effect := assignToPeer_effect sound ibd peerId now maxAssign
  have found := Carried.findOrCreatePeer SameWindow.refl dm.peers peerId
  cases parked : dm.attemptIsParked ibd peerId now with
  | true =>
    refine all.carry effect sound queueSmall capacitySmall (.inl ?_)
    rw [attemptIsParked, located] at parked
    dsimp only at parked
    rw [assignToPeer]
    dsimp only
    rw [if_pos parked]
    exact found
  | false =>
    refine all.step effect sound queueSmall capacitySmall fun ps' member => ?_
    have old : ∀ ps ∈ (dm.located peerId).1.peers,
        Justified (dm.assignToPeer ibd peerId now maxAssign).1 ps
          ∨ ∃ ps₀ ∈ dm.peers, SamePark ps₀ ps
            ∧ ((dm.assignToPeer ibd peerId now maxAssign).1.capacityGeneration
                = dm.capacityGeneration → ps₀.zeroAssignResult = .peerWindowFull →
                ps₀.zeroAssignGeneration = dm.capacityGeneration → WindowFull dm ps₀ →
                WindowFull dm ps) := by
      intro ps known
      rcases found ps known with none | ⟨first, inPeers, same⟩
      · exact .inl (.unparked none)
      · exact .inr ⟨first, inPeers, same.toSamePark, fun _ _ _ full => same.windowFull full⟩
    rcases assignToPeer_peers sound ibd maxAssign parked member with
      before | ⟨ps, known, record, own, rfl⟩
    · exact old ps' before
    · rcases committed_justified sound ibd maxAssign parked steady record own with
        justified | unchanged
      · exact .inl justified
      · rw [unchanged]
        exact old ps known

theorem peerBlockReceived_justified (all : AllJustified dm) (sound : Sound dm.queue dm.table)
    (queueSmall : dm.queueGeneration.toNat < 2 ^ 64 - 1)
    (capacitySmall : dm.capacityGeneration.toNat < 2 ^ 64 - 1) (deliveryUs : Int)
    (steady : dm.Steady (.peerBlockReceived peerId deliveryUs now))
    : AllJustified (dm.peerBlockReceived peerId deliveryUs now) := by
  have effect := peerBlockReceived_effect sound peerId deliveryUs now
  refine all.step effect sound queueSmall capacitySmall fun ps' member => ?_
  rw [peerBlockReceived, modifyPeer] at member
  split at member
  · exact .inr ⟨ps', member, .refl ps', fun _ _ _ full => full⟩
  · rename_i i found
    rcases mem_modify member with old | ⟨ps, read, rfl⟩
    · exact .inr ⟨ps', old, .refl ps', fun _ _ _ full => full⟩
    · refine .inr ⟨ps, List.mem_of_getElem? read, ⟨rfl, rfl, rfl, rfl, rfl⟩, ?_⟩
      intro _ result generation _
      refine steady ps ?_ result generation
      rw [peerRecord, found, Option.bind_some, read]

theorem step_justified (qsort : Qsort) (all : AllJustified dm) (sound : Sound dm.queue dm.table)
    (queueSmall : dm.queueGeneration.toNat < 2 ^ 64 - 1)
    (capacitySmall : dm.capacityGeneration.toNat < 2 ^ 64 - 1) {call : Call} (valid : call.Valid)
    (steady : dm.Steady call)
    : AllJustified (dm.step qsort call) := by
  have effect := step_effect qsort sound valid
  have carry := fun moves => all.carry effect sound queueSmall capacitySmall moves
  cases call with
  | queueBlocksClass blocks workClass nowQ =>
    exact carry (.of_eq (queueBlocksClass_frame qsort dm blocks workClass nowQ).peers)
  | queuePriority hash height now nowAvoid =>
    exact carry (.of_eq (queuePriority_frame dm hash height now nowAvoid).peers)
  | markRequested ibd hash height peerId now requestTime =>
    exact carry (markRequested_records dm ibd hash height peerId now requestTime)
  | assignToPeer ibd peerId now maxAssign =>
    exact assignToPeer_justified all sound queueSmall capacitySmall ibd maxAssign steady
  | markReceived hash delivered received lastBody =>
    exact carry (markReceived_records dm hash delivered received lastBody)
  | markNotfound ibd peerId hash now => exact carry (markNotfound_records dm ibd peerId hash now)
  | checkTimeouts ibd now => exact carry (checkTimeouts_records dm ibd now)
  | peerDisconnected ibd peerId now => exact carry (peerDisconnected_records dm ibd peerId now)
  | drainForBackpressure now => exact carry (.of_eq rfl)
  | seedBandwidthScore peerId score =>
    apply carry
    rw [step, seedBandwidthScore]
    split
    · exact .of_eq rfl
    · exact .inl (modifyOrCreatePeer_carried (seed_sameWindow _) dm peerId)
  | peerBlockReceived peerId deliveryUs now =>
    exact peerBlockReceived_justified all sound queueSmall capacitySmall deliveryUs steady
  | setPeerLoopback peerId isLoopback => exact carry (setPeerLoopback_records dm peerId isLoopback)

-- Runs

/-- Every call of the run is valid and steady where it is made. -/
def SteadyRun (qsort : Qsort) : DownloadManager → List Call → Prop
  | _, [] => True
  | dm, call :: rest => call.Valid ∧ dm.Steady call ∧ SteadyRun qsort (dm.step qsort call) rest

theorem generation_step {old new : UInt64} (small : old.toNat < 2 ^ 64 - 1) {still : Prop}
    (moves : new = generationAdvance old ∨ new = old ∧ still)
    : new.toNat ≤ old.toNat + 1 := by
  rcases moves with rfl | ⟨rfl, -⟩
  · exact Nat.le_of_eq (generationAdvance_toNat small)
  · exact Nat.le_succ _

theorem foldl_justified (qsort : Qsort) {calls : List Call} (steady : SteadyRun qsort dm calls)
    (sound : Sound dm.queue dm.table) (all : AllJustified dm)
    (queueSmall : dm.queueGeneration.toNat + calls.length < 2 ^ 64)
    (capacitySmall : dm.capacityGeneration.toNat + calls.length < 2 ^ 64)
    : Sound (calls.foldl (step qsort) dm).queue (calls.foldl (step qsort) dm).table
        ∧ AllJustified (calls.foldl (step qsort) dm) := by
  induction calls generalizing dm with
  | nil => exact ⟨sound, all⟩
  | cons call rest ih =>
    obtain ⟨valid, here, later⟩ := steady
    rw [List.length_cons] at queueSmall capacitySmall
    have effect := step_effect qsort sound valid
    have next := step_justified qsort all sound (by omega) (by omega) valid here
    have queueNext := generation_step (by omega) effect.queueMoves
    have capacityNext := generation_step (by omega) effect.tableMoves
    exact ih later effect.sound next (by omega) (by omega)

-- The attempt of a peer held back

theorem findPeer_modify {peers : List PeerStats} {i j : Nat} {change : PeerStats → PeerStats}
    (same : ∀ ps, (change ps).peerId = ps.peerId) (found : findPeer peers peerId = some j)
    : findPeer (peers.modify i change) peerId = some j := by
  have ids : (peers.modify i change).map PeerStats.peerId = peers.map PeerStats.peerId := by
    refine List.ext_getElem? fun k => ?_
    rw [List.getElem?_map, List.getElem?_map, List.getElem?_modify, Option.map_eq_map,
      Option.map_map]
    congr 1
    funext ps
    rw [Function.comp_apply]
    split
    · exact same ps
    · rfl
  have byId : ∀ peers : List PeerStats, findPeer peers peerId
      = (peers.map PeerStats.peerId).findIdx? fun id => id = peerId := by
    intro peers
    rw [List.findIdx?_map]
    rfl
  rw [byId, ids, ← byId, found]

theorem located_unparked {ps : PeerStats} (record : dm.peerRecord peerId = some ps)
    : ((dm.modifyPeer peerId PeerStats.unpark).located peerId).2
        = some { ps.unpark with active := true } := by
  obtain ⟨i, found, read⟩ := Option.bind_eq_some_iff.mp record
  rw [located, modifyPeer, found]
  dsimp only
  have again : findPeer (dm.peers.modify i PeerStats.unpark) peerId = some i :=
    findPeer_modify (fun _ => rfl) found
  rw [findOrCreatePeer, again]
  dsimp only [Option.bind_some]
  rw [List.getElem?_modify_eq, List.getElem?_modify_eq, read]
  cases active : ps.active with
  | false => simp [PeerStats.unpark, active]
  | true => simp [PeerStats.unpark, active]

/-- What the parked check has checked. -/
structure HeldBack (dm : DownloadManager) (ibd : Bool) (ps : PeerStats) (now : Int) : Prop where
  parkable : assignResultIsParkable ps.zeroAssignResult = true
  current : ps.zeroAssignGeneration = dm.assignDependencyGeneration ps.zeroAssignResult
  noForward
    : ps.zeroAssignResult = .historyThrottled → ∀ row ∈ dm.queue.entries, row.isHistory = true
  sameLimit
    : ps.zeroAssignResult = .peerWindowFull ∨ ps.zeroAssignResult = .globalWindowFull →
        ps.zeroAssignGlobalLimit = getMaxInFlightTotal ibd
  waits : ps.zeroAssignRetryAfter ≤ 0 ∨ now < ps.zeroAssignRetryAfter

theorem heldBack_of_parked {ibd : Bool} {ps : PeerStats}
    (parked : dm.assignmentPeerIsParked ibd (some ps) now = true)
    : HeldBack dm ibd ps now := by
  rw [assignmentPeerIsParked] at parked
  split at parked
  · cases parked
  · rename_i current
    rw [Bool.or_eq_true, not_or, Bool.not_eq_true', Bool.not_eq_false, bne_iff_ne, not_not]
      at current
    split at parked
    · cases parked
    · rename_i noForward
      split at parked
      · cases parked
      · rename_i sameLimit
        refine ⟨current.1, current.2, fun throttled row member => ?_, fun full => ?_,
          of_decide_eq_true parked⟩
        · by_contra forward
          refine noForward ⟨throttled, List.any_eq_true.mpr ⟨row, member, ?_⟩⟩
          simpa using forward
        · by_contra differs
          exact sameLimit ⟨full, differs⟩

/-- A justified record that holds its peer back: an attempt without it hands out nothing, unless
it overreaches. -/
theorem assignToPeer_of_parked (sound : Sound dm.queue dm.table) (all : AllJustified dm)
    (ibd : Bool) (maxAssign : Nat) (held : dm.assignmentShouldAttempt ibd peerId now = false)
    (within : ¬ (dm.modifyPeer peerId PeerStats.unpark).Overreaches ibd peerId now maxAssign)
    : ((dm.modifyPeer peerId PeerStats.unpark).assignToPeer ibd peerId now maxAssign).2 = [] := by
  have work := modifyPeer_same dm peerId PeerStats.unpark
  rw [assignmentShouldAttempt, Bool.not_eq_false'] at held
  cases record : dm.peerRecord peerId with
  | none =>
    rw [record] at held
    cases held
  | some ps =>
    rw [record] at held
    have back := heldBack_of_parked held
    have located := located_unparked record
    obtain ⟨i, found, read⟩ := Option.bind_eq_some_iff.mp record
    have own : ps.peerId = peerId := by
      obtain ⟨inside, here, -⟩ := List.findIdx?_eq_some_iff_getElem.mp found
      rw [List.getElem?_eq_getElem inside, Option.some.injEq] at read
      rw [← read]
      exact of_decide_eq_true here
    have reason := (all ps (List.mem_of_getElem? read)).reason back.current
    have unparked : (dm.modifyPeer peerId PeerStats.unpark).attemptIsParked ibd peerId now
        = false := by
      rw [attemptIsParked, located]
      rfl
    have measure : (dm.modifyPeer peerId PeerStats.unpark).assignMeasure peerId
        = dm.assignMeasure peerId := by
      simp only [assignMeasure, work.table, work.queue]
    have limit : (dm.modifyPeer peerId PeerStats.unpark).attemptPeerLimit ibd peerId
        = assignPeerLimit ibd (some ps) := by
      rw [attemptPeerLimit, located]
      rfl
    obtain ⟨-, peerWindow, globalWindow⟩ := @assignWindows_available_le
      (dm.modifyPeer peerId PeerStats.unpark) ibd (dm.assignMeasure peerId)
      (assignPeerLimit ibd (some ps)) maxAssign
    have meets := (selects_iff (by rw [work.table]; exact sound.tracked.toCounted) ibd maxAssign
      unparked).mpr within
    have room : (dm.modifyPeer peerId PeerStats.unpark).attemptWindows ibd peerId maxAssign
        = (dm.modifyPeer peerId PeerStats.unpark).assignWindows ibd (dm.assignMeasure peerId)
            (assignPeerLimit ibd (some ps)) maxAssign := by
      rw [attemptWindows, measure, limit]
    rw [meets.selection, List.map_eq_nil_iff, room, work.queue]
    rw [work.table] at globalWindow
    rw [ParkReason] at reason
    have parkable := back.parkable
    have order := scanOrder_perm ((dm.modifyPeer peerId PeerStats.unpark).attemptReserve peerId)
      dm.queue.entries
    cases result : ps.zeroAssignResult with
    | noQueue =>
      rw [result] at reason
      rw [reason, scanOrder, List.drop_nil, List.take_nil]
      rfl
    | peerAvoidCooldown =>
      rw [result] at reason
      obtain ⟨positive, avoided⟩ := reason
      refine greedy_eq_nil _ fun row member => .inl (avoids_iff.mpr ?_)
      obtain ⟨peer, until_⟩ := avoided row (order.mem_iff.mp member)
      have waits := back.waits
      exact ⟨peer.trans own, by omega⟩
    | peerWindowFull =>
      rw [result] at reason
      have full := reason ibd (back.sameLimit (.inl result)).symm
      rw [own] at full
      rw [Nat.sub_eq_zero_of_le full] at peerWindow
      rw [Nat.eq_zero_of_le_zero peerWindow]
      exact greedy_zero _ _
    | globalWindowFull =>
      rw [result, back.sameLimit (.inr result)] at reason
      rw [Nat.sub_eq_zero_of_le reason] at globalWindow
      rw [Nat.eq_zero_of_le_zero globalWindow]
      exact greedy_zero _ _
    | historyThrottled =>
      rw [result, own] at reason
      refine greedy_eq_nil _ fun row member => .inr ?_
      have queued := order.mem_iff.mp member
      have history := back.noForward result row queued
      refine ⟨history, (assignHistoryRoom_eq_zero ?_).mpr reason⟩
      exact List.countP_pos_iff.mpr ⟨row, queued, history⟩
    | none => rw [result] at parkable; cases parkable
    | assigned => rw [result] at parkable; cases parkable
    | maxZero => rw [result] at parkable; cases parkable
    | noSlot => rw [result] at parkable; cases parkable

/-- Forward block 5 and history block 3 wait while the peer fetches history blocks 1 and 2; it
has failed block 5. The attempt parks it on block 5, and then block 1 is delivered. -/
def waitingHistoryCalls : List Call :=
  [.queueBlocksClass [(Uint256.fill 1, some 10), (Uint256.fill 2, some 11)] .history 100,
    .assignToPeer false 7 100 10,
    .markRequested false (Uint256.fill 5) 50 7 100 100,
    .markNotfound false 7 (Uint256.fill 5) 100,
    .queueBlocksClass [(Uint256.fill 3, some 12)] .history 100,
    .assignToPeer false 7 101 10,
    .markReceived (Uint256.fill 1) 102 102 102]

end Z23.Net
