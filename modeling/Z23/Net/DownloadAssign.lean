import Z23.Net.Download

/-!
Assignment of queued blocks to a peer: the windows, the tip bias, the one-pass batch and the
rescanning loop, the parked results, and the runs of the whole manager.
-/

namespace Z23.Net

open Z23.Lib

-- Windows

/-- Models `struct dl_assign_load`. -/
structure AssignLoad where
  peerCount : Nat
  historyPeerCount : Nat
  historyGlobalCount : Nat
  forwardQueued : Nat
  historyQueued : Nat

/-- Models `struct dl_assign_windows`. -/
structure AssignWindows where
  available : Nat
  globalLimit : Nat
  historyAvailable : Nat

def QueueEntry.isHistory (row : QueueEntry) : Bool := row.workClass = .history

def InFlight.isHistory (s : InFlight) : Bool := s.workClass = .history

/-- Models `dl_queue_item_avoids_peer` for an index of the queue. -/
def QueueEntry.avoids (row : QueueEntry) (peerId : UInt32) (now : Int) : Bool :=
  if row.avoidUntil ≤ now then false
  else row.avoidPeer = peerId ∧ row.avoidUntil > now

def assignPeerLimit (ibd : Bool) (ps? : Option PeerStats) : Nat :=
  match ps? with
  | none => getMaxInFlightPerPeer ibd
  | some ps =>
    if ps.isLoopback then dlMaxInFlightPerLoopback
    else if ps.bandwidthScore > 0 then
      let maxPeer := getMaxInFlightPerPeer ibd
      let peerLimit := ps.bandwidthScore * maxPeer / 128
      let peerLimit := if peerLimit < 16 then 16 else peerLimit
      if peerLimit > maxPeer then maxPeer else peerLimit
    else getMaxInFlightPerPeer ibd

def assignHistoryRoom (historyGlobalCount historyPeerCount historyQueued : Nat) : Nat :=
  if historyGlobalCount < dlMaxHistoryInFlight ∧ historyPeerCount < dlMaxHistoryPerPeer then
    let historyAvailable := dlMaxHistoryInFlight - historyGlobalCount
    let peerHistoryAvailable := dlMaxHistoryPerPeer - historyPeerCount
    let historyAvailable :=
      if historyAvailable > peerHistoryAvailable then peerHistoryAvailable else historyAvailable
    if historyAvailable > historyQueued then historyQueued else historyAvailable
  else 0

def assignPrelimResult (queueBefore maxAssign : Nat) (load : AssignLoad) (peerLimit : Nat)
    (activeBefore : Nat) (win : AssignWindows)
    : AssignResult :=
  if queueBefore = 0 then .noQueue
  else if maxAssign = 0 then .maxZero
  else if load.peerCount ≥ peerLimit then .peerWindowFull
  else if activeBefore ≥ win.globalLimit then .globalWindowFull
  else if load.forwardQueued = 0 ∧ load.historyQueued > 0 ∧ win.historyAvailable = 0 then
    .historyThrottled
  else .assigned

/-- Models `dl_assign_can_batch`. -/
def assignCanBatch (available tipBiasSkip queueLen : Nat) : Bool :=
  available > 0 ∧ available ≤ dlMaxInFlightPerLoopback
    ∧ (tipBiasSkip = 0 ∨ queueLen > available + tipBiasSkip)

def assignResultIsParkable (result : AssignResult) : Bool :=
  result = .noQueue ∨ result = .peerWindowFull ∨ result = .globalWindowFull
    ∨ result = .historyThrottled ∨ result = .peerAvoidCooldown

/-- The slot a queue entry is assigned to. -/
def QueueEntry.request (row : QueueEntry) (peerId : UInt32) (now : Int) : InFlight :=
  { hash := row.hash, height := row.height, peerId, requestTime := now, receivedTime := 0
    workClass := row.workClass, active := true }

/-- The record of the peer after an attempt; `generation` is the counter its result depends on. -/
def PeerStats.committed (ps : PeerStats) (generation : UInt64) (assigned globalLimit : Nat)
    (result : AssignResult) (retryAfter : Int)
    : PeerStats :=
  if assigned > 0 then
    { ps.unpark with blocksRequested := ps.blocksRequested + UInt32.ofNat assigned }
  else if assignResultIsParkable result then
    { ps with
      zeroAssignGeneration := generation
      zeroAssignRetryAfter := if result = .peerAvoidCooldown then retryAfter else 0
      zeroAssignGlobalLimit := globalLimit
      zeroAssignResult := result }
  else ps

namespace DownloadManager

/-- Models `dl_assign_measure`. -/
def assignMeasure (dm : DownloadManager) (peerId : UInt32) : AssignLoad where
  peerCount := dm.table.slots.countP fun s => s.active && s.peerId == peerId
  historyPeerCount := dm.table.slots.countP fun s => s.active && s.isHistory && s.peerId == peerId
  historyGlobalCount := dm.table.slots.countP fun s => s.active && s.isHistory
  forwardQueued := dm.queue.entries.countP fun row => !row.isHistory
  historyQueued := dm.queue.entries.countP QueueEntry.isHistory

/-- Models `dl_assign_windows`. -/
def assignWindows (dm : DownloadManager) (ibd : Bool) (load : AssignLoad)
    (peerLimit maxAssign : Nat)
    : AssignWindows :=
  let available := if load.peerCount < peerLimit then peerLimit - load.peerCount else 0
  let available := if available > maxAssign then maxAssign else available
  let queueLen := dm.queue.entries.length
  let available := if available > queueLen then queueLen else available
  let globalLimit := getMaxInFlightTotal ibd
  let numActive := dm.table.numActive
  let available :=
    if numActive ≥ globalLimit then 0
    else if numActive + available > globalLimit then globalLimit - numActive
    else available
  let historyAvailable :=
    assignHistoryRoom load.historyGlobalCount load.historyPeerCount load.historyQueued
  let classAvailable := load.forwardQueued + historyAvailable
  let available := if available > classAvailable then classAvailable else available
  { available, globalLimit, historyAvailable }

/-- Models `dl_best_bandwidth_score`. -/
def bestBandwidthScore (dm : DownloadManager) : Nat :=
  dm.peers.foldl
    (fun best ps =>
      if !ps.active || ps.isLoopback then best
      else if ps.bandwidthScore > best then ps.bandwidthScore else best)
    0

/-- Models `dl_assign_tip_bias`. -/
def assignTipBias (dm : DownloadManager) (ps? : Option PeerStats) (historyQueued : Nat) : Nat :=
  let slower := ps?.any fun ps =>
    !ps.isLoopback && ps.bandwidthScore > 0 && dm.bestBandwidthScore ≥ ps.bandwidthScore * 2
  let tipBiasSkip := if slower then dlTipBiasReserve else 0
  let queueLen := dm.queue.entries.length
  let tipBiasSkip := if tipBiasSkip > queueLen then queueLen else tipBiasSkip
  if historyQueued > 0 then 0 else tipBiasSkip

-- Parked peers

def assignDependencyGeneration (dm : DownloadManager) (result : AssignResult) : UInt64 :=
  if result = .noQueue ∨ result = .peerAvoidCooldown then dm.queueGeneration
  else dm.capacityGeneration

/-- Models `dl_assignment_peer_is_parked`; `none` is the null pointer. -/
def assignmentPeerIsParked (dm : DownloadManager) (ibd : Bool) (ps? : Option PeerStats) (now : Int)
    : Bool :=
  match ps? with
  | none => false
  | some ps =>
    if !assignResultIsParkable ps.zeroAssignResult
        || ps.zeroAssignGeneration != dm.assignDependencyGeneration ps.zeroAssignResult then
      false
    else if ps.zeroAssignResult = .historyThrottled
        ∧ dm.queue.entries.any fun row => !row.isHistory then
      false
    else if (ps.zeroAssignResult = .peerWindowFull ∨ ps.zeroAssignResult = .globalWindowFull)
        ∧ ps.zeroAssignGlobalLimit ≠ getMaxInFlightTotal ibd then
      false
    else ps.zeroAssignRetryAfter ≤ 0 ∨ now < ps.zeroAssignRetryAfter

/-- The record `dl_find_peer` finds without creating it. -/
def peerRecord (dm : DownloadManager) (peerId : UInt32) : Option PeerStats :=
  (findPeer dm.peers peerId).bind fun i => dm.peers[i]?

/-- Models `dl_assignment_should_attempt`. -/
def assignmentShouldAttempt (dm : DownloadManager) (ibd : Bool) (peerId : UInt32) (now : Int)
    : Bool :=
  !dm.assignmentPeerIsParked ibd (dm.peerRecord peerId) now

-- Picks

/-- The bookkeeping of avoided entries: `avoid_blocked` and `retry_after`. -/
structure Avoidance where
  blocked : Bool := false
  retryAfter : Int := 0

def Avoidance.note (a : Avoidance) (avoidUntil : Int) : Avoidance where
  blocked := true
  retryAfter :=
    if a.retryAfter = 0 ∨ avoidUntil < a.retryAfter then avoidUntil else a.retryAfter

/-- Models `dl_scan_queue_for_peer` over `count` indices from `i` on. -/
def scanQueueForPeer (entries : List QueueEntry) (peerId : UInt32) (now : Int)
    : Nat → Nat → Avoidance → Nat × Avoidance
  | 0, i, a => (i, a)
  | count + 1, i, a =>
    match entries[i]? with
    | none => (i, a)
    | some row =>
      if row.avoids peerId now then
        scanQueueForPeer entries peerId now count (i + 1) (a.note row.avoidUntil)
      else (i, a)

/-- Models `struct dl_pick_scan` with the picks. -/
structure PickScan where
  picks : List Nat := []
  historyPicked : Nat := 0
  avoidance : Avoidance := {}

/-- One index of the loop of `dl_assign_collect_picks`. -/
def collectPick (entries : List QueueEntry) (peerId : UInt32) (now : Int)
    (available historyAvailable : Nat) (scan : PickScan) (i : Nat)
    : PickScan :=
  if scan.picks.length < available then
    match entries[i]? with
    | none => scan
    | some row =>
      if row.isHistory ∧ scan.historyPicked ≥ historyAvailable then scan
      else if row.avoids peerId now then
        { scan with avoidance := scan.avoidance.note row.avoidUntil }
      else
        { scan with
          picks := scan.picks ++ [i]
          historyPicked := if row.isHistory then scan.historyPicked + 1 else scan.historyPicked }
  else scan

/-- Models `dl_assign_collect_picks` over the indices in `[from, to)`. -/
def collectPicks (entries : List QueueEntry) (peerId : UInt32) (now : Int)
    (available historyAvailable : Nat) (indices : List Nat) (scan : PickScan)
    : PickScan :=
  indices.foldl (collectPick entries peerId now available historyAvailable) scan

/-- Models `struct dl_assign_outcome` with the assigned hashes. -/
structure AssignOutcome where
  hashes : List Uint256 := []
  attemptedSlot : Bool := false
  avoidance : Avoidance := {}

/-- Grow the table if needed and activate a slot for an entry that left the queue. -/
def assignEntry (dm : DownloadManager) (row : QueueEntry) (peerId : UInt32) (now : Int)
    : Option DownloadManager :=
  (dm.table.maybeGrow.activate (row.request peerId now)).map fun table =>
    { dm with table, totalRequested := dm.totalRequested + 1 }

/-- One pick of `dl_assign_apply_picks`: the queue arrays stay as they are. -/
def applyPick (peerId : UInt32) (now : Int) (acc : DownloadManager × List Uint256) (p : Nat)
    : DownloadManager × List Uint256 :=
  match acc.1.queue.entries[p]? with
  | none => acc
  | some row =>
    let queue := { acc.1.queue with qset := acc.1.queue.qset.remove row.hash }
    let dm := { acc.1 with queue }
    match dm.assignEntry row peerId now with
    | none => ({ dm with table := dm.table.maybeGrow }, acc.2)
    | some dm => (dm, acc.2 ++ [row.hash])

/-- Models `dl_assign_apply_picks`, with the single compaction at the end. -/
def applyPicks (dm : DownloadManager) (peerId : UInt32) (now : Int) (picks : List Nat) (clamp : Nat)
    : DownloadManager × List Uint256 :=
  if picks.isEmpty then (dm, [])
  else
    let (dm, hashes) := picks.foldl (applyPick peerId now) (dm, [])
    let spick := picks.filter (· < clamp) ++ picks.filter (· ≥ clamp)
    let queue :=
      { dm.queue with entries := SortedArray.removeSorted dm.queue.entries spick }
    ({ dm with queue }, hashes)

/-- The two scans of `dl_assign_batch`: beyond the reserve first, then the reserve. -/
def batchScan (entries : List QueueEntry) (peerId : UInt32) (now : Int)
    (available historyAvailable clamp : Nat)
    : PickScan :=
  let scan := collectPicks entries peerId now available historyAvailable
    (List.range' clamp (entries.length - clamp)) {}
  if scan.picks.length < available ∧ clamp > 0 then
    collectPicks entries peerId now available historyAvailable (List.range' 0 clamp) scan
  else scan

/-- Models `dl_assign_batch`. -/
def assignBatch (dm : DownloadManager) (peerId : UInt32) (now : Int)
    (available historyAvailable tipBiasSkip : Nat)
    : DownloadManager × AssignOutcome :=
  let origLen := dm.queue.entries.length
  let clamp := if tipBiasSkip < origLen then tipBiasSkip else origLen
  let scan := batchScan dm.queue.entries peerId now available historyAvailable clamp
  let (dm, hashes) := dm.applyPicks peerId now scan.picks clamp
  (dm, { hashes, attemptedSlot := !scan.picks.isEmpty, avoidance := scan.avoidance })

/-- The two scans of one turn of `dl_assign_scan_loop`. -/
def scanPick (entries : List QueueEntry) (peerId : UInt32) (now : Int) (tipBiasSkip : Nat)
    (a : Avoidance)
    : Nat × Avoidance :=
  let queueLen := entries.length
  let biasSkip := if tipBiasSkip < queueLen then tipBiasSkip else queueLen
  let (pick, a) := scanQueueForPeer entries peerId now (queueLen - biasSkip) biasSkip a
  if pick = queueLen ∧ biasSkip > 0 then scanQueueForPeer entries peerId now biasSkip 0 a
  else (pick, a)

/-- Models `dl_assign_scan_loop`; every turn takes one entry out of the queue, so `fuel` is its
length. -/
def assignScanLoop (peerId : UInt32) (now : Int) (available historyAvailable tipBiasSkip : Nat)
    : Nat → DownloadManager → AssignOutcome → Nat → DownloadManager × AssignOutcome
  | 0, dm, o, _ => (dm, o)
  | fuel + 1, dm, o, historyAssigned =>
    if o.hashes.length < available ∧ dm.queue.entries.length > 0 then
      let (pick, a) := scanPick dm.queue.entries peerId now tipBiasSkip o.avoidance
      let o := { o with avoidance := a }
      match dm.queue.entries[pick]? with
      | none => (dm, o)
      | some row =>
        if row.isHistory ∧ historyAssigned ≥ historyAvailable then (dm, o)
        else
          let dm := { dm with queue := dm.queue.withdraw row.hash pick }
          let o := { o with attemptedSlot := true }
          match dm.assignEntry row peerId now with
          | none =>
            assignScanLoop peerId now available historyAvailable tipBiasSkip fuel
              { dm with table := dm.table.maybeGrow } o historyAssigned
          | some dm =>
            assignScanLoop peerId now available historyAvailable tipBiasSkip fuel dm
              { o with hashes := o.hashes ++ [row.hash] }
              (if row.isHistory then historyAssigned + 1 else historyAssigned)
    else (dm, o)

-- Assignment

/-- Models `dl_assign_resolve`. -/
def assignResolve (assigned : Nat) (attemptedSlot avoidBlocked : Bool) (result : AssignResult)
    : AssignResult :=
  if assigned > 0 then .assigned
  else if !attemptedSlot ∧ avoidBlocked ∧ result = .assigned then .peerAvoidCooldown
  else if result = .assigned then .noSlot
  else result

/-- Models `dl_assign_commit`. -/
def assignCommit (dm : DownloadManager) (ps? : Option Nat) (last : LastAssign)
    (attemptedSlot : Bool) (a : Avoidance)
    : DownloadManager :=
  let result := assignResolve last.assigned attemptedSlot a.blocked last.result
  let peers :=
    match ps? with
    | none => dm.peers
    | some i => dm.peers.modify i fun ps =>
      ps.committed (dm.assignDependencyGeneration result) last.assigned last.globalLimit result
        a.retryAfter
  { dm with
    peers
    assignAttempts := dm.assignAttempts + 1
    assignSuccesses :=
      if last.assigned > 0 then dm.assignSuccesses + 1 else dm.assignSuccesses
    assignZeroResults :=
      if last.assigned > 0 then dm.assignZeroResults else dm.assignZeroResults + 1
    lastAssign := { last with result } }

/-- The batch or the loop, as `dl_assign_can_batch` decides. -/
def assignPicks (dm : DownloadManager) (peerId : UInt32) (now : Int) (win : AssignWindows)
    (tipBiasSkip : Nat)
    : DownloadManager × AssignOutcome :=
  if assignCanBatch win.available tipBiasSkip dm.queue.entries.length then
    dm.assignBatch peerId now win.available win.historyAvailable tipBiasSkip
  else
    assignScanLoop peerId now win.available win.historyAvailable tipBiasSkip
      dm.queue.entries.length dm {} 0

/-- Models `dl_assign_to_peer` behind the parked check; `ps?` is the peer's index. -/
def assignUnparked (dm : DownloadManager) (ibd : Bool) (peerId : UInt32) (ps? : Option Nat)
    (now : Int) (maxAssign : Nat)
    : DownloadManager × List Uint256 :=
  let ps := ps?.bind fun i => dm.peers[i]?
  let queueBefore := dm.queue.entries.length
  let activeBefore := dm.table.numActive
  let load := dm.assignMeasure peerId
  let peerLimit := assignPeerLimit ibd ps
  let win := dm.assignWindows ibd load peerLimit maxAssign
  let prelim := assignPrelimResult queueBefore maxAssign load peerLimit activeBefore win
  let tipBiasSkip := dm.assignTipBias ps load.historyQueued
  let (after, outcome) := dm.assignPicks peerId now win tipBiasSkip
  let last : LastAssign :=
    { peerId, maxRequested := maxAssign, available := win.available
      assigned := outcome.hashes.length, queueLen := queueBefore, active := activeBefore
      peerInFlight := load.peerCount, peerLimit, globalLimit := win.globalLimit
      result := prelim }
  (after.assignCommit ps? last outcome.attemptedSlot outcome.avoidance, outcome.hashes)

/-- Models `dl_assign_to_peer`; the hashes are what it writes to `out_hashes`. -/
def assignToPeer (dm : DownloadManager) (ibd : Bool) (peerId : UInt32) (now : Int) (maxAssign : Nat)
    : DownloadManager × List Uint256 :=
  let (peers, ps?) := findOrCreatePeer dm.peers peerId
  let dm := { dm with peers }
  if dm.assignmentPeerIsParked ibd (ps?.bind fun i => dm.peers[i]?) now then (dm, [])
  else dm.assignUnparked ibd peerId ps? now maxAssign

end DownloadManager

-- Runs

/-- The calls that change the manager, each with the clock readings and the IBD state it sees. -/
inductive Call where
  | queueBlocksClass (blocks : List (Uint256 × Option Int)) (workClass : WorkClass) (nowQ : Int)
  | queuePriority (hash : Uint256) (height now nowAvoid : Int)
  | markRequested (ibd : Bool) (hash : Uint256) (height : Int) (peerId : UInt32)
      (now requestTime : Int)
  | assignToPeer (ibd : Bool) (peerId : UInt32) (now : Int) (maxAssign : Nat)
  | markReceived (hash : Uint256) (delivered received lastBody : Int)
  | markNotfound (ibd : Bool) (peerId : UInt32) (hash : Uint256) (now : Int)
  | checkTimeouts (ibd : Bool) (now : Int)
  | peerDisconnected (ibd : Bool) (peerId : UInt32) (now : Int)
  | drainForBackpressure (now : Int)
  | seedBandwidthScore (peerId : UInt32) (score : Nat)
  | peerBlockReceived (peerId : UInt32) (deliveryUs now : Int)
  | setPeerLoopback (peerId : UInt32) (isLoopback : Bool)

namespace DownloadManager

def step (qsort : Qsort) (dm : DownloadManager) : Call → DownloadManager
  | .queueBlocksClass blocks workClass nowQ => (dm.queueBlocksClass qsort blocks workClass nowQ).1
  | .queuePriority hash height now nowAvoid => dm.queuePriority hash height now nowAvoid
  | .markRequested ibd hash height peerId now requestTime =>
    (dm.markRequested ibd hash height peerId now requestTime).1
  | .assignToPeer ibd peerId now maxAssign => (dm.assignToPeer ibd peerId now maxAssign).1
  | .markReceived hash delivered received lastBody =>
    (dm.markReceived hash delivered received lastBody).1
  | .markNotfound ibd peerId hash now => (dm.markNotfound ibd peerId hash now).1
  | .checkTimeouts ibd now => (dm.checkTimeouts ibd now).1
  | .peerDisconnected ibd peerId now => (dm.peerDisconnected ibd peerId now).1
  | .drainForBackpressure now => (dm.drainForBackpressure now).1
  | .seedBandwidthScore peerId score => dm.seedBandwidthScore peerId score
  | .peerBlockReceived peerId deliveryUs now => dm.peerBlockReceived peerId deliveryUs now
  | .setPeerLoopback peerId isLoopback => dm.setPeerLoopback peerId isLoopback

/-- The manager after a sequence of calls from `dl_init` on. -/
def run (qsort : Qsort) (calls : List Call) : DownloadManager := calls.foldl (step qsort) init

end DownloadManager

end Z23.Net
