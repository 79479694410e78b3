import Z23.Net.DownloadQueue
import Z23.Net.DownloadSlots

/-!
The block download manager: queue, table of requests in flight, per-peer statistics and the two
generation counters that parked assignments wait for. Every call runs under the manager's lock;
allocations succeed. A clock reading is an argument of the call that takes it, and `ibd` is what
`dl_is_ibd` answers during the call.
-/

namespace Z23.Net

-- Data model

/-- Models `enum dl_assign_result`. -/
inductive AssignResult where
  | none
  | assigned
  | noQueue
  | maxZero
  | peerWindowFull
  | globalWindowFull
  | historyThrottled
  | noSlot
  | peerAvoidCooldown
deriving DecidableEq, Repr

/-- Models `struct dl_peer_stats`. -/
structure PeerStats where
  peerId : UInt32
  blocksRequested : UInt32 := 0
  blocksReceived : UInt32 := 0
  blocksTimedOut : UInt32 := 0
  lastBodyReceivedTime : Int := 0
  avgDeliveryUs : Int := 0
  bandwidthScore : Nat := 0
  active : Bool
  isLoopback : Bool := false
  zeroAssignGeneration : UInt64 := 0
  zeroAssignRetryAfter : Int := 0
  zeroAssignGlobalLimit : Nat := 0
  zeroAssignResult : AssignResult := .none
deriving DecidableEq, Repr

/-- The `last_assign_*` fields. -/
structure LastAssign where
  peerId : UInt32 := 0
  maxRequested : Nat := 0
  available : Nat := 0
  assigned : Nat := 0
  queueLen : Nat := 0
  active : Nat := 0
  peerInFlight : Nat := 0
  peerLimit : Nat := 0
  globalLimit : Nat := 0
  result : AssignResult := .none
deriving DecidableEq, Repr

/-- Models `struct download_manager`. -/
structure DownloadManager where
  table : SlotTable
  peers : List PeerStats := []
  queue : BlockQueue
  totalRequested : UInt64 := 0
  totalReceived : UInt64 := 0
  totalTimedOut : UInt64 := 0
  totalOrphaned : UInt64 := 0
  totalDuplicate : UInt64 := 0
  totalRequeueSuppressedPending : UInt64 := 0
  assignAttempts : UInt64 := 0
  assignSuccesses : UInt64 := 0
  assignZeroResults : UInt64 := 0
  lastAssign : LastAssign := {}
  queueGeneration : UInt64 := 1
  capacityGeneration : UInt64 := 1
  lastForcedSettleTime : Int := 0
deriving Repr

def dlMaxInFlightPerLoopback : Nat := 512

def dlReceivedPendingSecs : Int := 60

def dlMaxTrackedPeers : Nat := 512

def dlPeerAvoidCooldownSecs : Int := 30

def dlTipBiasReserve : Nat := 64

def dlMaxHistoryInFlight : Nat := 16

def dlMaxHistoryPerPeer : Nat := 2

def getMaxInFlightTotal (ibd : Bool) : Nat := if ibd then 4096 else 1024

def getMaxInFlightPerPeer (ibd : Bool) : Nat := if ibd then 256 else 128

def getRequestTimeoutSecs (ibd : Bool) : Int := if ibd then 45 else 30

def peerAvoidDeadline (ibd : Bool) (now : Int) : Int :=
  let cooldown := getRequestTimeoutSecs ibd
  let cooldown := if cooldown < 1 then 1 else cooldown
  let cooldown :=
    if cooldown > dlPeerAvoidCooldownSecs then dlPeerAvoidCooldownSecs else cooldown
  now + cooldown

def generationAdvance (generation : UInt64) : UInt64 :=
  let next := generation + 1
  if next = 0 then 1 else next

-- Peers

/-- Forget the parked result of the last attempt. -/
def PeerStats.unpark (ps : PeerStats) : PeerStats :=
  { ps with
    zeroAssignGeneration := 0
    zeroAssignRetryAfter := 0
    zeroAssignGlobalLimit := 0
    zeroAssignResult := .none }

/-- Models `dl_find_peer` with `create` false: the index of the peer's record. -/
def findPeer (peers : List PeerStats) (peerId : UInt32) : Option Nat :=
  peers.findIdx? fun ps => ps.peerId = peerId

/-- Models `dl_find_peer` with `create` true. -/
def findOrCreatePeer (peers : List PeerStats) (peerId : UInt32) : List PeerStats × Option Nat :=
  match findPeer peers peerId with
  | some i => (peers.modify i fun ps =>
    if ps.active then ps else { ps.unpark with active := true }, some i)
  | none =>
    match peers.findIdx? fun ps => !ps.active with
    | some i => (peers.set i { peerId, active := true }, some i)
    | none =>
      if peers.length ≥ dlMaxTrackedPeers then (peers, none)
      else (peers ++ [{ peerId, active := true }], some peers.length)

/-- The rolling average and the score after one more delivery. -/
def PeerStats.delivered (ps : PeerStats) (deliveryUs now : Int) : PeerStats :=
  let avg := if ps.avgDeliveryUs = 0 then deliveryUs else (ps.avgDeliveryUs * 7 + deliveryUs).tdiv 8
  let score := 128000000 / avg.toNat
  let score := if score < 1 then 1 else score
  let score := if score > 255 then 255 else score
  { ps with
    blocksReceived := ps.blocksReceived + 1
    lastBodyReceivedTime := now
    avgDeliveryUs := avg
    bandwidthScore := if avg > 0 then score else ps.bandwidthScore }

namespace DownloadManager

/-- Change the record of a peer that `dl_find_peer` finds without creating it. -/
def modifyPeer (dm : DownloadManager) (peerId : UInt32) (change : PeerStats → PeerStats)
    : DownloadManager :=
  match findPeer dm.peers peerId with
  | none => dm
  | some i => { dm with peers := dm.peers.modify i change }

/-- Change the record of a peer, creating it where there is room for it. -/
def modifyOrCreatePeer (dm : DownloadManager) (peerId : UInt32) (change : PeerStats → PeerStats)
    : DownloadManager :=
  match findOrCreatePeer dm.peers peerId with
  | (peers, none) => { dm with peers }
  | (peers, some i) => { dm with peers := peers.modify i change }

def seedBandwidthScore (dm : DownloadManager) (peerId : UInt32) (score : Nat) : DownloadManager :=
  if score = 0 then dm
  else
    let score := if score > 255 then 255 else score
    dm.modifyOrCreatePeer peerId fun ps =>
      if ps.bandwidthScore = 0 then { ps with bandwidthScore := score } else ps

def peerBlockReceived (dm : DownloadManager) (peerId : UInt32) (deliveryUs now : Int)
    : DownloadManager :=
  dm.modifyPeer peerId fun ps => ps.delivered deliveryUs now

def setPeerLoopback (dm : DownloadManager) (peerId : UInt32) (isLoopback : Bool)
    : DownloadManager :=
  match findOrCreatePeer dm.peers peerId with
  | (peers, none) => { dm with peers }
  | (peers, some i) =>
    if (peers[i]?).any fun ps => ps.isLoopback != isLoopback then
      { dm with
        peers := peers.modify i fun ps => { ps with isLoopback }
        capacityGeneration := generationAdvance dm.capacityGeneration }
    else { dm with peers }

-- Requests and receipts

def init : DownloadManager where
  table := ⟨List.replicate initialSlots .blank, 0⟩
  queue := .init

/-- The slot `find_slot` finds for a hash, where none is created. -/
def slotOf (dm : DownloadManager) (hash : Uint256) : Option InFlight :=
  (dm.table.findSlot hash false).bind fun pos => dm.table.slots[pos]?

/-- Models `dl_slot_blocks_requeue`, which counts the suppressed tombstones. -/
def slotBlocksRequeue (dm : DownloadManager) (s : InFlight) (now : Int) : DownloadManager × Bool :=
  if s.active then (dm, true)
  else if s.receivedTime = 0 ∨ now - s.receivedTime ≥ dlReceivedPendingSecs then (dm, false)
  else
    ({ dm with totalRequeueSuppressedPending := dm.totalRequeueSuppressedPending + 1 }, true)

/-- The check of the producers: does the hash's slot, if any, block a new request? -/
def hashBlocksRequeue (dm : DownloadManager) (hash : Uint256) (now : Int)
    : DownloadManager × Bool :=
  match dm.slotOf hash with
  | none => (dm, false)
  | some s => dm.slotBlocksRequeue s now

/-- Take a queued hash out of the queue. -/
def withdrawQueued (dm : DownloadManager) (hash : Uint256) : DownloadManager :=
  if dm.queue.qset.contains hash then
    match dm.queue.entries.findIdx? fun row => row.hash = hash with
    | none => dm
    | some j => { dm with queue := dm.queue.withdraw hash j }
  else dm

/-- The part of `dl_mark_requested` behind its checks. -/
def admitRequest (dm : DownloadManager) (hash : Uint256) (height : Int) (peerId : UInt32)
    (requestTime : Int)
    : DownloadManager × Bool :=
  let dm := { dm with table := dm.table.maybeGrow }
  let dm := dm.withdrawQueued hash
  match dm.table.activate
      { hash, height, peerId, requestTime, receivedTime := 0, workClass := .forward
        active := true } with
  | none => (dm, false)
  | some table =>
    let dm := { dm with table, totalRequested := dm.totalRequested + 1 }
    (dm.modifyOrCreatePeer peerId fun ps =>
      { ps with blocksRequested := ps.blocksRequested + 1 }, true)

/-- Models `dl_mark_requested`; it reads the clock for the tombstone and for the request. -/
def markRequested (dm : DownloadManager) (ibd : Bool) (hash : Uint256) (height : Int)
    (peerId : UInt32) (now requestTime : Int)
    : DownloadManager × Bool :=
  if (dm.slotOf hash).any InFlight.active then
    ({ dm with totalDuplicate := dm.totalDuplicate + 1 }, false)
  else
    match dm.hashBlocksRequeue hash now with
    | (dm, true) => (dm, false)
    | (dm, false) =>
      if dm.table.numActive ≥ getMaxInFlightTotal ibd then (dm, false)
      else dm.admitRequest hash height peerId requestTime

/-- Models `dl_mark_received`; it reads the clock for the delivery time, for the tombstone and
for the peer's last body. -/
def markReceived (dm : DownloadManager) (hash : Uint256) (delivered received lastBody : Int)
    : DownloadManager × UInt32 :=
  match dm.table.findSlot hash false with
  | none => (dm, 0xffffffff)
  | some pos =>
    match dm.table.slots[pos]? with
    | none => (dm, 0xffffffff)
    | some s =>
      if !s.active then (dm, 0xffffffff)
      else
        let dm :=
          { dm with
            table := dm.table.settle pos { s with receivedTime := received }
            totalReceived := dm.totalReceived + 1
            capacityGeneration := generationAdvance dm.capacityGeneration }
        (dm.modifyPeer s.peerId fun ps =>
          ps.delivered ((delivered - s.requestTime) * 1000000) lastBody, s.peerId)

-- Requests given up

/-- An active slot goes back to the queue, avoiding its peer, and is settled. -/
def requeueSlot (dm : DownloadManager) (pos : Nat) (s : InFlight) (avoidUntil : Int)
    : DownloadManager :=
  { dm with
    queue := (dm.queue.push
      { hash := s.hash, height := s.height, avoidPeer := s.peerId, avoidUntil
        workClass := s.workClass }).1
    table := dm.table.settle pos s }

/-- One turn of the loop of `dl_check_timeouts`, with the number of slots reassigned so far. -/
def timeoutSlot (ibd : Bool) (now : Int) (acc : DownloadManager × Nat) (pos : Nat)
    : DownloadManager × Nat :=
  match acc.1.table.slots[pos]? with
  | none => acc
  | some s =>
    if !s.active then acc
    else if now - s.requestTime < getRequestTimeoutSecs ibd then acc
    else
      let dm := acc.1.modifyPeer s.peerId fun ps =>
        { ps with blocksTimedOut := ps.blocksTimedOut + 1 }
      let dm := dm.requeueSlot pos s (peerAvoidDeadline ibd now)
      ({ dm with totalTimedOut := dm.totalTimedOut + 1 }, acc.2 + 1)

/-- Both kinds of parked peers wake. -/
def advanceBoth (dm : DownloadManager) : DownloadManager :=
  { dm with
    queueGeneration := generationAdvance dm.queueGeneration
    capacityGeneration := generationAdvance dm.capacityGeneration }

def checkTimeouts (dm : DownloadManager) (ibd : Bool) (now : Int) : DownloadManager × Nat :=
  let (dm, reassigned) :=
    (List.range dm.table.slots.length).foldl (timeoutSlot ibd now) (dm, 0)
  let dm := if reassigned > 0 then { dm.advanceBoth with lastForcedSettleTime := now } else dm
  ({ dm with table := dm.table.maybeGrow }, reassigned)

/-- One turn of the loop of `dl_peer_disconnected`. -/
def disconnectSlot (peerId : UInt32) (avoidUntil : Int) (acc : DownloadManager × Nat) (pos : Nat)
    : DownloadManager × Nat :=
  match acc.1.table.slots[pos]? with
  | none => acc
  | some s =>
    if !s.active || s.peerId != peerId then acc
    else
      let dm := acc.1.requeueSlot pos s avoidUntil
      ({ dm with totalOrphaned := dm.totalOrphaned + 1 }, acc.2 + 1)

def peerDisconnected (dm : DownloadManager) (ibd : Bool) (peerId : UInt32) (now : Int)
    : DownloadManager × Nat :=
  let (dm, requeued) := (List.range dm.table.slots.length).foldl
    (disconnectSlot peerId (peerAvoidDeadline ibd now)) (dm, 0)
  let dm := dm.modifyPeer peerId fun ps => { ps with active := false }
  (if requeued > 0 then dm.advanceBoth else dm, requeued)

def markNotfound (dm : DownloadManager) (ibd : Bool) (peerId : UInt32) (hash : Uint256) (now : Int)
    : DownloadManager × Nat :=
  match dm.table.findSlot hash false with
  | none => (dm, 0)
  | some pos =>
    match dm.table.slots[pos]? with
    | none => (dm, 0)
    | some s =>
      if !s.active || s.peerId != peerId then (dm, 0)
      else
        let dm := dm.requeueSlot pos s (peerAvoidDeadline ibd now)
        ({ dm.advanceBoth with totalOrphaned := dm.totalOrphaned + 1 }, 1)

/-- Models `dl_drain_for_backpressure`. -/
def drainForBackpressure (dm : DownloadManager) (now : Int) : DownloadManager × Nat :=
  let drained := dm.queue.entries.length + dm.table.numActive
  ({ dm with
      lastForcedSettleTime := now
      queue := dm.queue.clear
      totalOrphaned := dm.totalOrphaned + UInt64.ofNat dm.table.numActive
      table := ⟨dm.table.slots.map fun s => { s with active := false }, 0⟩
      capacityGeneration :=
        if drained > 0 then generationAdvance dm.capacityGeneration else dm.capacityGeneration },
    drained)

-- Queueing

/-- What `dl_stage_one` hands from turn to turn. -/
structure Staging where
  dm : DownloadManager
  items : List StageItem
  promoted : Bool

/-- Models `dl_stage_one`: skip, promote or stage one hash. -/
def stageOne (workClass : WorkClass) (nowQ : Int) (st : Staging) (block : Uint256 × Option Int)
    : Staging :=
  match st.dm.hashBlocksRequeue block.1 nowQ with
  | (dm, true) => { st with dm }
  | (dm, false) =>
    match dm.queue.qset.find block.1 with
    | some queued =>
      if workClass = .forward ∧ queued.workClass = .history then
        match dm.queue.promoteHistory block.1 block.2 with
        | (queue, ok) => { st with dm := { dm with queue }, promoted := ok || st.promoted }
      else { st with dm }
    | none =>
      let queue := { dm.queue with qset := dm.queue.qset.insertRaw block.1 workClass }
      { st with
        dm := { dm with queue }
        items := st.items ++ [⟨block.1, block.2.getD (-1), workClass⟩] }

/-- Models `dl_stage_incoming` for a batch that is not empty. -/
def stageIncoming (dm : DownloadManager) (blocks : List (Uint256 × Option Int))
    (workClass : WorkClass) (nowQ : Int)
    : Staging :=
  let queue :=
    { dm.queue with qset := dm.queue.qset.reserveN dm.queue.keys blocks.length }
  blocks.foldl (stageOne workClass nowQ) ⟨{ dm with queue }, [], false⟩

def advanceQueueIf (dm : DownloadManager) (changed : Bool) : DownloadManager :=
  if changed then { dm with queueGeneration := generationAdvance dm.queueGeneration } else dm

/-- Models `dl_queue_blocks_class`; a height is `none` where the heights are a null pointer. -/
def queueBlocksClass (qsort : Qsort) (dm : DownloadManager)
    (blocks : List (Uint256 × Option Int)) (workClass : WorkClass) (nowQ : Int)
    : DownloadManager × Nat :=
  if blocks.isEmpty then (dm, 0)
  else
    let batch := dm.stageIncoming blocks workClass nowQ
    if batch.items.isEmpty then (batch.dm.advanceQueueIf batch.promoted, 0)
    else
      let items := qsort.sort batch.items
      let need := batch.dm.queue.entries.length + items.length
      let (queue, added) := (batch.dm.queue.growTo need need).mergeStaged items
      ({ batch.dm with queue }.advanceQueueIf (added > 0 || batch.promoted), added)

/-- Models `dl_queue_priority`; it reads the clock for the tombstone and for the avoid deadline. -/
def queuePriority (dm : DownloadManager) (hash : Uint256) (height : Int) (now nowAvoid : Int)
    : DownloadManager :=
  match dm.hashBlocksRequeue hash now with
  | (dm, true) => dm
  | (dm, false) =>
    let row? := if dm.queue.qset.contains hash then
      dm.queue.entries.find? fun row => row.hash = hash else none
    if row?.any fun row =>
        row.height = height ∧ row.workClass = .forward ∧ row.avoidUntil ≤ nowAvoid then dm
    else
      let dm := dm.withdrawQueued hash
      let (queue, ok) := dm.queue.push
        { hash, height, avoidPeer := 0, avoidUntil := 0, workClass := .forward }
      { dm with queue }.advanceQueueIf (row?.isSome || ok)

end DownloadManager

end Z23.Net
