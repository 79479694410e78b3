import Z23.Net.DownloadStage
import Z23.Net.DownloadTaken

/-!
What holds after every sequence of calls: the queue and its membership set agree, no hash is both
queued and in flight, every hash in flight is found in its only slot, and every request is
settled once.
-/

namespace Z23.Net

-- Runs

/-- Hashes are not null and a batch has at most twice the queue's capacity. -/
def Call.Valid : Call → Prop
  | .queueBlocksClass blocks _ _ =>
    blocks.length ≤ dlQueueMaxCap * 2 ∧ ∀ block ∈ blocks, block.1.isNull = false
  | .queuePriority hash _ _ _ => hash.isNull = false
  | .markRequested _ hash _ _ _ _ => hash.isNull = false
  | _ => True

theorem step_effect (qsort : Qsort) {dm : DownloadManager} (sound : Sound dm.queue dm.table)
    {call : Call} (valid : call.Valid)
    : Effect dm (dm.step qsort call) := by
  cases call with
  | queueBlocksClass blocks workClass nowQ =>
    exact queueBlocksClass_effect qsort sound valid.1 valid.2 workClass nowQ
  | queuePriority hash height now nowAvoid =>
    exact queuePriority_effect sound valid height now nowAvoid
  | markRequested ibd hash height peerId now requestTime =>
    exact markRequested_effect sound ibd valid height peerId now requestTime
  | assignToPeer ibd peerId now maxAssign =>
    exact assignToPeer_effect sound ibd peerId now maxAssign
  | markReceived hash delivered received lastBody =>
    exact markReceived_effect sound hash delivered received lastBody
  | markNotfound ibd peerId hash now => exact markNotfound_effect sound ibd peerId hash now
  | checkTimeouts ibd now => exact checkTimeouts_effect sound ibd now
  | peerDisconnected ibd peerId now => exact peerDisconnected_effect sound ibd peerId now
  | drainForBackpressure now => exact drainForBackpressure_effect sound now
  | seedBandwidthScore peerId score => exact seedBandwidthScore_effect sound peerId score
  | peerBlockReceived peerId deliveryUs now =>
    exact peerBlockReceived_effect sound peerId deliveryUs now
  | setPeerLoopback peerId isLoopback => exact setPeerLoopback_effect sound peerId isLoopback

theorem foldl_sound (qsort : Qsort) {calls : List Call} (valid : ∀ call ∈ calls, call.Valid)
    {dm : DownloadManager} (sound : Sound dm.queue dm.table) (settled : Settled dm)
    : Sound (calls.foldl (DownloadManager.step qsort) dm).queue
          (calls.foldl (DownloadManager.step qsort) dm).table
        ∧ Settled (calls.foldl (DownloadManager.step qsort) dm) := by
  induction calls generalizing dm with
  | nil => exact ⟨sound, settled⟩
  | cons call rest ih =>
    have effect := step_effect qsort sound (valid call List.mem_cons_self)
    exact ih (List.forall_mem_cons.mp valid).2 effect.sound
      (effect.settled settled)

/-- The state of the manager between calls. -/
structure Consistent (dm : DownloadManager) : Prop where
  once : (dm.queue.entries.map QueueEntry.hash).Nodup
  sorted
    : dm.queue.entries.Pairwise fun a b =>
        queueOrder a.workClass a.height b.workClass b.height ≤ 0
  members
    : ∀ hash workClass, ⟨hash, workClass, .live⟩ ∈ dm.queue.qset.slots
        ↔ ∃ row ∈ dm.queue.entries, row.hash = hash ∧ row.workClass = workClass
  sized : dm.queue.qset.slots.countP QueuedKey.isLive = dm.queue.entries.length
  finds
    : ∀ hash workClass, (∃ e, dm.queue.qset.find hash = some e ∧ e.workClass = workClass)
        ↔ ∃ row ∈ dm.queue.entries, row.hash = hash ∧ row.workClass = workClass
  apart : ∀ row ∈ dm.queue.entries, ∀ s ∈ dm.table.slots, s.active = true → s.hash ≠ row.hash
  found
    : ∀ (pos : Nat) (s : InFlight), dm.table.slots[pos]? = some s → s.active = true →
        dm.table.findSlot s.hash false = some pos
  only
    : ∀ (pos pos' : Nat) (s s' : InFlight), dm.table.slots[pos]? = some s → s.active = true →
        dm.table.slots[pos']? = some s' → s'.hash = s.hash → pos' = pos
  counted : dm.table.numActive = dm.table.slots.countP InFlight.active
  settled
    : dm.totalRequested = dm.totalReceived + dm.totalTimedOut + dm.totalOrphaned
        + UInt64.ofNat dm.table.numActive

theorem Sound.consistent {dm : DownloadManager} (sound : Sound dm.queue dm.table)
    (settled : Settled dm)
    : Consistent dm := by
  have holds := sound.holds.qset
  rw [List.append_nil] at holds
  have keys : ∀ hash workClass, (hash, workClass) ∈ dm.queue.keys
      ↔ ∃ row ∈ dm.queue.entries, row.hash = hash ∧ row.workClass = workClass := by
    intro hash workClass
    simp [BlockQueue.keys, QueueEntry.key]
  refine ⟨sound.holds.nodup, sound.holds.sorted, ?_, ?_, ?_, ?_, ?_, ?_,
    sound.tracked.exactly, settled⟩
  · intro hash workClass
    rw [holds.listed, keys]
  · rw [← holds.liveCount, holds.size, BlockQueue.keys, List.length_map]
  · intro hash workClass
    rw [← keys]
    constructor
    · rintro ⟨e, found, rfl⟩
      exact (holds.find_eq_some_iff.mp found).2.2
    · intro member
      exact ⟨⟨hash, workClass, .live⟩, holds.find_eq_some_iff.mpr ⟨rfl, rfl, member⟩, rfl⟩
  · intro row member s inTable active
    exact sound.apart row member s (List.mem_filter.mpr ⟨inTable, active⟩)
  · intro pos s read active
    exact sound.tracked.findSlot_active read active
  · intro pos pos' s s' read active read' same
    have nonNull := sound.tracked.nonNull s (List.mem_of_getElem? read) active
    have key : s'.mark = .key s.hash := by
      rw [InFlight.mark, same, nonNull, Bool.and_false]
      rfl
    exact sound.tracked.reached.unique pos' pos s.hash
      (Lib.Tombstones.marksOf_eq_key.mpr ⟨s', read', key⟩)
      (SlotTable.marksOf_of_active read active)

/-- The manager is consistent after every sequence of valid calls. -/
theorem run_consistent (qsort : Qsort) (calls : List Call) (valid : ∀ call ∈ calls, call.Valid)
    : Consistent (DownloadManager.run qsort calls) := by
  obtain ⟨sound, settled⟩ := foldl_sound qsort valid Sound.init rfl
  exact sound.consistent settled

/-- A block is queued, requested, given up by its peer and queued again. -/
theorem run_consistent_notfound
    : Consistent (DownloadManager.run Qsort.insertion
        [.queueBlocksClass [(Uint256.fill 1, some 7), (Uint256.fill 2, none)] .history 100,
          .queuePriority (Uint256.fill 1) 7 101 101, .assignToPeer true 4 102 10,
          .markNotfound true 4 (Uint256.fill 1) 103, .checkTimeouts false 200]) := by
  refine run_consistent _ _ ?_
  simp only [List.mem_cons, List.not_mem_nil, or_false, forall_eq_or_imp, forall_eq, Call.Valid,
    and_true]
  decide

end Z23.Net
