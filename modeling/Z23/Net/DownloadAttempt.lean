import Z23.Net.DownloadSelection
import Z23.Net.DownloadInvariant

/-!
The specification of `dl_assign_to_peer` and when it meets it. The loop for shallow queues hands
out an avoided block where more blocks avoid the peer than the tip-bias reserve has room for; a
peer that fails one block more than that gets one of them back at once.
-/

namespace Z23.Net

open DownloadManager

variable {dm : DownloadManager} {peerId : UInt32} {now : Int}

-- The specification of an attempt

namespace DownloadManager

/-- The manager and the record of the peer that an attempt works with. -/
def located (dm : DownloadManager) (peerId : UInt32) : DownloadManager × Option PeerStats :=
  let (peers, ps?) := findOrCreatePeer dm.peers peerId
  ({ dm with peers }, ps?.bind fun i => peers[i]?)

def attemptIsParked (dm : DownloadManager) (ibd : Bool) (peerId : UInt32) (now : Int) : Bool :=
  (dm.located peerId).1.assignmentPeerIsParked ibd (dm.located peerId).2 now

def attemptPeerLimit (dm : DownloadManager) (ibd : Bool) (peerId : UInt32) : Nat :=
  assignPeerLimit ibd (dm.located peerId).2

def attemptWindows (dm : DownloadManager) (ibd : Bool) (peerId : UInt32) (maxAssign : Nat)
    : AssignWindows :=
  dm.assignWindows ibd (dm.assignMeasure peerId) (dm.attemptPeerLimit ibd peerId) maxAssign

/-- The length of the tip-bias reserve. -/
def attemptReserve (dm : DownloadManager) (peerId : UInt32) : Nat :=
  (dm.located peerId).1.assignTipBias (dm.located peerId).2 (dm.assignMeasure peerId).historyQueued

/-- What an attempt that hands out `hashes` is to meet. -/
structure Selects (dm : DownloadManager) (ibd : Bool) (peerId : UInt32) (now : Int)
    (maxAssign : Nat) (hashes : List Uint256)
    : Prop where
  selection : hashes = (greedy peerId now (dm.attemptWindows ibd peerId maxAssign).available
    (dm.attemptWindows ibd peerId maxAssign).historyAvailable
    (scanOrder (dm.attemptReserve peerId) dm.queue.entries)).map QueueEntry.hash
  allowed : ∀ hash ∈ hashes,
    ∃ row ∈ dm.queue.entries, row.hash = hash ∧ row.avoids peerId now = false
  withinRequest : hashes.length ≤ maxAssign
  withinPeerWindow : hashes.length
    ≤ dm.attemptPeerLimit ibd peerId - (dm.assignMeasure peerId).peerCount
  withinGlobalLimit : hashes.length ≤ getMaxInFlightTotal ibd - dm.table.numActive

/-- The loop runs over a queue with more rows that avoid the peer than the reserve has room for.
Its second scan then answers the end of the reserve, which is the index of an avoided row. -/
structure Overreaches (dm : DownloadManager) (ibd : Bool) (peerId : UInt32) (now : Int)
    (maxAssign : Nat)
    : Prop where
  biased : 0 < dm.attemptReserve peerId
  shallow : dm.queue.entries.length
    ≤ (dm.attemptWindows ibd peerId maxAssign).available + dm.attemptReserve peerId
  avoided : dm.attemptReserve peerId
    < dm.queue.entries.countP fun row => row.avoids peerId now

end DownloadManager

theorem clamp_le (value bound : Nat) : (if value > bound then bound else value) ≤ bound := by
  split <;> omega

theorem assignPeerLimit_le (ibd : Bool) (ps? : Option PeerStats)
    : assignPeerLimit ibd ps? ≤ dlMaxInFlightPerLoopback := by
  have plain : getMaxInFlightPerPeer ibd ≤ dlMaxInFlightPerLoopback := by
    cases ibd with
    | false => decide
    | true => decide
  cases ps? with
  | none => exact plain
  | some ps =>
    rw [assignPeerLimit]
    dsimp only
    split
    · exact Nat.le_refl _
    · split
      · exact Nat.le_trans (clamp_le _ _) plain
      · exact plain

theorem assignWindows_available_le (ibd : Bool) (load : AssignLoad) (peerLimit maxAssign : Nat)
    : (dm.assignWindows ibd load peerLimit maxAssign).available ≤ maxAssign
      ∧ (dm.assignWindows ibd load peerLimit maxAssign).available ≤ peerLimit - load.peerCount
      ∧ (dm.assignWindows ibd load peerLimit maxAssign).available
          ≤ getMaxInFlightTotal ibd - dm.table.numActive := by
  rw [assignWindows]
  dsimp only
  refine ⟨?_, ?_, ?_⟩ <;> (repeat' split) <;> omega

theorem attemptReserve_le (dm : DownloadManager) (peerId : UInt32)
    : dm.attemptReserve peerId ≤ dm.queue.entries.length := by
  rw [attemptReserve, assignTipBias, located]
  dsimp only
  split
  · exact Nat.zero_le _
  · exact clamp_le _ _

theorem forward_of_attemptReserve (biased : 0 < dm.attemptReserve peerId)
    : ∀ row ∈ dm.queue.entries, row.isHistory = false := by
  rw [attemptReserve, assignTipBias] at biased
  split at biased
  · cases biased
  · rename_i none
    have zero : dm.queue.entries.countP QueueEntry.isHistory = 0 := Nat.eq_zero_of_not_pos none
    intro row member
    simpa using List.countP_eq_zero.mp zero row member

theorem assignToPeer_hashes (dm : DownloadManager) (ibd : Bool) (peerId : UInt32) (now : Int)
    (maxAssign : Nat) (unparked : dm.attemptIsParked ibd peerId now = false)
    : (dm.assignToPeer ibd peerId now maxAssign).2
        = ((dm.located peerId).1.assignPicks peerId now (dm.attemptWindows ibd peerId maxAssign)
            (dm.attemptReserve peerId)).2.hashes := by
  rw [attemptIsParked, located] at unparked
  dsimp only at unparked
  rw [assignToPeer]
  dsimp only
  rw [unparked]
  rfl

theorem scanOrder_perm (tipBiasSkip : Nat) (entries : List QueueEntry)
    : (scanOrder tipBiasSkip entries).Perm entries := by
  have swapped := @List.perm_append_comm _ (entries.drop tipBiasSkip) (entries.take tipBiasSkip)
  rw [List.take_append_drop] at swapped
  exact swapped

theorem selects_iff_selection (ibd : Bool) (maxAssign : Nat) (hashes : List Uint256)
    : dm.Selects ibd peerId now maxAssign hashes
      ↔ hashes = (greedy peerId now (dm.attemptWindows ibd peerId maxAssign).available
          (dm.attemptWindows ibd peerId maxAssign).historyAvailable
          (scanOrder (dm.attemptReserve peerId) dm.queue.entries)).map QueueEntry.hash := by
  refine ⟨Selects.selection, ?_⟩
  intro selection
  have size : hashes.length ≤ (dm.attemptWindows ibd peerId maxAssign).available := by
    rw [selection, List.length_map]
    exact greedy_length_le _ _ _
  obtain ⟨request, peer, total⟩ := @assignWindows_available_le dm ibd (dm.assignMeasure peerId)
    (dm.attemptPeerLimit ibd peerId) maxAssign
  refine ⟨selection, ?_, Nat.le_trans size request, Nat.le_trans size peer, Nat.le_trans size total⟩
  intro hash member
  rw [selection] at member
  obtain ⟨row, selected, rfl⟩ := List.mem_map.mp member
  obtain ⟨scanned, free⟩ := mem_greedy selected
  exact ⟨row, (scanOrder_perm _ _).mem_iff.mp scanned, rfl, free⟩

/-- The loop over a shallow queue with a reserve hands out the greedy selection exactly where no
more rows avoid the peer than the reserve has room for. -/
theorem assignScanLoop_selection (counted : dm.table.Counted)
    (forward : ∀ row ∈ dm.queue.entries, row.isHistory = false) (available historyAvailable : Nat)
    {reserve : Nat} (biased : 0 < reserve) (shallow : dm.queue.entries.length ≤ available + reserve)
    : (assignScanLoop peerId now available historyAvailable reserve dm.queue.entries.length dm {}
          0).2.hashes
        = (greedy peerId now available historyAvailable
            (scanOrder reserve dm.queue.entries)).map QueueEntry.hash
      ↔ (dm.queue.entries.countP fun row => row.avoids peerId now) ≤ reserve := by
  have order := scanOrder_perm reserve dm.queue.entries
  have inOrder : ∀ row ∈ scanOrder reserve dm.queue.entries, row.isHistory = false :=
    fun row member => forward row (order.mem_iff.mp member)
  rw [assignScanLoop_hashes _ _ _ _ counted forward, greedy_of_forward _ _ inOrder, List.nil_append]
  constructor
  · intro same
    have lengths := congrArg List.length same
    rw [List.length_map, List.length_map, List.length_take] at lengths
    have picked := @loopRows_length peerId now reserve biased dm.queue.entries.length available
      dm.queue.entries (Nat.le_refl _)
    have free := (order.filter fun row => !row.avoids peerId now).length_eq
    have split := List.length_eq_countP_add_countP (fun row => row.avoids peerId now)
      (l := dm.queue.entries)
    rw [← List.countP_eq_length_filter (l := dm.queue.entries)] at free
    simp only [List.length_nil, Nat.sub_zero, Bool.not_eq_true, Bool.decide_eq_false]
      at lengths split
    omega
  · intro few
    rw [loopRows_eq _ (Nat.le_refl _) few]
    rfl

theorem assignScanLoop_zero (historyAvailable tipBiasSkip fuel : Nat)
    : assignScanLoop peerId now 0 historyAvailable tipBiasSkip fuel dm {} 0 = (dm, {}) := by
  cases fuel with
  | zero => rfl
  | succ fuel =>
    rw [assignScanLoop, if_neg]
    exact fun going => absurd going.1 (Nat.not_lt_zero _)

theorem looped_cases (ibd : Bool) (maxAssign : Nat)
    (looped : ¬ assignCanBatch (dm.attemptWindows ibd peerId maxAssign).available
      (dm.attemptReserve peerId) (dm.located peerId).1.queue.entries.length = true)
    : (dm.attemptWindows ibd peerId maxAssign).available = 0
        ∨ 0 < dm.attemptReserve peerId ∧ dm.queue.entries.length
            ≤ (dm.attemptWindows ibd peerId maxAssign).available + dm.attemptReserve peerId := by
  have bounds := @assignWindows_available_le dm ibd (dm.assignMeasure peerId)
    (dm.attemptPeerLimit ibd peerId) maxAssign
  have few : (dm.attemptWindows ibd peerId maxAssign).available ≤ dlMaxInFlightPerLoopback :=
    Nat.le_trans bounds.2.1 (Nat.le_trans (Nat.sub_le _ _) (assignPeerLimit_le _ _))
  have queue : (dm.located peerId).1.queue = dm.queue := rfl
  rw [queue] at looped
  simp only [assignCanBatch, decide_eq_true_eq] at looped
  omega

/-- With a counted table, the attempt meets its specification exactly where the second scan of
the loop cannot reach an avoided row. -/
theorem selects_iff (counted : dm.table.Counted) (ibd : Bool) (maxAssign : Nat)
    (unparked : dm.attemptIsParked ibd peerId now = false)
    : dm.Selects ibd peerId now maxAssign (dm.assignToPeer ibd peerId now maxAssign).2
      ↔ ¬ dm.Overreaches ibd peerId now maxAssign := by
  have reserveLe := attemptReserve_le dm peerId
  rw [selects_iff_selection, assignToPeer_hashes dm ibd peerId now maxAssign unparked, assignPicks]
  split
  · rename_i batch
    refine iff_of_true (@assignBatch_hashes (dm.located peerId).1 peerId now counted _ _ _
      reserveLe) ?_
    intro slip
    simp only [assignCanBatch, decide_eq_true_eq] at batch
    have biased := slip.biased
    have shallow := slip.shallow
    have queue : (dm.located peerId).1.queue = dm.queue := rfl
    rw [queue] at batch
    omega
  · rename_i looped
    rcases looped_cases ibd maxAssign looped with zero | ⟨biased, shallow⟩
    · -- Nothing can be handed out, and the queue is no longer than its reserve.
      rw [zero, assignScanLoop_zero, greedy_zero]
      refine iff_of_true rfl ?_
      intro slip
      have avoided := slip.avoided
      have shallow := slip.shallow
      have all := @List.countP_le_length _ (fun row => row.avoids peerId now) dm.queue.entries
      omega
    · have loop := @assignScanLoop_selection (dm.located peerId).1 peerId now counted
        (@forward_of_attemptReserve dm peerId biased)
        (dm.attemptWindows ibd peerId maxAssign).available
        (dm.attemptWindows ibd peerId maxAssign).historyAvailable (dm.attemptReserve peerId)
        biased shallow
      refine loop.trans ?_
      refine ⟨fun few slip => Nat.not_lt.mpr few slip.avoided, ?_⟩
      intro meets
      exact Nat.le_of_not_lt fun avoided => meets ⟨biased, shallow, avoided⟩

/-- After any calls, an attempt of a peer that is not parked meets its specification exactly where
the second scan of the loop cannot reach an avoided row. -/
theorem run_selects_iff (qsort : Qsort) (calls : List Call) (ibd : Bool) (peerId : UInt32)
    (now : Int) (maxAssign : Nat)
    (unparked : (run qsort calls).attemptIsParked ibd peerId now = false)
    : (run qsort calls).Selects ibd peerId now maxAssign
          ((run qsort calls).assignToPeer ibd peerId now maxAssign).2
        ↔ ¬ (run qsort calls).Overreaches ibd peerId now maxAssign :=
  selects_iff (run_counted qsort calls) ibd maxAssign unparked

/-- A first attempt after two blocks were queued. -/
theorem run_selects_iff_first
    : (run Qsort.insertion [.queueBlocksClass [(Uint256.fill 1, some 7), (Uint256.fill 2, none)]
          .history 100]).Selects false 4 101 10
        ((run Qsort.insertion [.queueBlocksClass [(Uint256.fill 1, some 7), (Uint256.fill 2, none)]
          .history 100]).assignToPeer false 4 101 10).2 := by
  refine (run_selects_iff _ _ _ _ _ _ (by decide +kernel)).mpr ?_
  intro slip
  exact absurd slip.biased (by decide +kernel)

-- A peer that fails block after block

/-- Nothing is in flight, and every queued block was failed by the peer and avoids it until the
deadline. -/
structure AllFailed (peerId : UInt32) (deadline : Int) (dm : DownloadManager) : Prop where
  sound : Sound dm.queue dm.table
  idle : dm.table.numActive = 0
  cells : dm.table.slots.length = initialSlots
  clean : ∀ s ∈ dm.table.slots, s.receivedTime = 0
  capacity : dm.queue.cap = initialQueue
  avoided : ∀ row ∈ dm.queue.entries,
    row.avoidPeer = peerId ∧ row.avoidUntil = deadline ∧ row.workClass = .forward

/-- The peer is asked for a block and does not have it. -/
def failedRound (peerId : UInt32) (now : Int) (hash : Uint256) : List Call :=
  [.markRequested false hash 0 peerId now now, .markNotfound false peerId hash now]

theorem AllFailed.init (peerId : UInt32) (deadline : Int) (peers : List PeerStats)
    : AllFailed peerId deadline { DownloadManager.init with peers } where
  sound := Sound.init
  idle := rfl
  cells := List.length_replicate
  clean := fun s member => by
    rw [List.eq_of_mem_replicate member]
    rfl
  capacity := rfl
  avoided := fun row member => absurd member List.not_mem_nil

section

variable {deadline : Int} (failed : AllFailed peerId deadline dm)
include failed

theorem AllFailed.inactive {s : InFlight} (member : s ∈ dm.table.slots) : s.active = false := by
  have none := failed.sound.tracked.exactly
  rw [failed.idle] at none
  simpa using List.countP_eq_zero.mp none.symm s member

theorem AllFailed.inFlight : dm.table.inFlight = [] := by
  rw [SlotTable.inFlight, List.filter_eq_nil_iff]
  intro s member
  rw [failed.inactive member]
  exact Bool.false_ne_true

theorem AllFailed.markRequested {hash : Uint256} (nonNull : hash.isNull = false)
    (fresh : ∀ row ∈ dm.queue.entries, row.hash ≠ hash) (now : Int)
    : ∃ pos, pos < dm.table.slots.length
        ∧ dm.markRequested false hash 0 peerId now now
            = ({ dm with
                  table := ⟨dm.table.slots.set pos ⟨hash, 0, peerId, now, 0, .forward, true⟩, 1⟩
                  totalRequested := dm.totalRequested + 1 }.modifyOrCreatePeer peerId fun ps =>
                { ps with blocksRequested := ps.blocksRequested + 1 }, true)
        ∧ Sound dm.queue ⟨dm.table.slots.set pos ⟨hash, 0, peerId, now, 0, .forward, true⟩, 1⟩ := by
  have free : dm.hashBlocksRequeue hash now = (dm, false) := by
    rw [hashBlocksRequeue]
    cases found : dm.slotOf hash with
    | none => rfl
    | some s =>
      obtain ⟨pos, -, read⟩ := Option.bind_eq_some_iff.mp found
      have member := List.mem_of_getElem? read
      dsimp only
      rw [slotBlocksRequeue, failed.inactive member, if_neg Bool.false_ne_true,
        if_pos (.inl (failed.clean s member))]
  have idle : (dm.slotOf hash).any InFlight.active = false := by
    cases found : dm.slotOf hash with
    | none => rfl
    | some s =>
      obtain ⟨pos, -, read⟩ := Option.bind_eq_some_iff.mp found
      exact failed.inactive (List.mem_of_getElem? read)
  have still : dm.table.maybeGrow = dm.table := by
    rw [SlotTable.maybeGrow, failed.idle, failed.cells]
    rfl
  have missing : dm.queue.qset.contains hash = false := by
    rw [← Bool.not_eq_true]
    intro known
    obtain ⟨row, member, same⟩ := failed.sound.holds.mem_of_contains known
    exact fresh row member same
  obtain ⟨after, done, sound, -, -⟩ := failed.sound.activate
    (s := ⟨hash, 0, peerId, now, 0, .forward, true⟩) rfl nonNull
    (fun other flying => by rw [failed.inFlight] at flying; cases flying) fresh
  rw [still] at done
  obtain ⟨pos, found, made⟩ : ∃ pos, dm.table.findSlot hash true = some pos
      ∧ after = ⟨dm.table.slots.set pos ⟨hash, 0, peerId, now, 0, .forward, true⟩, 1⟩ := by
    rw [SlotTable.activate, Option.map_eq_some_iff] at done
    obtain ⟨pos, found, made⟩ := done
    exact ⟨pos, found, by rw [← made, failed.idle]⟩
  subst made
  refine ⟨pos, SlotTable.findSlot_lt found, ?_, sound⟩
  rw [DownloadManager.markRequested, idle, free]
  dsimp only
  rw [failed.idle, if_neg Bool.false_ne_true, if_neg (by decide), admitRequest, still]
  dsimp only
  rw [withdrawQueued, missing, if_neg Bool.false_ne_true, done]

end

theorem markNotfound_only {pos : Nat} {s : InFlight}
    (found : dm.table.findSlot s.hash false = some pos) (read : dm.table.slots[pos]? = some s)
    (active : s.active = true) (own : s.peerId = peerId) (now : Int)
    : dm.markNotfound false peerId s.hash now
        = ({ (dm.requeueSlot pos s (peerAvoidDeadline false now)).advanceBoth with
              totalOrphaned := dm.totalOrphaned + 1 }, 1) := by
  rw [markNotfound, found]
  dsimp only
  rw [read]
  dsimp only
  rw [active, own, bne_self_eq_false, Bool.not_true, Bool.or_false, if_neg Bool.false_ne_true]
  rfl

theorem AllFailed.round (failed : AllFailed peerId (peerAvoidDeadline false now) dm)
    (qsort : Qsort) {hash : Uint256} (nonNull : hash.isNull = false)
    (fresh : ∀ row ∈ dm.queue.entries, row.hash ≠ hash)
    (room : dm.queue.entries.length < initialQueue)
    : AllFailed peerId (peerAvoidDeadline false now)
          ((failedRound peerId now hash).foldl (step qsort) dm)
        ∧ (((failedRound peerId now hash).foldl (step qsort) dm).queue.entries.map
            QueueEntry.hash).Perm (hash :: dm.queue.entries.map QueueEntry.hash)
        ∧ ((failedRound peerId now hash).foldl (step qsort) dm).peers
            = (dm.modifyOrCreatePeer peerId fun ps =>
                { ps with blocksRequested := ps.blocksRequested + 1 }).peers := by
  obtain ⟨pos, inside, requested, sound⟩ := failed.markRequested nonNull fresh now
  have missing : ¬ dm.queue.qset.contains hash = true := by
    intro known
    obtain ⟨row, member, same⟩ := failed.sound.holds.mem_of_contains known
    exact fresh row member same
  obtain ⟨middle, made, queue, table, peers⟩ : ∃ middle : DownloadManager,
      dm.markRequested false hash 0 peerId now now = (middle, true) ∧ middle.queue = dm.queue
        ∧ middle.table
            = ⟨dm.table.slots.set pos ⟨hash, 0, peerId, now, 0, .forward, true⟩, 1⟩
        ∧ middle.peers = (dm.modifyOrCreatePeer peerId fun ps =>
            { ps with blocksRequested := ps.blocksRequested + 1 }).peers := by
    refine ⟨_, requested, (modifyOrCreatePeer_same _ _ _).queue,
      (modifyOrCreatePeer_same _ _ _).table, ?_⟩
    rw [modifyOrCreatePeer, modifyOrCreatePeer]
    dsimp only
    split
    · rfl
    · rfl
  rw [← queue, ← table] at sound
  have read : middle.table.slots[pos]? = some ⟨hash, 0, peerId, now, 0, .forward, true⟩ := by
    rw [table]
    exact List.getElem?_set_self inside
  have givenBack := markNotfound_only (sound.tracked.findSlot_active read rfl) read rfl rfl now
  have after : (failedRound peerId now hash).foldl (step qsort) dm
      = (middle.markNotfound false peerId hash now).1 := by
    rw [failedRound, List.foldl_cons, List.foldl_cons, List.foldl_nil, step, made, step]
  rw [after, givenBack]
  have pushed : (dm.queue.push ⟨hash, 0, peerId, peerAvoidDeadline false now, .forward⟩).1
      = dm.queue.place ⟨hash, 0, peerId, peerAvoidDeadline false now, .forward⟩ := by
    rw [BlockQueue.push, if_neg missing, BlockQueue.makeRoom, if_neg]
    rw [failed.capacity]
    exact Nat.not_le.mpr room
  have requeued := @Sound.requeue _ _ sound pos _ read rfl
    ⟨hash, 0, peerId, peerAvoidDeadline false now, .forward⟩ rfl
  dsimp only [requeueSlot, advanceBoth]
  rw [queue, pushed] at requeued ⊢
  refine ⟨⟨requeued, ?_, ?_, ?_, failed.capacity, ?_⟩, ?_, peers⟩
  · rw [table]
    rfl
  · rw [SlotTable.settle, table, List.length_set, List.length_set]
    exact failed.cells
  · intro s member
    rw [SlotTable.settle, table] at member
    rcases List.mem_or_eq_of_mem_set member with kept | rfl
    · rcases List.mem_or_eq_of_mem_set kept with old | rfl
      · exact failed.clean s old
      · rfl
    · rfl
  · intro other member
    rcases BlockQueue.mem_place member with rfl | old
    · exact ⟨rfl, rfl, rfl⟩
    · exact failed.avoided other old
  · exact (Lib.SortedArray.insertAt_perm _ _ _).map QueueEntry.hash

theorem AllFailed.rounds (qsort : Qsort) {peersOk : List PeerStats → Prop}
    (keeps : ∀ dm : DownloadManager, peersOk dm.peers →
      peersOk (dm.modifyOrCreatePeer peerId fun ps =>
        { ps with blocksRequested := ps.blocksRequested + 1 }).peers)
    {hashes : List Uint256} (nonNull : ∀ hash ∈ hashes, hash.isNull = false)
    (failed : AllFailed peerId (peerAvoidDeadline false now) dm) (known : peersOk dm.peers)
    (distinct : (hashes ++ dm.queue.entries.map QueueEntry.hash).Nodup)
    (room : hashes.length + dm.queue.entries.length ≤ initialQueue)
    : AllFailed peerId (peerAvoidDeadline false now)
          ((hashes.flatMap (failedRound peerId now)).foldl (step qsort) dm)
        ∧ ((hashes.flatMap (failedRound peerId now)).foldl (step qsort) dm).queue.entries.length
            = hashes.length + dm.queue.entries.length
        ∧ peersOk ((hashes.flatMap (failedRound peerId now)).foldl (step qsort) dm).peers := by
  induction hashes generalizing dm with
  | nil => exact ⟨failed, (Nat.zero_add _).symm, known⟩
  | cons hash rest ih =>
    rw [List.length_cons] at room
    have fresh : ∀ row ∈ dm.queue.entries, row.hash ≠ hash := by
      intro row member same
      rw [List.cons_append, List.nodup_cons] at distinct
      exact distinct.1 (List.mem_append_right _ (List.mem_map.mpr ⟨row, member, same⟩))
    obtain ⟨next, perm, peers⟩ := failed.round qsort (nonNull hash List.mem_cons_self) fresh
      (by omega)
    have size := perm.length_eq
    rw [List.length_map, List.length_cons, List.length_map] at size
    rw [List.flatMap_cons, List.foldl_append]
    have tail := ih (List.forall_mem_cons.mp nonNull).2 next
      (by rw [peers]; exact keeps dm known) ?_ (by omega)
    · rw [size] at tail
      rw [List.length_cons, Nat.add_assoc, Nat.add_comm 1]
      exact tail
    · exact ((perm.append_left rest).trans List.perm_middle).nodup_iff.mpr distinct

/-- A slow peer and a fast one are scored, and the slow one fails 65 blocks. -/
def slowPeerCalls : List Call :=
  [.seedBandwidthScore 7 10, .seedBandwidthScore 8 200]
    ++ ((List.range 65).map fun i => Uint256.fill (UInt8.ofNat (i + 1))).flatMap (failedRound 7 100)

def slowPeer (requested : UInt32) : PeerStats :=
  { peerId := 7, active := true, bandwidthScore := 10, blocksRequested := requested }

/-- The records of the two peers. -/
def SlowAndFast (peers : List PeerStats) : Prop :=
  ∃ requested, peers =
    [slowPeer requested, { peerId := 8, active := true, bandwidthScore := 200 }]

theorem slowPeerCalls_spec (qsort : Qsort)
    : AllFailed 7 130 (run qsort slowPeerCalls)
        ∧ (run qsort slowPeerCalls).queue.entries.length = 65
        ∧ SlowAndFast (run qsort slowPeerCalls).peers := by
  have scored : run qsort [.seedBandwidthScore 7 10, .seedBandwidthScore 8 200]
      = { init with
          peers := [slowPeer 0, { peerId := 8, active := true, bandwidthScore := 200 }] } := rfl
  have keeps : ∀ dm : DownloadManager, SlowAndFast dm.peers →
      SlowAndFast (dm.modifyOrCreatePeer 7 fun ps =>
        { ps with blocksRequested := ps.blocksRequested + 1 }).peers := by
    rintro dm ⟨requested, peers⟩
    rw [modifyOrCreatePeer, peers]
    exact ⟨requested + 1, rfl⟩
  rw [run, slowPeerCalls, List.foldl_append, ← run, scored]
  exact @AllFailed.rounds _ 7 100 qsort SlowAndFast keeps _ (by decide)
    (.init 7 (peerAvoidDeadline false 100) _) ⟨0, rfl⟩ (by decide +kernel) (by decide)

theorem AllFailed.avoids {deadline : Int} (failed : AllFailed peerId deadline dm)
    (early : now < deadline) {row : QueueEntry} (member : row ∈ dm.queue.entries)
    : row.avoids peerId now = true := by
  obtain ⟨peer, until_, -⟩ := failed.avoided row member
  rw [QueueEntry.avoids, peer, until_, if_neg (Int.not_le.mpr early)]
  exact decide_eq_true ⟨rfl, early⟩

theorem AllFailed.assignMeasure {deadline : Int} (failed : AllFailed peerId deadline dm)
    (peerId : UInt32)
    : (dm.assignMeasure peerId).peerCount = 0 ∧ (dm.assignMeasure peerId).historyQueued = 0
        ∧ (dm.assignMeasure peerId).forwardQueued = dm.queue.entries.length := by
  refine ⟨List.countP_eq_zero.mpr ?_, List.countP_eq_zero.mpr ?_, List.countP_eq_length.mpr ?_⟩
  · intro s member
    simp [failed.inactive member]
  · intro row member
    simp [QueueEntry.isHistory, (failed.avoided row member).2.2]
  · intro row member
    simp [QueueEntry.isHistory, (failed.avoided row member).2.2]

/-- The slow peer asks while it must avoid all 65 blocks: the reserve takes 64 of them. -/
theorem AllFailed.overreaches (failed : AllFailed 7 130 dm) (size : dm.queue.entries.length = 65)
    (peers : SlowAndFast dm.peers)
    : dm.attemptIsParked false 7 103 = false ∧ dm.Overreaches false 7 103 1 := by
  obtain ⟨requested, peers⟩ := peers
  obtain ⟨free, forward, queued⟩ := failed.assignMeasure 7
  have located : dm.located 7 = (dm, some (slowPeer requested)) := by
    have found : findOrCreatePeer dm.peers 7 = (dm.peers, some 0) := by
      rw [peers]
      rfl
    rw [DownloadManager.located, found]
    refine Prod.ext rfl ?_
    dsimp only [Option.bind_some]
    rw [peers]
    rfl
  have reserve : dm.attemptReserve 7 = 64 := by
    rw [attemptReserve, located, assignTipBias, forward, size, bestBandwidthScore, peers]
    rfl
  have available : (dm.attemptWindows false 7 1).available = 1 := by
    rw [attemptWindows, attemptPeerLimit, located, assignWindows]
    dsimp only
    rw [free, queued, size, failed.idle]
    have limit : assignPeerLimit false (some (slowPeer requested)) = 16 := by
      simp [assignPeerLimit, slowPeer, getMaxInFlightPerPeer]
    rw [limit, if_neg]
    · rfl
    · exact Nat.not_lt.mpr (Nat.le_trans (show 1 ≤ 65 by decide) (Nat.le_add_right 65 _))
  refine ⟨?_, ?_, ?_, ?_⟩
  · rw [attemptIsParked, located]
    rfl
  · rw [reserve]
    decide
  · rw [reserve, available, size]
  · rw [reserve, List.countP_eq_length.mpr fun row member => failed.avoids (by decide) member, size]
    decide

/-- The slow peer is handed one of the blocks it must still avoid. -/
theorem run_selects_slowPeer
    : (run Qsort.insertion slowPeerCalls).attemptIsParked false 7 103 = false
        ∧ (∀ row ∈ (run Qsort.insertion slowPeerCalls).queue.entries, row.avoids 7 103 = true)
        ∧ ((run Qsort.insertion slowPeerCalls).assignToPeer false 7 103 1).2 ≠ []
        ∧ ¬ (run Qsort.insertion slowPeerCalls).Selects false 7 103 1
            ((run Qsort.insertion slowPeerCalls).assignToPeer false 7 103 1).2 := by
  obtain ⟨failed, size, peers⟩ := slowPeerCalls_spec Qsort.insertion
  obtain ⟨unparked, slip⟩ := failed.overreaches size peers
  have misses := fun meets => (selects_iff failed.sound.tracked.toCounted false 1 unparked).mp
    meets slip
  refine ⟨unparked, fun row member => failed.avoids (by decide) member, ?_, misses⟩
  intro none
  apply misses
  rw [none, selects_iff_selection, greedy_eq_nil]
  · rfl
  · intro row member
    exact .inl (failed.avoids (by decide) ((scanOrder_perm _ _).mem_iff.mp member))

end Z23.Net
