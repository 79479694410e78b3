import Z23.Net.DownloadAssign

/-!
The effect of each call on the queue, the table and the two generations, said once: queue and
table stay consistent, every request is settled once, a queue that gained a row has a new queue
generation and a table that lost a request has a new capacity generation.
-/

namespace Z23.Net

open Z23.Lib Z23.Lib.Tombstones

-- The queue beside the table

/-- Queue and table are consistent and share no hash. -/
structure Sound (queue : BlockQueue) (table : SlotTable) : Prop where
  holds : queue.Holds []
  tracked : table.Tracked
  apart : ∀ row ∈ queue.entries, ∀ s ∈ table.inFlight, s.hash ≠ row.hash
  known : ∀ row ∈ queue.entries, row.hash.isNull = false

namespace Sound

variable {queue : BlockQueue} {table : SlotTable}

theorem init : Sound DownloadManager.init.queue DownloadManager.init.table where
  holds := BlockQueue.init_holds
  tracked := SlotTable.init_tracked
  apart := fun _ member => absurd member List.not_mem_nil
  known := fun _ member => absurd member List.not_mem_nil

theorem maybeGrow (sound : Sound queue table) : Sound queue table.maybeGrow where
  holds := sound.holds
  tracked := sound.tracked.maybeGrow
  apart := fun row member s flying => sound.apart row member s
    (sound.tracked.toCounted.maybeGrow.2.2.2.mem_iff.mp flying)
  known := sound.known

theorem withdraw (sound : Sound queue table) {idx : Nat} {row : QueueEntry}
    (read : queue.entries[idx]? = some row)
    : Sound (queue.withdraw row.hash idx) table where
  holds := (sound.holds.withdraw read).1
  tracked := sound.tracked
  apart := fun other member => sound.apart other (List.mem_of_mem_eraseIdx member)
  known := fun other member => sound.known other (List.mem_of_mem_eraseIdx member)

theorem push (sound : Sound queue table) {row : QueueEntry} (nonNull : row.hash.isNull = false)
    (landed : ∀ s ∈ table.inFlight, s.hash ≠ row.hash)
    : Sound (queue.push row).1 table := by
  have pushed := sound.holds.push row
  refine ⟨pushed.holds, sound.tracked, ?_, ?_⟩
  · intro other member
    rcases pushed.mem other member with rfl | old
    · exact landed
    · exact sound.apart other old
  · intro other member
    rcases pushed.mem other member with rfl | old
    · exact nonNull
    · exact sound.known other old

theorem settle (sound : Sound queue table) {pos : Nat} {s change : InFlight}
    (read : table.slots[pos]? = some s) (active : s.active = true) (same : change.hash = s.hash)
    : Sound queue (table.settle pos change) where
  holds := sound.holds
  tracked := sound.tracked.settle read active same
  apart := fun row member other flying => sound.apart row member other
    ((SlotTable.settle_perm read active change).mem_iff.mpr (List.mem_cons_of_mem _ flying))
  known := sound.known

theorem settled_landed (sound : Sound queue table) {pos : Nat} {s : InFlight} (change : InFlight)
    (read : table.slots[pos]? = some s) (active : s.active = true)
    : ∀ other ∈ (table.settle pos change).inFlight, other.hash ≠ s.hash := by
  have once := ((SlotTable.settle_perm read active change).map InFlight.hash).nodup_iff.mp
    sound.tracked.nodup
  rw [List.map_cons, List.nodup_cons] at once
  intro other flying same
  exact once.1 (List.mem_map.mpr ⟨other, flying, same⟩)

theorem requeue (sound : Sound queue table) {pos : Nat} {s : InFlight}
    (read : table.slots[pos]? = some s) (active : s.active = true) {row : QueueEntry}
    (same : row.hash = s.hash)
    : Sound (queue.push row).1 (table.settle pos s) := by
  refine (sound.settle read active rfl).push ?_ ?_
  · rw [same]
    exact sound.tracked.nonNull s (List.mem_of_getElem? read) active
  · rw [same]
    exact sound.settled_landed s read active

theorem activate (sound : Sound queue table) {s : InFlight} (active : s.active = true)
    (nonNull : s.hash.isNull = false) (landed : ∀ other ∈ table.inFlight, other.hash ≠ s.hash)
    (unqueued : ∀ row ∈ queue.entries, row.hash ≠ s.hash)
    : ∃ after, table.maybeGrow.activate s = some after ∧ Sound queue after
        ∧ after.numActive = table.numActive + 1
        ∧ after.inFlight.Perm (s :: table.inFlight) := by
  obtain ⟨-, count, idle, moved⟩ := sound.tracked.toCounted.maybeGrow
  obtain ⟨after, done, tracked, more, perm⟩ := sound.tracked.maybeGrow.activate idle active nonNull
    (fun other flying => landed other (moved.mem_iff.mp flying))
  have added := perm.trans (moved.cons s)
  refine ⟨after, done, ⟨sound.holds, tracked, ?_, sound.known⟩, by rw [more, count], added⟩
  intro row member other flying
  rcases List.mem_cons.mp (added.mem_iff.mp flying) with rfl | old
  · exact (unqueued row member).symm
  · exact sound.apart row member other old

theorem clear (sound : Sound queue table)
    : Sound queue.clear ⟨table.slots.map fun s => { s with active := false }, 0⟩ := by
  obtain ⟨bits, power⟩ := sound.tracked.power
  have marks : marksOf InFlight.mark (table.slots.map fun s => { s with active := false })
      = marksOf InFlight.mark table.slots := by
    funext pos
    rw [marksOf, List.getElem?_map, marksOf]
    cases read : table.slots[pos]? with
    | none => rfl
    | some s =>
      cases active : s.active with
      | false => simp [InFlight.mark, active]
      | true =>
        have nonNull := sound.tracked.nonNull s (List.mem_of_getElem? read) active
        simp [InFlight.mark, active, nonNull]
  have idle : (table.slots.map fun s => { s with active := false }).countP InFlight.active = 0 := by
    rw [List.countP_eq_zero]
    intro s member
    obtain ⟨old, -, rfl⟩ := List.mem_map.mp member
    exact Bool.false_ne_true
  refine ⟨sound.holds.clear, ⟨⟨⟨bits, ?_⟩, ?_, ?_⟩, ?_, ?_, ?_⟩, ?_, ?_⟩
  · rw [List.length_map, power]
  · rw [idle]
  · exact Nat.zero_le _
  · rw [List.length_map, marks]
    exact sound.tracked.reached
  · exact idle.symm
  · intro s member active
    obtain ⟨old, -, rfl⟩ := List.mem_map.mp member
    cases active
  · exact fun row member => absurd member List.not_mem_nil
  · exact fun row member => absurd member List.not_mem_nil

end Sound

-- Effects

/-- Every request was received, timed out, orphaned or is still in flight. -/
def Settled (dm : DownloadManager) : Prop :=
  dm.totalRequested = dm.totalReceived + dm.totalTimedOut + dm.totalOrphaned
    + UInt64.ofNat dm.table.numActive

/-- What a call does to the queue, the table and the generations: a queue that gained a row has
a new queue generation, a table that lost a request has a new capacity generation. -/
structure Effect (dm after : DownloadManager) : Prop where
  sound : Sound after.queue after.table
  settled : Settled dm → Settled after
  queueMoves
    : after.queueGeneration = generationAdvance dm.queueGeneration
        ∨ after.queueGeneration = dm.queueGeneration
          ∧ after.queue.entries ⊆ dm.queue.entries
  tableMoves
    : after.capacityGeneration = generationAdvance dm.capacityGeneration
        ∨ after.capacityGeneration = dm.capacityGeneration
          ∧ ∃ added, after.table.inFlight.Perm (added ++ dm.table.inFlight)

/-- Only peer records, counters of refusals and telemetry differ. -/
structure SameWork (dm after : DownloadManager) : Prop where
  queue : after.queue = dm.queue
  table : after.table = dm.table
  requested : after.totalRequested = dm.totalRequested
  received : after.totalReceived = dm.totalReceived
  timedOut : after.totalTimedOut = dm.totalTimedOut
  orphaned : after.totalOrphaned = dm.totalOrphaned
  queueGeneration : after.queueGeneration = dm.queueGeneration
  capacityGeneration : after.capacityGeneration = dm.capacityGeneration

variable {dm middle after : DownloadManager}

theorem SameWork.refl (dm : DownloadManager) : SameWork dm dm :=
  ⟨rfl, rfl, rfl, rfl, rfl, rfl, rfl, rfl⟩

theorem SameWork.settled (same : SameWork dm after) (settled : Settled dm) : Settled after := by
  rw [Settled, same.requested, same.received, same.timedOut, same.orphaned, same.table]
  exact settled

theorem Effect.of_same (sound : Sound dm.queue dm.table) (same : SameWork dm after)
    : Effect dm after where
  sound := by rwa [same.queue, same.table]
  settled := same.settled
  queueMoves := .inr ⟨same.queueGeneration, by rw [same.queue]; exact List.Subset.refl _⟩
  tableMoves := .inr ⟨same.capacityGeneration, [], by rw [same.table]; exact List.Perm.refl _⟩

theorem Effect.refl (sound : Sound dm.queue dm.table) : Effect dm dm :=
  .of_same sound (.refl dm)

theorem Effect.then_same (effect : Effect dm middle) (same : SameWork middle after)
    : Effect dm after where
  sound := by
    rw [same.queue, same.table]
    exact effect.sound
  settled := fun before => same.settled (effect.settled before)
  queueMoves := by
    rw [same.queueGeneration, same.queue]
    exact effect.queueMoves
  tableMoves := by
    rw [same.capacityGeneration, same.table]
    exact effect.tableMoves

theorem Effect.after_same (same : SameWork dm middle) (effect : Effect middle after)
    : Effect dm after where
  sound := effect.sound
  settled := fun before => effect.settled (same.settled before)
  queueMoves := by
    rw [← same.queueGeneration, ← same.queue]
    exact effect.queueMoves
  tableMoves := by
    rw [← same.capacityGeneration, ← same.table]
    exact effect.tableMoves

theorem modifyPeer_same (dm : DownloadManager) (peerId : UInt32) (change : PeerStats → PeerStats)
    : SameWork dm (dm.modifyPeer peerId change) := by
  rw [DownloadManager.modifyPeer]
  split
  · exact .refl dm
  · exact ⟨rfl, rfl, rfl, rfl, rfl, rfl, rfl, rfl⟩

theorem modifyOrCreatePeer_same (dm : DownloadManager) (peerId : UInt32)
    (change : PeerStats → PeerStats)
    : SameWork dm (dm.modifyOrCreatePeer peerId change) := by
  rw [DownloadManager.modifyOrCreatePeer]
  split
  · exact ⟨rfl, rfl, rfl, rfl, rfl, rfl, rfl, rfl⟩
  · exact ⟨rfl, rfl, rfl, rfl, rfl, rfl, rfl, rfl⟩

theorem hashBlocksRequeue_same (dm : DownloadManager) (hash : Uint256) (now : Int)
    : SameWork dm (dm.hashBlocksRequeue hash now).1 := by
  rw [DownloadManager.hashBlocksRequeue]
  split
  · exact .refl dm
  · rw [DownloadManager.slotBlocksRequeue]
    split
    · exact .refl dm
    · split
      · exact .refl dm
      · exact ⟨rfl, rfl, rfl, rfl, rfl, rfl, rfl, rfl⟩

theorem ofNat_settled {count : Nat} (positive : 0 < count)
    : UInt64.ofNat count = UInt64.ofNat (count - 1) + 1 := by
  obtain ⟨rest, rfl⟩ : ∃ rest, count = rest + 1 := ⟨count - 1, by omega⟩
  rw [UInt64.ofNat_add, Nat.add_sub_cancel]
  rfl

theorem numActive_pos {queue : BlockQueue} {table : SlotTable} (sound : Sound queue table)
    {pos : Nat} {s : InFlight} (read : table.slots[pos]? = some s) (active : s.active = true)
    : 0 < table.numActive := by
  rw [sound.tracked.exactly]
  exact List.countP_pos_iff.mpr ⟨s, List.mem_of_getElem? read, active⟩

-- Scores and receipts

section

variable (sound : Sound dm.queue dm.table)
include sound

theorem seedBandwidthScore_effect (peerId : UInt32) (score : Nat)
    : Effect dm (dm.seedBandwidthScore peerId score) := by
  rw [DownloadManager.seedBandwidthScore]
  split
  · exact .refl sound
  · exact .of_same sound (modifyOrCreatePeer_same dm peerId _)

theorem peerBlockReceived_effect (peerId : UInt32) (deliveryUs now : Int)
    : Effect dm (dm.peerBlockReceived peerId deliveryUs now) :=
  .of_same sound (modifyPeer_same dm peerId _)

theorem setPeerLoopback_effect (peerId : UInt32) (isLoopback : Bool)
    : Effect dm (dm.setPeerLoopback peerId isLoopback) := by
  rw [DownloadManager.setPeerLoopback]
  split
  · exact .of_same sound ⟨rfl, rfl, rfl, rfl, rfl, rfl, rfl, rfl⟩
  · split
    · exact ⟨sound, fun settled => settled, .inr ⟨rfl, List.Subset.refl _⟩, .inl rfl⟩
    · exact .of_same sound ⟨rfl, rfl, rfl, rfl, rfl, rfl, rfl, rfl⟩

theorem markReceived_effect (hash : Uint256) (delivered received lastBody : Int)
    : Effect dm (dm.markReceived hash delivered received lastBody).1 := by
  rw [DownloadManager.markReceived]
  split
  · exact .refl sound
  · rename_i pos found
    split
    · exact .refl sound
    · rename_i s read
      cases active : s.active with
      | false => exact .refl sound
      | true =>
        have positive := numActive_pos sound read active
        refine Effect.then_same ?_ (modifyPeer_same _ _ _)
        refine ⟨sound.settle read active rfl, ?_, .inr ⟨rfl, List.Subset.refl _⟩, .inl rfl⟩
        intro settled
        rw [Settled] at settled ⊢
        dsimp only
        rw [settled, SlotTable.settle_numActive, ofNat_settled positive]
        ac_rfl

end

-- Requests given up

/-- What the loops over the slots have done so far to the manager they started with. -/
structure Requeued (dm : DownloadManager) (acc : DownloadManager × Nat) : Prop where
  sound : Sound acc.1.queue acc.1.table
  settled : Settled dm → Settled acc.1
  queueGeneration : acc.1.queueGeneration = dm.queueGeneration
  capacityGeneration : acc.1.capacityGeneration = dm.capacityGeneration
  idle : acc.2 = 0 → acc.1 = dm

theorem Requeued.refl (sound : Sound dm.queue dm.table) : Requeued dm (dm, 0) :=
  ⟨sound, id, rfl, rfl, fun _ => rfl⟩

theorem Requeued.timeoutSlot {acc : DownloadManager × Nat} (before : Requeued dm acc) (ibd : Bool)
    (now : Int) (pos : Nat)
    : Requeued dm (DownloadManager.timeoutSlot ibd now acc pos) := by
  rw [DownloadManager.timeoutSlot]
  split
  · exact before
  · rename_i s read
    cases active : s.active with
    | false => exact before
    | true =>
      rw [if_neg (by simp)]
      split
      · exact before
      · have same := modifyPeer_same acc.1 s.peerId
          fun ps => { ps with blocksTimedOut := ps.blocksTimedOut + 1 }
        have positive := numActive_pos before.sound read active
        refine ⟨?_, ?_, same.queueGeneration.trans before.queueGeneration,
          same.capacityGeneration.trans before.capacityGeneration, fun none => ?_⟩
        · dsimp only [DownloadManager.requeueSlot]
          rw [same.queue, same.table]
          exact before.sound.requeue read active rfl
        · intro start
          have settled := before.settled start
          rw [Settled] at settled ⊢
          dsimp only [DownloadManager.requeueSlot]
          rw [same.requested, same.received, same.timedOut, same.orphaned, same.table, settled,
            SlotTable.settle_numActive, ofNat_settled positive]
          ac_rfl
        · cases none

theorem Requeued.disconnectSlot {acc : DownloadManager × Nat} (before : Requeued dm acc)
    (peerId : UInt32) (avoidUntil : Int) (pos : Nat)
    : Requeued dm (DownloadManager.disconnectSlot peerId avoidUntil acc pos) := by
  rw [DownloadManager.disconnectSlot]
  split
  · exact before
  · rename_i s read
    split
    · exact before
    · rename_i own
      have active : s.active = true := by
        cases active : s.active with
        | false => simp [active] at own
        | true => rfl
      have positive := numActive_pos before.sound read active
      refine ⟨before.sound.requeue read active rfl, ?_, before.queueGeneration,
        before.capacityGeneration, fun none => ?_⟩
      · intro start
        have settled := before.settled start
        rw [Settled] at settled ⊢
        dsimp only [DownloadManager.requeueSlot]
        rw [settled, SlotTable.settle_numActive, ofNat_settled positive]
        ac_rfl
      · cases none

theorem Requeued.foldl {turn : DownloadManager × Nat → Nat → DownloadManager × Nat}
    (keeps : ∀ acc pos, Requeued dm acc → Requeued dm (turn acc pos)) (positions : List Nat)
    {acc : DownloadManager × Nat} (before : Requeued dm acc)
    : Requeued dm (positions.foldl turn acc) := by
  induction positions generalizing acc with
  | nil => exact before
  | cons pos rest ih => exact ih (keeps acc pos before)

section

variable (sound : Sound dm.queue dm.table)
include sound

theorem maybeGrow_settled (settled : Settled dm)
    : Settled { dm with table := dm.table.maybeGrow } := by
  rw [Settled] at settled ⊢
  dsimp only
  rw [sound.tracked.toCounted.maybeGrow.2.1]
  exact settled

theorem checkTimeouts_effect (ibd : Bool) (now : Int) : Effect dm (dm.checkTimeouts ibd now).1 := by
  rw [DownloadManager.checkTimeouts]
  have loop := Requeued.foldl (fun acc pos before => before.timeoutSlot ibd now pos)
    (List.range dm.table.slots.length) (Requeued.refl sound)
  generalize (List.range dm.table.slots.length).foldl (DownloadManager.timeoutSlot ibd now)
    (dm, 0) = acc at loop
  obtain ⟨looped, reassigned⟩ := acc
  dsimp only
  split
  · refine ⟨loop.sound.maybeGrow, fun start => ?_, .inl ?_, .inl ?_⟩
    · exact maybeGrow_settled loop.sound (loop.settled start)
    · exact congrArg generationAdvance loop.queueGeneration
    · exact congrArg generationAdvance loop.capacityGeneration
  · rename_i none
    obtain rfl : looped = dm := loop.idle (by simpa using none)
    refine ⟨sound.maybeGrow, maybeGrow_settled sound, .inr ⟨rfl, List.Subset.refl _⟩,
      .inr ⟨rfl, [], ?_⟩⟩
    exact sound.tracked.toCounted.maybeGrow.2.2.2

theorem peerDisconnected_effect (ibd : Bool) (peerId : UInt32) (now : Int)
    : Effect dm (dm.peerDisconnected ibd peerId now).1 := by
  rw [DownloadManager.peerDisconnected]
  have loop := Requeued.foldl
    (fun acc pos before => before.disconnectSlot peerId (peerAvoidDeadline ibd now) pos)
    (List.range dm.table.slots.length) (Requeued.refl sound)
  generalize (List.range dm.table.slots.length).foldl
    (DownloadManager.disconnectSlot peerId (peerAvoidDeadline ibd now)) (dm, 0) = acc at loop
  obtain ⟨looped, requeued⟩ := acc
  dsimp only
  have same := modifyPeer_same looped peerId fun ps => { ps with active := false }
  split
  · refine ⟨?_, fun start => ?_, .inl ?_, .inl ?_⟩
    · dsimp only [DownloadManager.advanceBoth]
      rw [same.queue, same.table]
      exact loop.sound
    · exact same.settled (loop.settled start)
    · exact congrArg generationAdvance (same.queueGeneration.trans loop.queueGeneration)
    · exact congrArg generationAdvance (same.capacityGeneration.trans loop.capacityGeneration)
  · rename_i none
    obtain rfl : looped = dm := loop.idle (by simpa using none)
    exact .of_same sound same

theorem markNotfound_effect (ibd : Bool) (peerId : UInt32) (hash : Uint256) (now : Int)
    : Effect dm (dm.markNotfound ibd peerId hash now).1 := by
  rw [DownloadManager.markNotfound]
  split
  · exact .refl sound
  · split
    · exact .refl sound
    · rename_i s read
      split
      · exact .refl sound
      · rename_i own
        have active : s.active = true := by
          cases active : s.active with
          | false => simp [active] at own
          | true => rfl
        have positive := numActive_pos sound read active
        refine ⟨sound.requeue read active rfl, fun settled => ?_, .inl rfl, .inl rfl⟩
        rw [Settled] at settled ⊢
        dsimp only [DownloadManager.requeueSlot, DownloadManager.advanceBoth]
        rw [settled, SlotTable.settle_numActive, ofNat_settled positive]
        ac_rfl

theorem drainForBackpressure_effect (now : Int) : Effect dm (dm.drainForBackpressure now).1 := by
  rw [DownloadManager.drainForBackpressure]
  refine ⟨sound.clear, fun settled => ?_, .inr ⟨rfl, List.nil_subset _⟩, ?_⟩
  · rw [Settled] at settled ⊢
    dsimp only
    rw [settled]
    simp [UInt64.add_assoc]
  · dsimp only
    split
    · exact .inl rfl
    · rename_i none
      have empty : dm.table.inFlight = [] := by
        rw [← List.length_eq_zero_iff, SlotTable.inFlight_length, ← sound.tracked.exactly]
        omega
      refine .inr ⟨rfl, (⟨dm.table.slots.map fun s => { s with active := false }, 0⟩
        : SlotTable).inFlight, ?_⟩
      rw [empty, List.append_nil]

end

-- New requests

theorem landed_of_slotOf (tracked : dm.table.Tracked) {hash : Uint256}
    (idle : ∀ s, dm.slotOf hash = some s → s.active = false)
    : ∀ s ∈ dm.table.inFlight, s.hash ≠ hash := by
  intro s flying same
  obtain ⟨member, active⟩ := List.mem_filter.mp flying
  obtain ⟨pos, inside, here⟩ := List.getElem_of_mem member
  have read : dm.table.slots[pos]? = some s := by rw [List.getElem?_eq_getElem inside, here]
  have found := tracked.findSlot_active read active
  rw [same] at found
  have off := idle s (by rw [DownloadManager.slotOf, found, Option.bind_some, read])
  rw [active] at off
  cases off

theorem landed_of_hashBlocksRequeue (tracked : dm.table.Tracked) {hash : Uint256} {now : Int}
    (free : (dm.hashBlocksRequeue hash now).2 = false)
    : ∀ s ∈ dm.table.inFlight, s.hash ≠ hash := by
  refine landed_of_slotOf tracked ?_
  intro s found
  rw [DownloadManager.hashBlocksRequeue, found] at free
  dsimp only [DownloadManager.slotBlocksRequeue] at free
  cases active : s.active with
  | false => rfl
  | true =>
    rw [active] at free
    cases free

theorem withdrawQueued_spec (sound : Sound dm.queue dm.table) (hash : Uint256)
    : ∃ queue, dm.withdrawQueued hash = { dm with queue } ∧ Sound queue dm.table
        ∧ queue.entries ⊆ dm.queue.entries ∧ ∀ row ∈ queue.entries, row.hash ≠ hash := by
  rw [DownloadManager.withdrawQueued]
  split
  · split
    · rename_i missed
      refine ⟨dm.queue, rfl, sound, List.Subset.refl _, fun row member same => ?_⟩
      have differs := List.findIdx?_eq_none_iff.mp missed row member
      simp [same] at differs
    · rename_i j found
      obtain ⟨inside, here, -⟩ := List.findIdx?_eq_some_iff_getElem.mp found
      have same : dm.queue.entries[j].hash = hash := of_decide_eq_true here
      have read := List.getElem?_eq_getElem inside
      have out := sound.withdraw read
      have absent := sound.holds.withdraw_absent read
      rw [same] at out absent
      refine ⟨_, rfl, out, fun row => List.mem_of_mem_eraseIdx, fun row member equal => ?_⟩
      have known := out.holds.contains_of_mem member
      rw [equal, absent] at known
      cases known
  · rename_i unknown
    refine ⟨dm.queue, rfl, sound, List.Subset.refl _, fun row member same => ?_⟩
    exact unknown (same ▸ sound.holds.contains_of_mem member)

theorem request_settled {table : SlotTable} (count : table.numActive = dm.table.numActive + 1)
    (settled : Settled dm)
    : Settled { dm with table, totalRequested := dm.totalRequested + 1 } := by
  rw [Settled] at settled ⊢
  dsimp only
  rw [settled, count, UInt64.ofNat_add]
  simp only [UInt64.add_assoc]
  rfl

theorem admitRequest_effect (sound : Sound dm.queue dm.table) {hash : Uint256}
    (nonNull : hash.isNull = false) (landed : ∀ s ∈ dm.table.inFlight, s.hash ≠ hash)
    (height : Int) (peerId : UInt32) (requestTime : Int)
    : Effect dm (dm.admitRequest hash height peerId requestTime).1 := by
  have grown : Sound dm.queue dm.table.maybeGrow := sound.maybeGrow
  obtain ⟨queue, withdrawn, after, sub, unqueued⟩ :=
    @withdrawQueued_spec { dm with table := dm.table.maybeGrow } grown hash
  have clear : Sound queue dm.table :=
    ⟨after.holds, sound.tracked, fun row member => sound.apart row (sub member), after.known⟩
  obtain ⟨table, done, active, count, added⟩ := clear.activate (s :=
    { hash, height, peerId, requestTime, receivedTime := 0, workClass := .forward
      active := true }) rfl nonNull landed unqueued
  rw [DownloadManager.admitRequest]
  dsimp only
  rw [withdrawn]
  dsimp only
  rw [done]
  refine Effect.then_same ?_ (modifyOrCreatePeer_same _ _ _)
  refine ⟨active, fun settled => ?_, .inr ⟨rfl, sub⟩, .inr ⟨rfl, [_], added⟩⟩
  exact @request_settled { dm with queue } table count settled

theorem markRequested_effect (sound : Sound dm.queue dm.table) (ibd : Bool) {hash : Uint256}
    (nonNull : hash.isNull = false) (height : Int) (peerId : UInt32) (now requestTime : Int)
    : Effect dm (dm.markRequested ibd hash height peerId now requestTime).1 := by
  rw [DownloadManager.markRequested]
  split
  · exact .of_same sound ⟨rfl, rfl, rfl, rfl, rfl, rfl, rfl, rfl⟩
  · have same := hashBlocksRequeue_same dm hash now
    have landed := @landed_of_hashBlocksRequeue dm sound.tracked hash now
    generalize dm.hashBlocksRequeue hash now = checked at same landed
    obtain ⟨counted, blocked⟩ := checked
    cases blocked with
    | true => exact .of_same sound same
    | false =>
      dsimp only at same ⊢
      split
      · exact .of_same sound same
      · have still : Sound counted.queue counted.table := by rwa [same.queue, same.table]
        refine Effect.after_same same (admitRequest_effect still nonNull ?_ _ _ _)
        rw [same.table]
        exact landed rfl

end Z23.Net
