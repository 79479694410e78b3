import Z23.Net.DownloadEffect

/-!
The effect of assignment: the batch takes its picks out of the membership set one by one and
compacts the queue once, the loop takes out one row a turn.
-/

namespace Z23.Net

open Z23.Lib

variable {dm middle after : DownloadManager}

-- Assignment

/-- Entries left the queue and became requests; nothing else moved. -/
structure Taken (dm after : DownloadManager) : Prop where
  sound : Sound after.queue after.table
  settled : Settled dm → Settled after
  queueGeneration : after.queueGeneration = dm.queueGeneration
  capacityGeneration : after.capacityGeneration = dm.capacityGeneration
  peers : after.peers = dm.peers
  rows : after.queue.entries ⊆ dm.queue.entries
  added : ∃ added, after.table.inFlight.Perm (added ++ dm.table.inFlight)

theorem Taken.refl (sound : Sound dm.queue dm.table) : Taken dm dm :=
  ⟨sound, id, rfl, rfl, rfl, List.Subset.refl _, [], List.Perm.refl _⟩

theorem Taken.trans (first : Taken dm middle) (second : Taken middle after) : Taken dm after := by
  obtain ⟨more, moved⟩ := first.added
  obtain ⟨later, moved'⟩ := second.added
  refine ⟨second.sound, fun settled => second.settled (first.settled settled),
    second.queueGeneration.trans first.queueGeneration,
    second.capacityGeneration.trans first.capacityGeneration, second.peers.trans first.peers,
    List.Subset.trans second.rows first.rows, later ++ more, ?_⟩
  rw [List.append_assoc]
  exact moved'.trans (moved.append_left later)

theorem Taken.effect (taken : Taken dm after) : Effect dm after :=
  ⟨taken.sound, taken.settled, .inr ⟨taken.queueGeneration, taken.rows⟩,
    .inr ⟨taken.capacityGeneration, taken.added⟩⟩

theorem assignEntry_withdrawn (sound : Sound dm.queue dm.table) {pick : Nat} {row : QueueEntry}
    (read : dm.queue.entries[pick]? = some row) (peerId : UInt32) (now : Int)
    : ∃ next, { dm with queue := dm.queue.withdraw row.hash pick }.assignEntry row peerId now
          = some next
        ∧ Taken dm next := by
  have member := List.mem_of_getElem? read
  have out := sound.withdraw read
  have unqueued : ∀ other ∈ (dm.queue.withdraw row.hash pick).entries, other.hash ≠ row.hash := by
    intro other known same
    have still := out.holds.contains_of_mem known
    rw [same, sound.holds.withdraw_absent read] at still
    cases still
  obtain ⟨table, done, after, count, added⟩ := out.activate (s := row.request peerId now) rfl
    (sound.known row member) (sound.apart row member) unqueued
  refine ⟨_, by rw [DownloadManager.assignEntry, done, Option.map_some], ?_⟩
  refine ⟨after, fun settled => ?_, rfl, rfl, rfl, fun other => List.mem_of_mem_eraseIdx, [_],
    added⟩
  exact @request_settled { dm with queue := dm.queue.withdraw row.hash pick } table count settled

theorem assignScanLoop_taken (peerId : UInt32) (now : Int)
    (available historyAvailable tipBiasSkip fuel : Nat) (sound : Sound dm.queue dm.table)
    (o : DownloadManager.AssignOutcome) (historyAssigned : Nat)
    : Taken dm (DownloadManager.assignScanLoop peerId now available historyAvailable tipBiasSkip
        fuel dm o historyAssigned).1 := by
  induction fuel generalizing dm o historyAssigned with
  | zero => exact .refl sound
  | succ fuel ih =>
    rw [DownloadManager.assignScanLoop]
    split
    · generalize DownloadManager.scanPick dm.queue.entries peerId now tipBiasSkip o.avoidance
        = picked
      obtain ⟨pick, a⟩ := picked
      dsimp only
      split
      · exact .refl sound
      · rename_i row read
        split
        · exact .refl sound
        · obtain ⟨next, done, taken⟩ := assignEntry_withdrawn sound read peerId now
          rw [done]
          exact taken.trans (ih taken.sound _ _)
    · exact .refl sound

/-- A batch in the middle of its picks; the rows `left` are still in the membership set. -/
structure Picking (dm acc : DownloadManager) (left : List QueueEntry) : Prop where
  holds : acc.queue.qset.Holds (left.map QueueEntry.key)
  roomy : acc.queue.qset.Roomy 0
  tracked : acc.table.Tracked
  apart : ∀ row ∈ left, ∀ s ∈ acc.table.inFlight, s.hash ≠ row.hash
  known : ∀ row ∈ left, row.hash.isNull = false
  entries : acc.queue.entries = dm.queue.entries
  cap : acc.queue.cap = dm.queue.cap
  settled : Settled dm → Settled acc
  queueGeneration : acc.queueGeneration = dm.queueGeneration
  capacityGeneration : acc.capacityGeneration = dm.capacityGeneration
  peers : acc.peers = dm.peers
  added : ∃ added, acc.table.inFlight.Perm (added ++ dm.table.inFlight)

theorem Picking.applyPick {acc : DownloadManager × List Uint256} {p : Nat} {row : QueueEntry}
    {left : List QueueEntry} (before : Picking dm acc.1 (row :: left))
    (read : dm.queue.entries[p]? = some row) (peerId : UInt32) (now : Int)
    : Picking dm (DownloadManager.applyPick peerId now acc p).1 left := by
  obtain ⟨acc, hashes⟩ := acc
  dsimp only at before
  obtain ⟨out, cells, load⟩ := before.holds.remove_cons (List.Perm.refl _)
  obtain ⟨-, grownCount, idle, moved⟩ := before.tracked.toCounted.maybeGrow
  obtain ⟨table, done, tracked, count, added⟩ := before.tracked.maybeGrow.activate idle
    (s := row.request peerId now) rfl (before.known row List.mem_cons_self)
    (fun s flying => before.apart row List.mem_cons_self s (moved.mem_iff.mp flying))
  have flying := added.trans (moved.cons _)
  have distinct : ∀ other ∈ left, row.hash ≠ other.hash := by
    have once := before.holds.once
    rw [List.map_map, List.map_cons, List.nodup_cons] at once
    intro other member same
    exact once.1 (List.mem_map.mpr ⟨other, member, same.symm⟩)
  rw [DownloadManager.applyPick]
  dsimp only
  rw [before.entries, read]
  dsimp only [DownloadManager.assignEntry]
  rw [done, Option.map_some]
  refine ⟨out, ?_, tracked, ?_, ?_, rfl, before.cap, ?_, before.queueGeneration,
    before.capacityGeneration, before.peers, ?_⟩
  · have roomy := before.roomy
    rw [Qset.Roomy] at roomy ⊢
    dsimp only
    rw [cells, load]
    exact roomy
  · intro other member s new
    rcases List.mem_cons.mp (flying.mem_iff.mp new) with rfl | old
    · exact distinct other member
    · exact before.apart other (List.mem_cons_of_mem _ member) s old
  · exact (List.forall_mem_cons.mp before.known).2
  · intro start
    exact @request_settled acc table (by rw [count, grownCount]) (before.settled start)
  · obtain ⟨earlier, perm⟩ := before.added
    exact ⟨row.request peerId now :: earlier, flying.trans (perm.cons _)⟩

theorem Picking.foldl (peerId : UInt32) (now : Int) {picks : List Nat} {left : List QueueEntry}
    (within : ∀ p ∈ picks, p < dm.queue.entries.length) {acc : DownloadManager × List Uint256}
    (before : Picking dm acc.1 (picks.filterMap (dm.queue.entries[·]?) ++ left))
    : Picking dm (picks.foldl (DownloadManager.applyPick peerId now) acc).1 left := by
  induction picks generalizing acc with
  | nil => exact before
  | cons p rest ih =>
    have read := List.getElem?_eq_getElem (within p List.mem_cons_self)
    rw [List.filterMap_cons, read] at before
    exact ih (List.forall_mem_cons.mp within).2
      (before.applyPick read peerId now)

theorem collectPicks_sublist (entries : List QueueEntry) (peerId : UInt32) (now : Int)
    (available historyAvailable : Nat) (indices : List Nat) (scan : DownloadManager.PickScan)
    : ∃ new, (DownloadManager.collectPicks entries peerId now available historyAvailable indices
          scan).picks = scan.picks ++ new
        ∧ new.Sublist indices := by
  induction indices generalizing scan with
  | nil => exact ⟨[], (List.append_nil _).symm, List.Sublist.refl _⟩
  | cons i rest ih =>
    obtain ⟨new, split, sub⟩ := ih
      (DownloadManager.collectPick entries peerId now available historyAvailable scan i)
    rw [DownloadManager.collectPicks] at split ⊢
    rw [List.foldl_cons, split, DownloadManager.collectPick]
    split
    · split
      · exact ⟨new, rfl, sub.cons i⟩
      · split
        · exact ⟨new, rfl, sub.cons i⟩
        · split
          · exact ⟨new, rfl, sub.cons i⟩
          · exact ⟨i :: new, by simp, sub.cons_cons i⟩
    · exact ⟨new, rfl, sub.cons i⟩

theorem batchScan_picks (entries : List QueueEntry) (peerId : UInt32) (now : Int)
    (available historyAvailable clamp : Nat)
    : ∃ beyond reserve,
        (DownloadManager.batchScan entries peerId now available historyAvailable clamp).picks
          = beyond ++ reserve
        ∧ beyond.Sublist (List.range' clamp (entries.length - clamp))
        ∧ reserve.Sublist (List.range' 0 clamp) := by
  rw [DownloadManager.batchScan]
  obtain ⟨beyond, split, sub⟩ := collectPicks_sublist entries peerId now available
    historyAvailable (List.range' clamp (entries.length - clamp)) {}
  generalize DownloadManager.collectPicks entries peerId now available historyAvailable
    (List.range' clamp (entries.length - clamp)) {} = scan at split
  split
  · obtain ⟨reserve, later, sub'⟩ := collectPicks_sublist entries peerId now available
      historyAvailable (List.range' 0 clamp) scan
    exact ⟨beyond, reserve, by rw [later, split, List.nil_append], sub, sub'⟩
  · exact ⟨beyond, [], by rw [split, List.nil_append, List.append_nil], sub,
      List.nil_sublist _⟩

theorem sortedPicks {beyond reserve : List Nat} {clamp len : Nat} (inside : clamp ≤ len)
    (high : beyond.Sublist (List.range' clamp (len - clamp)))
    (low : reserve.Sublist (List.range' 0 clamp))
    : (beyond ++ reserve).filter (· < clamp) ++ (beyond ++ reserve).filter (· ≥ clamp)
          = reserve ++ beyond
        ∧ (reserve ++ beyond).Sublist (List.range' 0 len) := by
  have above : ∀ i ∈ beyond, clamp ≤ i := fun i member =>
    (List.mem_range'_1.mp (high.mem member)).1
  have below : ∀ i ∈ reserve, i < clamp := by
    intro i member
    have bound := (List.mem_range'_1.mp (low.mem member)).2
    omega
  constructor
  · rw [List.filter_append, List.filter_append,
      List.filter_eq_nil_iff.mpr fun i member => by simpa using above i member,
      List.filter_eq_self.mpr fun i member => by simpa using below i member,
      List.filter_eq_self.mpr fun i member => by simpa using above i member,
      List.filter_eq_nil_iff.mpr fun i member => by simpa using below i member,
      List.nil_append, List.append_nil]
  · have whole : List.range' 0 clamp ++ List.range' clamp (len - clamp) = List.range' 0 len := by
      have joined := @List.range'_append_1 0 clamp (len - clamp)
      rwa [Nat.zero_add, Nat.add_sub_cancel' inside] at joined
    rw [← whole]
    exact low.append high

theorem assignBatch_taken (sound : Sound dm.queue dm.table) (peerId : UInt32) (now : Int)
    (available historyAvailable tipBiasSkip : Nat)
    : Taken dm (dm.assignBatch peerId now available historyAvailable tipBiasSkip).1 := by
  rw [DownloadManager.assignBatch]
  dsimp only
  generalize chosen : (if tipBiasSkip < dm.queue.entries.length then tipBiasSkip
    else dm.queue.entries.length) = clamp
  have inside : clamp ≤ dm.queue.entries.length := by
    split at chosen <;> omega
  obtain ⟨beyond, reserve, split, high, low⟩ :=
    batchScan_picks dm.queue.entries peerId now available historyAvailable clamp
  obtain ⟨order, ascending⟩ := sortedPicks inside high low
  rw [DownloadManager.applyPicks, split]
  split
  · exact .refl sound
  · dsimp only
    rw [order]
    have rising : (reserve ++ beyond).Pairwise (· < ·) :=
      List.Pairwise.sublist ascending List.pairwise_lt_range'
    have within : ∀ i ∈ reserve ++ beyond, i < dm.queue.entries.length := by
      intro i member
      have bound := (List.mem_range'_1.mp (ascending.mem member)).2
      omega
    have parts := SortedArray.removeSorted_perm dm.queue.entries rising within
    have survivors := SortedArray.removeSorted_sublist dm.queue.entries rising
    have picked : dm.queue.entries.Perm
        ((beyond ++ reserve).filterMap (dm.queue.entries[·]?)
          ++ SortedArray.removeSorted dm.queue.entries (reserve ++ beyond)) :=
      parts.trans ((List.perm_append_comm.filterMap _).append_right _)
    have start : Picking dm dm ((beyond ++ reserve).filterMap (dm.queue.entries[·]?)
        ++ SortedArray.removeSorted dm.queue.entries (reserve ++ beyond)) := by
      have holds := sound.holds.qset
      rw [List.append_nil] at holds
      exact ⟨holds.perm (picked.map _), sound.holds.roomy, sound.tracked,
        fun row member => sound.apart row (picked.mem_iff.mpr member),
        fun row member => sound.known row (picked.mem_iff.mpr member), rfl, rfl, id, rfl, rfl, rfl,
        [], List.Perm.refl _⟩
    have done := @Picking.foldl dm peerId now _ _ (fun p member => within p
      (List.perm_append_comm.mem_iff.mp member)) (dm, []) start
    generalize (beyond ++ reserve).foldl (DownloadManager.applyPick peerId now) (dm, []) = acc
      at done
    obtain ⟨applied, hashes⟩ := acc
    dsimp only at done ⊢
    rw [done.entries]
    refine ⟨⟨⟨?_, done.roomy, ?_, ?_, ?_⟩, done.tracked, done.apart, done.known⟩, done.settled,
      done.queueGeneration, done.capacityGeneration, done.peers, survivors.subset, done.added⟩
    · rw [List.append_nil]
      exact done.holds
    · exact sound.holds.sorted.sublist survivors
    · have bounded := sound.holds.bounded
      have shorter := survivors.length_le
      dsimp only
      rw [done.cap]
      omega
    · dsimp only
      rw [done.cap]
      exact sound.holds.capacity

theorem assignToPeer_effect (sound : Sound dm.queue dm.table) (ibd : Bool) (peerId : UInt32)
    (now : Int) (maxAssign : Nat)
    : Effect dm (dm.assignToPeer ibd peerId now maxAssign).1 := by
  rw [DownloadManager.assignToPeer]
  generalize findOrCreatePeer dm.peers peerId = located
  obtain ⟨peers, ps?⟩ := located
  dsimp only
  have same : SameWork dm { dm with peers } := ⟨rfl, rfl, rfl, rfl, rfl, rfl, rfl, rfl⟩
  split
  · exact .of_same sound same
  · refine Effect.after_same same ?_
    rw [DownloadManager.assignUnparked]
    dsimp only
    generalize DownloadManager.assignWindows { dm with peers } ibd _ _ maxAssign = win
    generalize DownloadManager.assignTipBias { dm with peers } _ _ = tipBiasSkip
    have taken : Taken { dm with peers }
        (DownloadManager.assignPicks { dm with peers } peerId now win tipBiasSkip).1 := by
      rw [DownloadManager.assignPicks]
      split
      · exact @assignBatch_taken { dm with peers } sound peerId now _ _ _
      · exact @assignScanLoop_taken { dm with peers } peerId now _ _ _ _ sound _ _
    exact taken.effect.then_same ⟨rfl, rfl, rfl, rfl, rfl, rfl, rfl, rfl⟩

end Z23.Net
