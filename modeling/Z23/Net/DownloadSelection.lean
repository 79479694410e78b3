import Z23.Net.DownloadGreedy

/-!
What the batch and the loop hand out in every state that any sequence of calls can reach. All it
takes of the state is that the counter of the table bounds its active slots, so that every pick
finds one.
-/

namespace Z23.Net

open DownloadManager

-- The counter bounds the active slots after any calls

variable {dm : DownloadManager}

theorem assignEntry_counted (counted : dm.table.Counted) (row : QueueEntry) (peerId : UInt32)
    (now : Int)
    : ∃ next, dm.assignEntry row peerId now = some next ∧ next.table.Counted
        ∧ next.queue = dm.queue := by
  obtain ⟨grown, -, idle, -⟩ := counted.maybeGrow
  obtain ⟨table, done, after, -⟩ := grown.activate idle (row.request peerId now)
  exact ⟨{ dm with table, totalRequested := dm.totalRequested + 1 },
    by rw [assignEntry, done, Option.map_some], after, rfl⟩

theorem requeueSlot_counted (counted : dm.table.Counted) {pos : Nat} {s : InFlight}
    (read : dm.table.slots[pos]? = some s) (active : s.active = true) (avoidUntil : Int)
    : (dm.requeueSlot pos s avoidUntil).table.Counted :=
  counted.settle read active s

theorem active_of_own {s : InFlight} {peerId : UInt32}
    (own : ¬ (!s.active || s.peerId != peerId) = true)
    : s.active = true := by
  cases active : s.active with
  | false => simp [active] at own
  | true => rfl

theorem timeoutSlot_counted (ibd : Bool) (now : Int) {acc : DownloadManager × Nat}
    (counted : acc.1.table.Counted) (pos : Nat)
    : (timeoutSlot ibd now acc pos).1.table.Counted := by
  rw [timeoutSlot]
  split
  · exact counted
  · rename_i s read
    cases active : s.active with
    | false => exact counted
    | true =>
      rw [if_neg (by simp)]
      split
      · exact counted
      · have same := modifyPeer_same acc.1 s.peerId
          fun ps => { ps with blocksTimedOut := ps.blocksTimedOut + 1 }
        dsimp only
        exact requeueSlot_counted (by rw [same.table]; exact counted)
          (by rw [same.table]; exact read) active _

theorem disconnectSlot_counted (peerId : UInt32) (avoidUntil : Int) {acc : DownloadManager × Nat}
    (counted : acc.1.table.Counted) (pos : Nat)
    : (disconnectSlot peerId avoidUntil acc pos).1.table.Counted := by
  rw [disconnectSlot]
  split
  · exact counted
  · rename_i s read
    split
    · exact counted
    · rename_i own
      exact requeueSlot_counted counted read (active_of_own own) avoidUntil

theorem foldl_counted {α β : Type} {turn : DownloadManager × β → α → DownloadManager × β}
    (keeps : ∀ acc a, acc.1.table.Counted → (turn acc a).1.table.Counted) (turns : List α)
    {acc : DownloadManager × β} (counted : acc.1.table.Counted)
    : (turns.foldl turn acc).1.table.Counted := by
  induction turns generalizing acc with
  | nil => exact counted
  | cons a rest ih => exact ih (keeps acc a counted)

theorem applyPick_counted (peerId : UInt32) (now : Int) {acc : DownloadManager × List Uint256}
    (counted : acc.1.table.Counted) (p : Nat)
    : (applyPick peerId now acc p).1.table.Counted := by
  rw [applyPick]
  split
  · exact counted
  · rename_i row read
    obtain ⟨next, done, after, -⟩ := @assignEntry_counted
      { acc.1 with queue := { acc.1.queue with qset := acc.1.queue.qset.remove row.hash } }
      counted row peerId now
    dsimp only
    rw [done]
    exact after

theorem applyPicks_counted (counted : dm.table.Counted) (peerId : UInt32) (now : Int)
    (picks : List Nat) (clamp : Nat)
    : (dm.applyPicks peerId now picks clamp).1.table.Counted := by
  rw [applyPicks]
  split
  · exact counted
  · exact @foldl_counted _ _ (applyPick peerId now)
      (fun acc p before => applyPick_counted peerId now before p) picks (dm, []) counted

theorem assignScanLoop_counted (peerId : UInt32) (now : Int)
    (available historyAvailable tipBiasSkip fuel : Nat) (counted : dm.table.Counted)
    (o : AssignOutcome) (historyAssigned : Nat)
    : (assignScanLoop peerId now available historyAvailable tipBiasSkip fuel dm o
        historyAssigned).1.table.Counted := by
  induction fuel generalizing dm o historyAssigned with
  | zero => exact counted
  | succ fuel ih =>
    rw [assignScanLoop]
    split
    · generalize scanPick dm.queue.entries peerId now tipBiasSkip o.avoidance = picked
      obtain ⟨pick, a⟩ := picked
      dsimp only
      split
      · exact counted
      · rename_i row read
        split
        · exact counted
        · obtain ⟨next, done, after, -⟩ := @assignEntry_counted
            { dm with queue := dm.queue.withdraw row.hash pick } counted row peerId now
          rw [done]
          exact ih after _ _
    · exact counted

theorem assignPicks_counted (counted : dm.table.Counted) (peerId : UInt32) (now : Int)
    (win : AssignWindows) (tipBiasSkip : Nat)
    : (dm.assignPicks peerId now win tipBiasSkip).1.table.Counted := by
  rw [assignPicks]
  split
  · exact applyPicks_counted counted peerId now _ _
  · exact assignScanLoop_counted peerId now _ _ _ _ counted _ _

theorem assignToPeer_counted (counted : dm.table.Counted) (ibd : Bool) (peerId : UInt32)
    (now : Int) (maxAssign : Nat)
    : (dm.assignToPeer ibd peerId now maxAssign).1.table.Counted := by
  rw [assignToPeer]
  generalize findOrCreatePeer dm.peers peerId = located
  obtain ⟨peers, ps?⟩ := located
  dsimp only
  split
  · exact counted
  · rw [assignUnparked]
    exact @assignPicks_counted { dm with peers } counted _ _ _ _

/-- Only the queue and the counter of refusals differ. -/
structure SameTable (dm after : DownloadManager) : Prop where
  table : after.table = dm.table
  peers : after.peers = dm.peers

theorem withdrawQueued_frame (dm : DownloadManager) (hash : Uint256)
    : SameTable dm (dm.withdrawQueued hash) := by
  rw [withdrawQueued]
  split
  · split
    · exact ⟨rfl, rfl⟩
    · exact ⟨rfl, rfl⟩
  · exact ⟨rfl, rfl⟩

theorem hashBlocksRequeue_frame (dm : DownloadManager) (hash : Uint256) (now : Int)
    : SameTable dm (dm.hashBlocksRequeue hash now).1 := by
  rw [hashBlocksRequeue]
  split
  · exact ⟨rfl, rfl⟩
  · rw [slotBlocksRequeue]
    split
    · exact ⟨rfl, rfl⟩
    · split
      · exact ⟨rfl, rfl⟩
      · exact ⟨rfl, rfl⟩

theorem markRequested_counted (counted : dm.table.Counted) (ibd : Bool) (hash : Uint256)
    (height : Int) (peerId : UInt32) (now requestTime : Int)
    : (dm.markRequested ibd hash height peerId now requestTime).1.table.Counted := by
  rw [markRequested]
  split
  · exact counted
  · have same := hashBlocksRequeue_same dm hash now
    generalize dm.hashBlocksRequeue hash now = checked at same
    obtain ⟨next, blocked⟩ := checked
    dsimp only at same
    rw [← same.table] at counted
    cases blocked with
    | true => exact counted
    | false =>
      dsimp only
      split
      · exact counted
      · obtain ⟨grown, -, idle, -⟩ := counted.maybeGrow
        rw [admitRequest]
        dsimp only
        rw [(withdrawQueued_frame _ _).table]
        obtain ⟨table, done, after, -⟩ := grown.activate idle
          { hash, height, peerId, requestTime, receivedTime := 0, workClass := .forward
            active := true }
        rw [done]
        dsimp only
        rw [(modifyOrCreatePeer_same _ _ _).table]
        exact after

theorem stageOne_frame (workClass : WorkClass) (nowQ : Int) (st : Staging)
    (block : Uint256 × Option Int)
    : SameTable st.dm (stageOne workClass nowQ st block).dm := by
  have same := hashBlocksRequeue_frame st.dm block.1 nowQ
  rw [stageOne]
  generalize st.dm.hashBlocksRequeue block.1 nowQ = checked at same
  obtain ⟨next, blocked⟩ := checked
  cases blocked with
  | true => exact same
  | false =>
    dsimp only
    split
    · split
      · exact ⟨same.table, same.peers⟩
      · exact same
    · exact ⟨same.table, same.peers⟩

theorem advanceQueueIf_frame (dm : DownloadManager) (changed : Bool)
    : SameTable dm (dm.advanceQueueIf changed) := by
  rw [advanceQueueIf]
  split
  · exact ⟨rfl, rfl⟩
  · exact ⟨rfl, rfl⟩

theorem SameTable.trans {middle after : DownloadManager} (first : SameTable dm middle)
    (second : SameTable middle after)
    : SameTable dm after :=
  ⟨second.table.trans first.table, second.peers.trans first.peers⟩

theorem queueBlocksClass_frame (qsort : Qsort) (dm : DownloadManager)
    (blocks : List (Uint256 × Option Int)) (workClass : WorkClass) (nowQ : Int)
    : SameTable dm (dm.queueBlocksClass qsort blocks workClass nowQ).1 := by
  have staged : SameTable dm (dm.stageIncoming blocks workClass nowQ).dm := by
    rw [stageIncoming]
    generalize start : (⟨{ dm with queue :=
      { dm.queue with qset := dm.queue.qset.reserveN dm.queue.keys blocks.length } }, [], false⟩
      : Staging) = st
    have same : SameTable dm st.dm := by
      rw [← start]
      exact ⟨rfl, rfl⟩
    clear start
    induction blocks generalizing st with
    | nil => exact same
    | cons block rest ih => exact ih _ (same.trans (stageOne_frame workClass nowQ st block))
  rw [queueBlocksClass]
  split
  · exact ⟨rfl, rfl⟩
  · dsimp only
    split
    · exact staged.trans (advanceQueueIf_frame _ _)
    · refine SameTable.trans ?_ (advanceQueueIf_frame _ _)
      exact ⟨staged.table, staged.peers⟩

theorem queuePriority_frame (dm : DownloadManager) (hash : Uint256) (height now nowAvoid : Int)
    : SameTable dm (dm.queuePriority hash height now nowAvoid) := by
  have same := hashBlocksRequeue_frame dm hash now
  rw [queuePriority]
  generalize dm.hashBlocksRequeue hash now = checked at same
  obtain ⟨next, blocked⟩ := checked
  cases blocked with
  | true => exact same
  | false =>
    dsimp only at same ⊢
    generalize (if next.queue.qset.contains hash then
      next.queue.entries.find? fun row => row.hash = hash else none) = row?
    split
    · exact same
    · have out := same.trans (withdrawQueued_frame next hash)
      refine SameTable.trans ?_ (advanceQueueIf_frame _ _)
      exact ⟨out.table, out.peers⟩

theorem step_counted (qsort : Qsort) (counted : dm.table.Counted) (call : Call)
    : (dm.step qsort call).table.Counted := by
  cases call with
  | queueBlocksClass blocks workClass nowQ =>
    rw [step, (queueBlocksClass_frame _ _ _ _ _).table]
    exact counted
  | queuePriority hash height now nowAvoid =>
    rw [step, (queuePriority_frame _ _ _ _ _).table]
    exact counted
  | markRequested ibd hash height peerId now requestTime =>
    exact markRequested_counted counted ibd hash height peerId now requestTime
  | assignToPeer ibd peerId now maxAssign =>
    exact assignToPeer_counted counted ibd peerId now maxAssign
  | markReceived hash delivered received lastBody =>
    rw [step, markReceived]
    split
    · exact counted
    · split
      · exact counted
      · rename_i s read
        cases active : s.active with
        | false => exact counted
        | true =>
          dsimp only
          rw [if_neg (by simp), (modifyPeer_same _ _ _).table]
          exact counted.settle read active _
  | markNotfound ibd peerId hash now =>
    rw [step, markNotfound]
    split
    · exact counted
    · split
      · exact counted
      · rename_i s read
        split
        · exact counted
        · rename_i own
          exact requeueSlot_counted counted read (active_of_own own) (peerAvoidDeadline ibd now)
  | checkTimeouts ibd now =>
    rw [step, checkTimeouts]
    dsimp only
    have looped := @foldl_counted _ _ (timeoutSlot ibd now)
      (fun acc pos before => timeoutSlot_counted ibd now before pos)
      (List.range dm.table.slots.length) (dm, 0) counted
    split
    · exact looped.maybeGrow.1
    · exact looped.maybeGrow.1
  | peerDisconnected ibd peerId now =>
    rw [step, peerDisconnected]
    dsimp only
    have looped := @foldl_counted _ _ (disconnectSlot peerId (peerAvoidDeadline ibd now))
      (fun acc pos before => disconnectSlot_counted peerId _ before pos)
      (List.range dm.table.slots.length) (dm, 0) counted
    split
    · rw [advanceBoth, (modifyPeer_same _ _ _).table]
      exact looped
    · rw [(modifyPeer_same _ _ _).table]
      exact looped
  | drainForBackpressure now =>
    obtain ⟨bits, power⟩ := counted.power
    refine ⟨⟨bits, ?_⟩, ?_, Nat.zero_le _⟩
    · rw [← power]
      exact List.length_map _
    · refine Nat.le_of_eq (List.countP_eq_zero.mpr ?_)
      intro s member
      obtain ⟨old, -, rfl⟩ := List.mem_map.mp member
      exact Bool.false_ne_true
  | seedBandwidthScore peerId score =>
    rw [step, seedBandwidthScore]
    split
    · exact counted
    · rw [(modifyOrCreatePeer_same _ _ _).table]
      exact counted
  | peerBlockReceived peerId deliveryUs now =>
    rw [step, peerBlockReceived, (modifyPeer_same _ _ _).table]
    exact counted
  | setPeerLoopback peerId isLoopback =>
    rw [step, setPeerLoopback]
    split
    · exact counted
    · split
      · exact counted
      · exact counted

theorem run_counted (qsort : Qsort) (calls : List Call) : (run qsort calls).table.Counted := by
  have fold : ∀ dm : DownloadManager, dm.table.Counted →
      (calls.foldl (step qsort) dm).table.Counted := by
    induction calls with
    | nil => exact fun dm counted => counted
    | cons call rest ih => exact fun dm counted => ih _ (step_counted qsort counted call)
  exact fold init SlotTable.init_counted

-- What the two algorithms hand out

variable {peerId : UInt32} {now : Int}

theorem foldl_applyPick_hashes (picks : List Nat) {acc : DownloadManager × List Uint256}
    (counted : acc.1.table.Counted)
    : (picks.foldl (applyPick peerId now) acc).2
        = acc.2 ++ (picks.filterMap (acc.1.queue.entries[·]?)).map QueueEntry.hash := by
  induction picks generalizing acc with
  | nil => simp
  | cons p rest ih =>
    have after := applyPick_counted peerId now counted p
    rw [List.foldl_cons, ih after, List.filterMap_cons, applyPick]
    cases read : acc.1.queue.entries[p]? with
    | none => rfl
    | some row =>
      obtain ⟨next, done, -, same⟩ := @assignEntry_counted
        { acc.1 with queue := { acc.1.queue with qset := acc.1.queue.qset.remove row.hash } }
        counted row peerId now
      dsimp only
      rw [done]
      dsimp only
      rw [same, List.append_assoc, List.map_cons]
      rfl

theorem assignBatch_hashes (counted : dm.table.Counted)
    (available historyAvailable tipBiasSkip : Nat) (inside : tipBiasSkip ≤ dm.queue.entries.length)
    : (dm.assignBatch peerId now available historyAvailable tipBiasSkip).2.hashes
        = (greedy peerId now available historyAvailable
            (scanOrder tipBiasSkip dm.queue.entries)).map QueueEntry.hash := by
  have clamp : (if tipBiasSkip < dm.queue.entries.length then tipBiasSkip
      else dm.queue.entries.length) = tipBiasSkip := by
    split <;> omega
  rw [assignBatch]
  dsimp only
  rw [clamp, ← batchScan_rows _ _ _ inside, applyPicks]
  generalize (batchScan dm.queue.entries peerId now available historyAvailable tipBiasSkip).picks
    = picks
  cases picks with
  | nil => rfl
  | cons p rest =>
    have hashes := @foldl_applyPick_hashes peerId now (p :: rest) (dm, []) counted
    rw [List.nil_append] at hashes
    exact hashes

theorem assignScanLoop_hashes (available historyAvailable tipBiasSkip fuel : Nat)
    (counted : dm.table.Counted) (forward : ∀ row ∈ dm.queue.entries, row.isHistory = false)
    (o : AssignOutcome) (historyAssigned : Nat)
    : (assignScanLoop peerId now available historyAvailable tipBiasSkip fuel dm o
        historyAssigned).2.hashes
        = o.hashes ++ (loopRows peerId now tipBiasSkip fuel (available - o.hashes.length)
            dm.queue.entries).map QueueEntry.hash := by
  induction fuel generalizing dm o historyAssigned with
  | zero => simp [assignScanLoop, loopRows]
  | succ fuel ih =>
    rw [assignScanLoop, loopRows]
    have same := @scanPick_fst peerId now dm.queue.entries tipBiasSkip
    by_cases going : o.hashes.length < available ∧ dm.queue.entries.length > 0
    · rw [if_pos going, if_neg (by omega)]
      have pick := (same o.avoidance).trans (same {}).symm
      generalize scanPick dm.queue.entries peerId now tipBiasSkip o.avoidance = picked at pick
      obtain ⟨p, a⟩ := picked
      dsimp only at pick ⊢
      rw [← pick]
      cases read : dm.queue.entries[p]? with
      | none => simp
      | some row =>
        have member := List.mem_of_getElem? read
        obtain ⟨next, done, after, queue⟩ := @assignEntry_counted
          { dm with queue := dm.queue.withdraw row.hash p } counted row peerId now
        have entries : next.queue.entries = dm.queue.entries.eraseIdx p := by
          rw [queue]
          rfl
        have later : ∀ other ∈ next.queue.entries, other.isHistory = false := by
          intro other left
          rw [entries] at left
          exact forward other (List.mem_of_mem_eraseIdx left)
        dsimp only
        rw [if_neg (by simp [forward row member]), done]
        dsimp only
        rw [ih after later, entries, List.append_assoc, List.map_cons, List.length_append,
          Nat.sub_add_eq]
        rfl
    · rw [if_neg going]
      split
      · simp
      · have empty : dm.queue.entries = [] := List.length_eq_zero_iff.mp (by omega)
        simp [empty]

end Z23.Net
