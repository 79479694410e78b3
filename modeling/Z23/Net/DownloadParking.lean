import Z23.Net.DownloadAttempt

/-!
What a parked result is worth. A record parked for the current generation still has the reason it
was parked for, as long as no call changes what the reason rests on without advancing the
generation it waits for. Two calls can: an assignment that parks on avoided forward blocks while
history waits for room, and a delivery that widens the window of a peer parked on it.
-/

namespace Z23.Net

open DownloadManager

-- The reasons of parked records

variable {dm middle after : DownloadManager} {ps ps' : PeerStats}

/-- The peer's window is full, in the IBD state it was parked in. -/
def WindowFull (dm : DownloadManager) (ps : PeerStats) : Prop :=
  ∀ ibd, getMaxInFlightTotal ibd = ps.zeroAssignGlobalLimit →
    assignPeerLimit ibd (some ps) ≤ (dm.assignMeasure ps.peerId).peerCount

/-- Why an attempt of the parked peer would assign nothing. -/
def ParkReason (dm : DownloadManager) (ps : PeerStats) : Prop :=
  match ps.zeroAssignResult with
  | .noQueue => dm.queue.entries = []
  | .peerAvoidCooldown =>
    0 < ps.zeroAssignRetryAfter ∧ ∀ row ∈ dm.queue.entries,
      row.avoidPeer = ps.peerId ∧ ps.zeroAssignRetryAfter ≤ row.avoidUntil
  | .peerWindowFull => WindowFull dm ps
  | .globalWindowFull => ps.zeroAssignGlobalLimit ≤ dm.table.numActive
  | .historyThrottled =>
    dlMaxHistoryInFlight ≤ (dm.assignMeasure ps.peerId).historyGlobalCount
      ∨ dlMaxHistoryPerPeer ≤ (dm.assignMeasure ps.peerId).historyPeerCount
  | _ => True

/-- A record parked for the current generation has its reason, and none is parked for a later
one. -/
structure Justified (dm : DownloadManager) (ps : PeerStats) : Prop where
  past
    : ps.zeroAssignResult ≠ .none →
        ps.zeroAssignGeneration.toNat ≤ (dm.assignDependencyGeneration ps.zeroAssignResult).toNat
  reason
    : ps.zeroAssignGeneration = dm.assignDependencyGeneration ps.zeroAssignResult →
        ParkReason dm ps

theorem Justified.unparked (none : ps.zeroAssignResult = .none) : Justified dm ps where
  past := fun some => absurd none some
  reason := fun _ => by
    rw [ParkReason, none]
    trivial

-- Requests in flight are counted by peer and class

theorem countP_slots (table : SlotTable) (p : InFlight → Bool)
    : (table.slots.countP fun s => s.active && p s) = table.inFlight.countP p := by
  rw [SlotTable.inFlight, List.countP_filter]
  congr 1
  funext s
  exact Bool.and_comm _ _

theorem assignMeasure_mono (peerId : UInt32)
    (more : ∃ added, after.table.inFlight.Perm (added ++ dm.table.inFlight))
    : (dm.assignMeasure peerId).peerCount ≤ (after.assignMeasure peerId).peerCount
        ∧ (dm.assignMeasure peerId).historyPeerCount ≤ (after.assignMeasure peerId).historyPeerCount
        ∧ (dm.assignMeasure peerId).historyGlobalCount
            ≤ (after.assignMeasure peerId).historyGlobalCount := by
  obtain ⟨added, perm⟩ := more
  have grows : ∀ p : InFlight → Bool, (dm.table.slots.countP fun s => s.active && p s)
      ≤ after.table.slots.countP fun s => s.active && p s := by
    intro p
    rw [countP_slots, countP_slots, perm.countP_eq, List.countP_append]
    exact Nat.le_add_left _ _
  refine ⟨grows _, ?_, grows _⟩
  simp only [assignMeasure, Bool.and_assoc]
  exact grows _

theorem numActive_mono (sound : Sound dm.queue dm.table)
    (soundAfter : Sound after.queue after.table)
    (more : ∃ added, after.table.inFlight.Perm (added ++ dm.table.inFlight))
    : dm.table.numActive ≤ after.table.numActive := by
  obtain ⟨added, perm⟩ := more
  have length := perm.length_eq
  rw [List.length_append, SlotTable.inFlight_length, SlotTable.inFlight_length] at length
  rw [sound.tracked.exactly, soundAfter.tracked.exactly]
  omega

-- One call

/-- The same parked result of the same peer. -/
structure SamePark (ps ps' : PeerStats) : Prop where
  peerId : ps'.peerId = ps.peerId
  generation : ps'.zeroAssignGeneration = ps.zeroAssignGeneration
  retryAfter : ps'.zeroAssignRetryAfter = ps.zeroAssignRetryAfter
  globalLimit : ps'.zeroAssignGlobalLimit = ps.zeroAssignGlobalLimit
  result : ps'.zeroAssignResult = ps.zeroAssignResult

theorem generationAdvance_toNat {generation : UInt64} (small : generation.toNat < 2 ^ 64 - 1)
    : (generationAdvance generation).toNat = generation.toNat + 1 := by
  have next : (generation + 1).toNat = generation.toNat + 1 := by
    rw [UInt64.toNat_add]
    exact Nat.mod_eq_of_lt (by simp; omega)
  rw [generationAdvance, if_neg, next]
  intro zero
  rw [zero] at next
  cases next

theorem generation_still {stored old new : UInt64} (small : old.toNat < 2 ^ 64 - 1)
    (past : stored.toNat ≤ old.toNat) {still : Prop}
    (moves : new = generationAdvance old ∨ new = old ∧ still)
    : stored.toNat ≤ new.toNat ∧ (stored = new → stored = old ∧ new = old ∧ still) := by
  rcases moves with rfl | ⟨rfl, holds⟩
  · have next := generationAdvance_toNat small
    refine ⟨by omega, fun current => ?_⟩
    rw [current] at past
    omega
  · exact ⟨past, fun current => ⟨current, rfl, holds⟩⟩

theorem assignDependencyGeneration_eq (dm : DownloadManager) (result : AssignResult)
    : dm.assignDependencyGeneration result
        = if result = .noQueue ∨ result = .peerAvoidCooldown then dm.queueGeneration
          else dm.capacityGeneration := rfl

theorem WindowFull.mono {dm after : DownloadManager}
    (more : ∃ added, after.table.inFlight.Perm (added ++ dm.table.inFlight))
    (full : WindowFull dm ps)
    : WindowFull after ps :=
  fun ibd same => Nat.le_trans (full ibd same) (assignMeasure_mono _ more).1

theorem Justified.carry (effect : Effect dm after) (sound : Sound dm.queue dm.table)
    (queueSmall : dm.queueGeneration.toNat < 2 ^ 64 - 1)
    (capacitySmall : dm.capacityGeneration.toNat < 2 ^ 64 - 1)
    (justified : Justified dm ps) (same : SamePark ps ps')
    (window
      : after.capacityGeneration = dm.capacityGeneration → ps.zeroAssignResult = .peerWindowFull →
          ps.zeroAssignGeneration = dm.capacityGeneration → WindowFull dm ps → WindowFull dm ps')
    : Justified after ps' := by
  by_cases none : ps.zeroAssignResult = .none
  · exact .unparked (same.result.trans none)
  have past := justified.past none
  have reason := justified.reason
  by_cases queued : ps.zeroAssignResult = .noQueue ∨ ps.zeroAssignResult = .peerAvoidCooldown
  · rw [assignDependencyGeneration_eq, if_pos queued] at past reason
    obtain ⟨later, current⟩ := generation_still queueSmall past effect.queueMoves
    refine ⟨fun _ => ?_, fun now => ?_⟩
    · rw [assignDependencyGeneration_eq, same.result, if_pos queued, same.generation]
      exact later
    · rw [assignDependencyGeneration_eq, same.result, if_pos queued, same.generation] at now
      obtain ⟨before, -, fewer⟩ := current now
      have why := reason before
      rw [ParkReason] at why ⊢
      rw [same.result, same.retryAfter, same.peerId]
      rcases queued with isNone | isAvoid
      · rw [isNone] at why ⊢
        exact List.subset_nil.mp (why ▸ fewer)
      · rw [isAvoid] at why ⊢
        exact ⟨why.1, fun row member => why.2 row (fewer member)⟩
  · rw [assignDependencyGeneration_eq, if_neg queued] at past reason
    obtain ⟨later, current⟩ := generation_still capacitySmall past effect.tableMoves
    refine ⟨fun _ => ?_, fun now => ?_⟩
    · rw [assignDependencyGeneration_eq, same.result, if_neg queued, same.generation]
      exact later
    · rw [assignDependencyGeneration_eq, same.result, if_neg queued, same.generation] at now
      obtain ⟨before, still, more⟩ := current now
      have why := reason before
      obtain ⟨-, historyPeer, historyGlobal⟩ := assignMeasure_mono ps.peerId more
      rw [ParkReason] at why ⊢
      rw [same.result, same.globalLimit, same.peerId]
      cases result : ps.zeroAssignResult with
      | peerWindowFull =>
        rw [result] at why
        exact (window still result before why).mono more
      | globalWindowFull =>
        rw [result] at why
        exact Nat.le_trans why (numActive_mono sound effect.sound more)
      | historyThrottled =>
        rw [result] at why
        exact why.imp (fun full => Nat.le_trans full historyGlobal)
          (fun full => Nat.le_trans full historyPeer)
      | noQueue => exact absurd (.inl result) queued
      | peerAvoidCooldown => exact absurd (.inr result) queued
      | none => trivial
      | assigned => trivial
      | maxZero => trivial
      | noSlot => trivial

-- The records of the peers

/-- The same parked result, and the window of the peer is no wider. -/
structure SameWindow (ps ps' : PeerStats) : Prop extends SamePark ps ps' where
  limit : ∀ ibd, assignPeerLimit ibd (some ps') ≤ assignPeerLimit ibd (some ps)

theorem SamePark.refl (ps : PeerStats) : SamePark ps ps := ⟨rfl, rfl, rfl, rfl, rfl⟩

theorem SameWindow.refl (ps : PeerStats) : SameWindow ps ps := ⟨.refl ps, fun _ => Nat.le_refl _⟩

theorem SamePark.trans {first second third : PeerStats} (before : SamePark first second)
    (later : SamePark second third)
    : SamePark first third :=
  ⟨later.peerId.trans before.peerId, later.generation.trans before.generation,
    later.retryAfter.trans before.retryAfter, later.globalLimit.trans before.globalLimit,
    later.result.trans before.result⟩

theorem SameWindow.trans {first second third : PeerStats} (before : SameWindow first second)
    (later : SameWindow second third)
    : SameWindow first third :=
  ⟨before.toSamePark.trans later.toSamePark,
    fun ibd => Nat.le_trans (later.limit ibd) (before.limit ibd)⟩

theorem SameWindow.windowFull (same : SameWindow ps ps') (full : WindowFull dm ps)
    : WindowFull dm ps' := by
  intro ibd limit
  rw [same.peerId]
  rw [same.globalLimit] at limit
  exact Nat.le_trans (same.limit ibd) (full ibd limit)

/-- Every record is not parked or comes from an old one. -/
def Carried (from_ : PeerStats → PeerStats → Prop) (peers peers' : List PeerStats) : Prop :=
  ∀ ps' ∈ peers', ps'.zeroAssignResult = .none ∨ ∃ ps ∈ peers, from_ ps ps'

section Carried

variable {from_ : PeerStats → PeerStats → Prop} {peers peers' : List PeerStats}

theorem Carried.of_eq (refl : ∀ ps, from_ ps ps) (same : peers' = peers)
    : Carried from_ peers peers' := by
  rw [same]
  exact fun ps member => .inr ⟨ps, member, refl ps⟩

theorem Carried.trans {middle : List PeerStats}
    (trans : ∀ {a b c}, from_ a b → from_ b c → from_ a c)
    (none : ∀ {a b}, from_ a b → a.zeroAssignResult = .none → b.zeroAssignResult = .none)
    (first : Carried from_ peers middle) (second : Carried from_ middle peers')
    : Carried from_ peers peers' := by
  intro ps' member
  rcases second ps' member with unparked | ⟨ps, inMiddle, later⟩
  · exact .inl unparked
  · rcases first ps inMiddle with unparked | ⟨old, known, earlier⟩
    · exact .inl (none later unparked)
    · exact .inr ⟨old, known, trans earlier later⟩

theorem mem_modify {i : Nat} {change : PeerStats → PeerStats} {ps : PeerStats}
    (member : ps ∈ peers.modify i change)
    : ps ∈ peers ∨ ∃ old, peers[i]? = some old ∧ ps = change old := by
  obtain ⟨j, read⟩ := List.mem_iff_getElem?.mp member
  rw [List.getElem?_modify] at read
  obtain ⟨old, known, rfl⟩ := Option.map_eq_some_iff.mp read
  by_cases same : i = j
  · rw [if_pos same]
    exact .inr ⟨old, same ▸ known, rfl⟩
  · rw [if_neg same]
    exact .inl (List.mem_of_getElem? known)

theorem Carried.modify (refl : ∀ ps, from_ ps ps) {i : Nat} {change : PeerStats → PeerStats}
    (kept : ∀ ps, peers[i]? = some ps →
      (change ps).zeroAssignResult = .none ∨ from_ ps (change ps))
    : Carried from_ peers (peers.modify i change) := by
  intro ps member
  rcases mem_modify member with old | ⟨old, read, rfl⟩
  · exact .inr ⟨ps, old, refl ps⟩
  · exact (kept old read).imp_right fun same => ⟨old, List.mem_of_getElem? read, same⟩

theorem Carried.findOrCreatePeer (refl : ∀ ps, from_ ps ps) (peers : List PeerStats)
    (peerId : UInt32)
    : Carried from_ peers (findOrCreatePeer peers peerId).1 := by
  rw [Net.findOrCreatePeer]
  split
  · rename_i i found
    refine Carried.modify refl fun ps read => ?_
    split
    · exact .inr (refl ps)
    · exact .inl rfl
  · split
    · intro ps member
      rcases List.mem_or_eq_of_mem_set member with old | rfl
      · exact .inr ⟨ps, old, refl ps⟩
      · exact .inl rfl
    · split
      · exact .of_eq refl rfl
      · intro ps member
        rcases List.mem_append.mp member with old | new
        · exact .inr ⟨ps, old, refl ps⟩
        · rw [List.mem_singleton.mp new]
          exact .inl rfl

end Carried

theorem findOrCreatePeer_peerId {peers : List PeerStats} {peerId : UInt32} {i : Nat}
    {ps : PeerStats} (found : (findOrCreatePeer peers peerId).2 = some i)
    (read : (findOrCreatePeer peers peerId).1[i]? = some ps)
    : ps.peerId = peerId := by
  rw [findOrCreatePeer] at found read
  cases known : findPeer peers peerId with
  | some j =>
    rw [known] at found read
    obtain rfl := Option.some.inj found
    obtain ⟨inside, here, -⟩ := List.findIdx?_eq_some_iff_getElem.mp known
    rw [List.getElem?_modify_eq, List.getElem?_eq_getElem inside] at read
    rw [← Option.some.inj read]
    dsimp only
    split
    · exact of_decide_eq_true here
    · exact of_decide_eq_true here
  | none =>
    rw [known] at found read
    dsimp only at found read
    split at found
    · rename_i j free
      obtain rfl := Option.some.inj found
      obtain ⟨inside, -, -⟩ := List.findIdx?_eq_some_iff_getElem.mp free
      rw [free] at read
      dsimp only at read
      rw [List.getElem?_set_self inside] at read
      rw [← Option.some.inj read]
    · rename_i none
      rw [none] at read
      dsimp only at read
      split at found
      · cases found
      · rename_i room
        obtain rfl := Option.some.inj found
        rw [if_neg room] at read
        dsimp only at read
        rw [List.getElem?_concat_length] at read
        rw [← Option.some.inj read]

/-- What a call does to the records, apart from the two calls that need a condition. -/
def RecordsMove (dm after : DownloadManager) : Prop :=
  Carried SameWindow dm.peers after.peers
    ∨ after.capacityGeneration = generationAdvance dm.capacityGeneration
      ∧ Carried SamePark dm.peers after.peers

/-- All records of the manager are justified. -/
def AllJustified (dm : DownloadManager) : Prop := ∀ ps ∈ dm.peers, Justified dm ps

/-- A call keeps the records justified that come from old ones with no fuller reason to wait, and
those it justifies anew. -/
theorem AllJustified.step (all : AllJustified dm) (effect : Effect dm after)
    (sound : Sound dm.queue dm.table) (queueSmall : dm.queueGeneration.toNat < 2 ^ 64 - 1)
    (capacitySmall : dm.capacityGeneration.toNat < 2 ^ 64 - 1)
    (moves : ∀ ps' ∈ after.peers, Justified after ps' ∨ ∃ ps ∈ dm.peers, SamePark ps ps'
      ∧ (after.capacityGeneration = dm.capacityGeneration →
          ps.zeroAssignResult = .peerWindowFull →
          ps.zeroAssignGeneration = dm.capacityGeneration → WindowFull dm ps → WindowFull dm ps'))
    : AllJustified after := by
  intro ps' member
  rcases moves ps' member with justified | ⟨ps, old, same, window⟩
  · exact justified
  · exact (all ps old).carry effect sound queueSmall capacitySmall same window

theorem AllJustified.carry (all : AllJustified dm) (effect : Effect dm after)
    (sound : Sound dm.queue dm.table) (queueSmall : dm.queueGeneration.toNat < 2 ^ 64 - 1)
    (capacitySmall : dm.capacityGeneration.toNat < 2 ^ 64 - 1) (moves : RecordsMove dm after)
    : AllJustified after := by
  refine all.step effect sound queueSmall capacitySmall fun ps' member => ?_
  rcases moves with carried | ⟨advanced, carried⟩
  · rcases carried ps' member with none | ⟨ps, old, same⟩
    · exact .inl (.unparked none)
    · exact .inr ⟨ps, old, same.toSamePark, fun _ _ _ full => same.windowFull full⟩
  · rcases carried ps' member with none | ⟨ps, old, same⟩
    · exact .inl (.unparked none)
    · refine .inr ⟨ps, old, same, fun still _ _ _ => ?_⟩
      have next := generationAdvance_toNat capacitySmall
      rw [← advanced, still] at next
      omega

theorem modifyPeer_carried {from_ : PeerStats → PeerStats → Prop} (refl : ∀ ps, from_ ps ps)
    {change : PeerStats → PeerStats} (kept : ∀ ps, from_ ps (change ps)) (dm : DownloadManager)
    (peerId : UInt32)
    : Carried from_ dm.peers (dm.modifyPeer peerId change).peers := by
  rw [modifyPeer]
  split
  · exact .of_eq refl rfl
  · exact .modify refl fun ps _ => .inr (kept ps)

theorem modifyOrCreatePeer_carried {change : PeerStats → PeerStats}
    (kept : ∀ ps, SameWindow ps (change ps)) (dm : DownloadManager) (peerId : UInt32)
    : Carried SameWindow dm.peers (dm.modifyOrCreatePeer peerId change).peers := by
  have found := Carried.findOrCreatePeer SameWindow.refl dm.peers peerId
  rw [modifyOrCreatePeer]
  generalize findOrCreatePeer dm.peers peerId = located at found
  obtain ⟨peers, ps?⟩ := located
  cases ps? with
  | none => exact found
  | some i =>
    refine Carried.trans SameWindow.trans (fun same none => same.result.trans none) found ?_
    exact Carried.modify SameWindow.refl fun ps _ => .inr (kept ps)

theorem seed_sameWindow (score : Nat) (ps : PeerStats)
    : SameWindow ps (if ps.bandwidthScore = 0 then { ps with bandwidthScore := score } else ps) := by
  split
  · rename_i unscored
    refine ⟨⟨rfl, rfl, rfl, rfl, rfl⟩, fun ibd => ?_⟩
    rw [assignPeerLimit, assignPeerLimit, unscored]
    dsimp only
    split
    · exact Nat.le_refl _
    · split
      · rw [if_neg (Nat.lt_irrefl 0)]
        exact clamp_le _ _
      · exact Nat.le_refl _
  · exact .refl ps

theorem RecordsMove.of_eq (same : after.peers = dm.peers) : RecordsMove dm after :=
  .inl (.of_eq SameWindow.refl same)

theorem markRequested_records (dm : DownloadManager) (ibd : Bool) (hash : Uint256) (height : Int)
    (peerId : UInt32) (now requestTime : Int)
    : RecordsMove dm (dm.markRequested ibd hash height peerId now requestTime).1 := by
  rw [markRequested]
  split
  · exact .of_eq rfl
  · have same := hashBlocksRequeue_frame dm hash now
    generalize dm.hashBlocksRequeue hash now = checked at same
    obtain ⟨next, blocked⟩ := checked
    cases blocked with
    | true => exact .of_eq same.peers
    | false =>
      dsimp only at same ⊢
      split
      · exact .of_eq same.peers
      · have out := withdrawQueued_frame { next with table := next.table.maybeGrow } hash
        rw [admitRequest]
        generalize withdrawQueued { next with table := next.table.maybeGrow } hash = left at out
        dsimp only
        split
        · exact .of_eq (out.peers.trans same.peers)
        · have kept := modifyOrCreatePeer_carried
            (fun ps => (⟨⟨rfl, rfl, rfl, rfl, rfl⟩, fun _ => Nat.le_refl _⟩ : SameWindow ps
              { ps with blocksRequested := ps.blocksRequested + 1 }))
            { left with table := ‹_›, totalRequested := left.totalRequested + 1 } peerId
          rw [RecordsMove, ← same.peers, ← out.peers]
          exact .inl kept

theorem timeoutSlot_carried (ibd : Bool) (now : Int) (acc : DownloadManager × Nat) (pos : Nat)
    : Carried SameWindow acc.1.peers (timeoutSlot ibd now acc pos).1.peers := by
  rw [timeoutSlot]
  split
  · exact .of_eq SameWindow.refl rfl
  · split
    · exact .of_eq SameWindow.refl rfl
    · split
      · exact .of_eq SameWindow.refl rfl
      · dsimp only [requeueSlot]
        refine modifyPeer_carried SameWindow.refl ?_ acc.1 _
        exact fun ps => ⟨⟨rfl, rfl, rfl, rfl, rfl⟩, fun _ => Nat.le_refl _⟩

theorem disconnectSlot_peers (peerId : UInt32) (avoidUntil : Int) (acc : DownloadManager × Nat)
    (pos : Nat)
    : (disconnectSlot peerId avoidUntil acc pos).1.peers = acc.1.peers := by
  rw [disconnectSlot]
  split
  · rfl
  · split
    · rfl
    · rfl

theorem checkTimeouts_records (dm : DownloadManager) (ibd : Bool) (now : Int)
    : RecordsMove dm (dm.checkTimeouts ibd now).1 := by
  have loop : ∀ (positions : List Nat) (acc : DownloadManager × Nat),
      Carried SameWindow acc.1.peers (positions.foldl (timeoutSlot ibd now) acc).1.peers := by
    intro positions
    induction positions with
    | nil => exact fun acc => .of_eq SameWindow.refl rfl
    | cons pos rest ih =>
      intro acc
      exact Carried.trans SameWindow.trans (fun same none => same.result.trans none)
        (timeoutSlot_carried ibd now acc pos) (ih _)
  have kept := loop (List.range dm.table.slots.length) (dm, 0)
  rw [checkTimeouts]
  dsimp only
  split
  · exact .inl kept
  · exact .inl kept

theorem peerDisconnected_records (dm : DownloadManager) (ibd : Bool) (peerId : UInt32) (now : Int)
    : RecordsMove dm (dm.peerDisconnected ibd peerId now).1 := by
  have loop : ∀ (positions : List Nat) (acc : DownloadManager × Nat),
      (positions.foldl (disconnectSlot peerId (peerAvoidDeadline ibd now)) acc).1.peers
        = acc.1.peers := by
    intro positions
    induction positions with
    | nil => exact fun acc => rfl
    | cons pos rest ih =>
      intro acc
      rw [List.foldl_cons, ih, disconnectSlot_peers]
  have kept := loop (List.range dm.table.slots.length) (dm, 0)
  have left := modifyPeer_carried SameWindow.refl
    (fun ps => (⟨⟨rfl, rfl, rfl, rfl, rfl⟩, fun _ => Nat.le_refl _⟩
      : SameWindow ps { ps with active := false }))
    ((List.range dm.table.slots.length).foldl
      (disconnectSlot peerId (peerAvoidDeadline ibd now)) (dm, 0)).1 peerId
  rw [kept] at left
  rw [peerDisconnected]
  dsimp only
  split
  · exact .inl left
  · exact .inl left

theorem setPeerLoopback_records (dm : DownloadManager) (peerId : UInt32) (isLoopback : Bool)
    : RecordsMove dm (dm.setPeerLoopback peerId isLoopback) := by
  have same := Carried.findOrCreatePeer SameWindow.refl dm.peers peerId
  have parked := Carried.findOrCreatePeer SamePark.refl dm.peers peerId
  rw [setPeerLoopback]
  generalize findOrCreatePeer dm.peers peerId = located at same parked
  obtain ⟨peers, ps?⟩ := located
  cases ps? with
  | none => exact .inl same
  | some i =>
    dsimp only
    split
    · refine .inr ⟨rfl, ?_⟩
      refine Carried.trans SamePark.trans (fun same none => same.result.trans none) parked ?_
      exact Carried.modify SamePark.refl fun ps _ => .inr ⟨rfl, rfl, rfl, rfl, rfl⟩
    · exact .inl same

theorem markReceived_records (dm : DownloadManager) (hash : Uint256)
    (delivered received lastBody : Int)
    : RecordsMove dm (dm.markReceived hash delivered received lastBody).1 := by
  rw [markReceived]
  split
  · exact .of_eq rfl
  · split
    · exact .of_eq rfl
    · split
      · exact .of_eq rfl
      · dsimp only
        refine .inr ⟨(modifyPeer_same _ _ _).capacityGeneration, ?_⟩
        refine modifyPeer_carried SamePark.refl ?_ _ _
        exact fun ps => ⟨rfl, rfl, rfl, rfl, rfl⟩

theorem markNotfound_records (dm : DownloadManager) (ibd : Bool) (peerId : UInt32)
    (hash : Uint256) (now : Int)
    : RecordsMove dm (dm.markNotfound ibd peerId hash now).1 := by
  rw [markNotfound]
  split
  · exact .of_eq rfl
  · split
    · exact .of_eq rfl
    · split
      · exact .of_eq rfl
      · exact .of_eq rfl

end Z23.Net
