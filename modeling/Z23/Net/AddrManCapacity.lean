import Z23.Net.AddrManInvariant

/-!
The ids of the address manager are never handed out again, so that entries can be made only while
fewer than the largest number were ever made, however many of them are still in use.
-/

namespace Z23.Net

open Z23.Lib.Bytes

def AddrManCall.isAddOrGood : AddrManCall → Bool
  | .add _ _ _ _ _ _ => true
  | .good _ _ _ _ => true
  | _ => false

namespace AddrMan

variable {hash256 : List UInt8 → Uint256} {am am' : AddrMan}

-- The id counter

section

variable (am : AddrMan)

theorem swapRandom_idCount (p1 p2 : Nat)
    : (am.swapRandom p1 p2).idCount = am.idCount :=
  (swapRandom_swapped am p1 p2).idCount

theorem clearNew_idCount (bucket pos : Nat) : (am.clearNew bucket pos).idCount = am.idCount := by
  rw [clearNew]
  split
  · rfl
  · split
    · rfl
    · dsimp only
      split
      · exact (deleteEntry_kept _ _).1.idCount
      · rfl

theorem makeTriedRequeueNew_idCount (idEvict bucket pos : Nat)
    : (am.makeTriedRequeueNew idEvict bucket pos).idCount = am.idCount :=
  clearNew_idCount am bucket pos

theorem makeTriedPlaceAltNew_idCount (idEvict bucket pos : Nat)
    : (am.makeTriedPlaceAltNew hash256 idEvict bucket pos).idCount = am.idCount := by
  rw [makeTriedPlaceAltNew]
  split
  · rfl
  · exact makeTriedRequeueNew_idCount am idEvict bucket pos

theorem makeTriedEvictSlot_idCount (now : Int) (kBucket kPos : Nat)
    : (am.makeTriedEvictSlot hash256 now kBucket kPos).idCount = am.idCount := by
  rw [makeTriedEvictSlot]
  split
  · rfl
  · split
    · rfl
    · dsimp only
      split
      · exact makeTriedPlaceAltNew_idCount _ _ _ _
      · exact makeTriedRequeueNew_idCount _ _ _ _

theorem makeTriedLink_idCount (now : Int) (id : Nat)
    : (am.makeTriedLink hash256 now id).idCount = am.idCount :=
  makeTriedEvictSlot_idCount _ _ _ _

theorem makeTried_idCount (now : Int) (id : Nat)
    : (am.makeTried hash256 now id).idCount = am.idCount := by
  have unlinked : (am.makeTriedUnlinkNew hash256 id).idCount = am.idCount := by
    rw [makeTriedUnlinkNew]
    generalize List.range newBucketCount = buckets
    induction buckets generalizing am with
    | nil => rfl
    | cons bucket rest ih =>
      rw [List.foldl_cons, ih]
      dsimp only
      split <;> rfl
  rw [makeTried, makeTriedLink_idCount, unlinked]

end

theorem addInsertAttempts_idCount (clock : Nat → Int) (id nUBucket : Nat) (attempts : List Nat)
    (am : AddrMan)
    : (addInsertAttempts hash256 clock id nUBucket attempts am).1.idCount = am.idCount := by
  induction attempts generalizing am with
  | nil => rfl
  | cons attempt rest ih =>
    have repaired : ∀ now bucket pos,
        (am.addSlotReplaceable now id bucket pos).1.idCount = am.idCount := by
      intro now bucket pos
      rw [addSlotReplaceable]
      split
      · rfl
      · split <;> rfl
    rw [addInsertAttempts]
    dsimp only
    split
    · rfl
    · split
      · exact (clearNew_idCount _ _ _).trans (repaired _ _ _)
      · exact (ih _).trans (repaired _ _ _)

theorem addPlace_idCount (am : AddrMan) (clock : Nat → Int) (id : Nat) (source : NetAddr)
    : (am.addPlace hash256 clock id source).idCount = am.idCount := by
  have placed := @addInsertAttempts_idCount hash256 clock id
    ((am.entry id).getNewBucket hash256 am.nKey source) (List.range newBucketsPerAddress) am
  rw [addPlace, addInsertNewBucket]
  dsimp only
  split
  · exact (deleteEntry_kept _ _).1.idCount.trans placed
  · exact placed

theorem good_idCount (am : AddrMan) (now : Int) (drawn : Nat) (svc : NetService) (nTime : Int)
    : (am.good hash256 now drawn svc nTime).idCount = am.idCount := by
  rw [good]
  dsimp only
  split
  · rfl
  · split
    · rfl
    · split
      · rfl
      · exact makeTried_idCount _ _ _

theorem sampleLoop_idCount (includeTor : Bool) (nNow : Int) (drawn : Nat → Nat)
    (fuel n room : Nat) (am : AddrMan)
    : (sampleLoop includeTor nNow drawn fuel n room am).1.idCount = am.idCount := by
  induction fuel generalizing am n room with
  | zero => rfl
  | succ fuel ih =>
    cases room with
    | zero => rfl
    | succ room =>
      rw [sampleLoop]
      dsimp only
      split
      · exact (ih _ _ _).trans (swapRandom_idCount _ _ _)
      · exact (ih _ _ _).trans (swapRandom_idCount _ _ _)

-- Adds of unknown addresses

/-- The call adds a routable address that is not known. -/
def addsUnknown (am : AddrMan) : AddrManCall → Bool
  | .add _ _ _ addr _ _ => addr.svc.addr.isRoutable && (am.findAddr addr.svc.addr).isNone
  | _ => false

variable (hash256) in
/-- How many calls of a run add a routable address that is not known at the time. -/
def unknownAdds : AddrMan → List AddrManCall → Nat
  | _, [] => 0
  | am, call :: rest => (am.addsUnknown call).toNat + unknownAdds (am.step hash256 call) rest

theorem Stored.createEntry_isSome (stored : am.Stored) (addr : NetAddress) (source : NetAddr)
    : (am.createEntry addr source).isSome = true ↔ am.idCount < addrmanMaxEntries := by
  constructor
  · intro made
    by_contra full
    rw [createEntry_eq_none stored (Nat.not_lt.mp full)] at made
    cases made
  · intro room
    obtain ⟨count, grown, -⟩ := stored.growEntries room
    rw [AddrMan.createEntry]
    dsimp only
    rw [grown]
    rfl

theorem Sound.step_idCount (sound : am.Sound hash256 [] 0) (call : AddrManCall)
    : (am.step hash256 call).idCount
        = min (am.idCount + (am.addsUnknown call).toNat) addrmanMaxEntries := by
  have bounded : am.idCount ≤ addrmanMaxEntries := sound.stored.counted.trans sound.stored.bounded
  have still : ∀ {am' : AddrMan}, am'.idCount = am.idCount →
      am'.idCount = min (am.idCount + 0) addrmanMaxEntries := by
    intro am' same
    omega
  cases call with
  | add now clock drawn addr source timePenalty =>
    rw [AddrMan.step, AddrMan.add, addsUnknown]
    cases routable : addr.svc.addr.isRoutable with
    | false => exact still rfl
    | true =>
      simp only [Bool.not_true, Bool.false_eq_true, if_false, Bool.true_and]
      cases found : am.findAddr addr.svc.addr with
      | some id =>
        dsimp only
        split
        · exact still (addPlace_idCount _ _ _ _)
        · exact still rfl
      | none =>
        dsimp only
        by_cases room : am.idCount < addrmanMaxEntries
        · obtain ⟨am', made, created, -⟩ := sound.stored.createEntry source found room
          rw [made]
          have counted : am'.idCount = min (am.idCount + 1) addrmanMaxEntries := by
            rw [created.idCount]
            omega
          exact (addPlace_idCount _ _ _ _).trans counted
        · rw [createEntry_eq_none sound.stored (Nat.not_lt.mp room)]
          change am.idCount = min (am.idCount + 1) addrmanMaxEntries
          omega
  | good now drawn svc nTime =>
    rw [AddrMan.step]
    exact still (good_idCount am now drawn svc nTime)
  | attempt svc nTime outage =>
    rw [AddrMan.step, AddrMan.attempt]
    split <;> exact still rfl
  | connected svc nTime =>
    rw [AddrMan.step, AddrMan.connected]
    split <;> exact still rfl
  | getAddr nNow drawn maxOut => exact still (sampleLoop_idCount false nNow drawn _ _ _ am)

theorem Sound.run_idCount (sound : am.Sound hash256 [] 0) (calls : List AddrManCall)
    : (am.run hash256 calls).idCount
        = min (am.idCount + unknownAdds hash256 am calls) addrmanMaxEntries := by
  induction calls generalizing am with
  | nil =>
    have bounded : am.idCount ≤ addrmanMaxEntries := sound.stored.counted.trans sound.stored.bounded
    change am.idCount = min (am.idCount + 0) addrmanMaxEntries
    omega
  | cons call rest ih =>
    have later := ih (sound.step call)
    rw [sound.step_idCount call] at later
    rw [unknownAdds]
    change ((am.step hash256 call).run hash256 rest).idCount = _
    omega

/-- Entries can be made as long as fewer than the largest number of unknown addresses were added,
those included that are no longer in use. -/
theorem run_createEntry_iff (hash256 : List UInt8 → Uint256) (nKey : Uint256)
    (calls : List AddrManCall) (addr : NetAddress) (source : NetAddr)
    : (((init nKey).run hash256 calls).createEntry addr source).isSome = true
        ↔ unknownAdds hash256 (init nKey) calls < addrmanMaxEntries := by
  have start : (init nKey).Sound hash256 [] 0 := init_sound nKey
  rw [(run_sound nKey calls).stored.createEntry_isSome, start.run_idCount calls]
  change min (0 + _) _ < _ ↔ _
  omega

-- One source

/-- New slots are taken in some buckets only, services stay and no entry comes into use. -/
structure Reaches (buckets : Nat → Prop) (am am' : AddrMan) : Prop where
  nKey : am'.nKey = am.nKey
  slots
    : ∀ slot id : Nat, am'.vvNew[slot]? = some (some id) →
        am.vvNew[slot]? = some (some id) ∨ buckets (slot / bucketSize)
  entries
    : ∀ id, (am'.entry id).addr.svc = (am.entry id).addr.svc
        ∧ (am'.entry id).inTried = (am.entry id).inTried
        ∧ ((am'.entry id).used = true → (am.entry id).used = true)

section Reaches

variable {buckets : Nat → Prop}

theorem Reaches.refl (am : AddrMan) : Reaches buckets am am :=
  ⟨rfl, fun _ _ read => .inl read, fun _ => ⟨rfl, rfl, fun used => used⟩⟩

theorem Reaches.trans {am'' : AddrMan} (first : Reaches buckets am am')
    (second : Reaches buckets am' am'')
    : Reaches buckets am am'' where
  nKey := second.nKey.trans first.nKey
  slots := fun slot id read => (second.slots slot id read).elim (first.slots slot id) .inr
  entries := by
    intro id
    obtain ⟨svc, inTried, used⟩ := first.entries id
    obtain ⟨svc', inTried', used'⟩ := second.entries id
    exact ⟨svc'.trans svc, inTried'.trans inTried, fun now => used (used' now)⟩

theorem Reaches.modifyEntry (am : AddrMan) (id : Nat) {change : AddrInfo → AddrInfo}
    (svc : ∀ info, (change info).addr.svc = info.addr.svc)
    (inTried : ∀ info, (change info).inTried = info.inTried)
    (used : ∀ info, (change info).used = true → info.used = true)
    : Reaches buckets am (am.modifyEntry id change) := by
  refine ⟨rfl, fun _ _ read => .inl read, ?_⟩
  intro other
  by_cases inside : id < am.entries.length
  · rw [entry_modifyEntry inside]
    split
    · rename_i same
      subst same
      exact ⟨svc _, inTried _, used _⟩
    · exact ⟨rfl, rfl, fun now => now⟩
  · have same : (am.modifyEntry id change).entry other = am.entry other := by
      rw [AddrMan.modifyEntry, List.modify_eq_self (Nat.not_lt.mp inside)]
    rw [same]
    exact ⟨rfl, rfl, fun now => now⟩

theorem Reaches.freeSlot (am : AddrMan) (bucket pos : Nat)
    : Reaches buckets am (am.setNewSlot bucket pos none) := by
  refine ⟨rfl, ?_, fun _ => ⟨rfl, rfl, fun used => used⟩⟩
  intro slot id read
  change (am.vvNew.set _ none)[slot]? = _ at read
  rw [List.getElem?_set] at read
  split at read
  · split at read <;> cases read
  · exact .inl read

theorem Reaches.takeSlot (am : AddrMan) {bucket pos : Nat} (posInside : pos < bucketSize)
    (allowed : buckets bucket) (id : Nat)
    : Reaches buckets am (am.setNewSlot bucket pos (some id)) := by
  refine ⟨rfl, ?_, fun _ => ⟨rfl, rfl, fun used => used⟩⟩
  intro slot other read
  change (am.vvNew.set _ (some id))[slot]? = _ at read
  rw [List.getElem?_set] at read
  split at read
  · rename_i same
    rw [← same, slotIndex_div posInside]
    exact .inr allowed
  · exact .inl read

theorem Reaches.occupy (am : AddrMan) {bucket pos : Nat} (posInside : pos < bucketSize)
    (allowed : buckets bucket) (id : Nat)
    : Reaches buckets am (am.occupy id bucket pos) := by
  have raised : Reaches buckets am (am.modifyEntry id fun info =>
      { info with refCount := info.refCount + 1 }) :=
    Reaches.modifyEntry am id (fun _ => rfl) (fun _ => rfl) fun _ used => used
  exact raised.trans (Reaches.takeSlot _ posInside allowed id)

theorem Reaches.deleteEntry (am : AddrMan) (id : Nat)
    : Reaches buckets am (am.deleteEntry id) := by
  rw [deleteEntry_eq]
  have swapped := swapRandom_swapped am (am.entry id).randomPos (am.randomOrder.length - 1)
  generalize am.swapRandom (am.entry id).randomPos (am.randomOrder.length - 1) = am' at swapped
  have moved : Reaches buckets am am' :=
    ⟨swapped.nKey, fun slot id read => .inl (swapped.vvNew ▸ read), fun other =>
      ⟨(swapped.entries other).svc, (swapped.entries other).inTried,
        fun used => (swapped.entries other).used ▸ used⟩⟩
  have trimmed : Reaches buckets am' { am' with
      idx := am'.idx.remove addrIndexHash (am'.entry id).addr.svc.addr
      randomOrder := am'.randomOrder.dropLast } :=
    ⟨rfl, fun _ _ read => .inl read, fun _ => ⟨rfl, rfl, fun used => used⟩⟩
  refine moved.trans (trimmed.trans ?_)
  have retired : Reaches buckets
      ({ am' with
          idx := am'.idx.remove addrIndexHash (am'.entry id).addr.svc.addr
          randomOrder := am'.randomOrder.dropLast } : AddrMan)
      (({ am' with
          idx := am'.idx.remove addrIndexHash (am'.entry id).addr.svc.addr
          randomOrder := am'.randomOrder.dropLast } : AddrMan).modifyEntry id
        fun info => { info with used := false }) :=
    Reaches.modifyEntry _ _ (fun _ => rfl) (fun _ => rfl) fun _ none => nomatch none
  exact ⟨retired.nKey, retired.slots, retired.entries⟩

theorem Reaches.clearNew (am : AddrMan) (bucket pos : Nat)
    : Reaches buckets am (am.clearNew bucket pos) := by
  rw [AddrMan.clearNew]
  split
  · exact Reaches.refl am
  · rename_i occupant _
    split
    · exact Reaches.freeSlot am bucket pos
    · have lowered : Reaches buckets am (am.modifyEntry occupant fun info =>
          { info with refCount := info.refCount - 1 }) :=
        Reaches.modifyEntry am occupant (fun _ => rfl) (fun _ => rfl) fun _ used => used
      have freed := lowered.trans (Reaches.freeSlot _ bucket pos)
      dsimp only
      split
      · exact freed.trans (Reaches.deleteEntry _ occupant)
      · exact freed

theorem Reaches.addInsertAttempts (clock : Nat → Int) (id nUBucket : Nat) (attempts : List Nat)
    (am : AddrMan) (allowed : ∀ attempt ∈ attempts, buckets (altBucket nUBucket attempt))
    : Reaches buckets am
        (AddrMan.addInsertAttempts hash256 clock id nUBucket attempts am).1 := by
  induction attempts generalizing am with
  | nil => exact Reaches.refl am
  | cons attempt rest ih =>
    have repaired : ∀ now bucket pos,
        Reaches buckets am (am.addSlotReplaceable now id bucket pos).1 := by
      intro now bucket pos
      rw [addSlotReplaceable]
      split
      · exact Reaches.refl am
      · split
        · exact Reaches.freeSlot am bucket pos
        · exact Reaches.refl am
    rw [AddrMan.addInsertAttempts]
    dsimp only
    split
    · exact Reaches.refl am
    · split
      · have cleared := (repaired (clock attempt) (altBucket nUBucket attempt)
          (am.newPos hash256 id (altBucket nUBucket attempt))).trans
          (Reaches.clearNew _ (altBucket nUBucket attempt)
            (am.newPos hash256 id (altBucket nUBucket attempt)))
        exact cleared.trans (Reaches.occupy _ (newPos_lt _ _ _ _)
          (allowed attempt List.mem_cons_self) id)
      · exact (repaired _ _ _).trans
          (ih _ (List.forall_mem_cons.mp allowed).2)

theorem Reaches.addPlace (am : AddrMan) (clock : Nat → Int) (id : Nat) (source : NetAddr)
    (allowed : ∀ attempt < newBucketsPerAddress,
      buckets (altBucket ((am.entry id).getNewBucket hash256 am.nKey source) attempt))
    : Reaches buckets am (am.addPlace hash256 clock id source) := by
  have placed := @Reaches.addInsertAttempts hash256 buckets clock id
    ((am.entry id).getNewBucket hash256 am.nKey source) (List.range newBucketsPerAddress) am
    fun attempt member => allowed attempt (List.mem_range.mp member)
  rw [AddrMan.addPlace, addInsertNewBucket]
  dsimp only
  split
  · exact placed.trans (Reaches.deleteEntry _ _)
  · exact placed

end Reaches

-- Onion services from one source

def onionKey (i : Nat) : Uint256 := Uint256.ofNatLE i

/-- An onion service with the other fields of a fresh address. -/
def onionAddress (i : Nat) : NetAddress := ⟨⟨.ofOnion (onionKey i), 8033⟩, 1, 100000000⟩

/-- One source adds that many onion services. -/
def onionAdds (count : Nat) : List AddrManCall :=
  (List.range count).map fun i => .add 0 (fun _ => 0) 0 (onionAddress i) .zero 0

theorem onionAdds_isAddOrGood {count : Nat} {call : AddrManCall} (member : call ∈ onionAdds count)
    : call.isAddOrGood = true := by
  obtain ⟨i, -, rfl⟩ := List.mem_map.mp member
  rfl

theorem onionAddress_injective {i j : Nat} (iFits : i < 256 ^ 32) (jFits : j < 256 ^ 32)
    (same : (onionAddress i).svc.addr = (onionAddress j).svc.addr)
    : i = j := by
  have keys : onionKey i = onionKey j := Option.some.inj (congrArg NetAddr.torv3 same)
  have bytes : bytesLE 32 i = bytesLE 32 j := congrArg Uint256.data keys
  rw [← natLE_bytesLE iFits, bytes, natLE_bytesLE jFits]

/-- The bucket where the attempts for onion services of one source start. -/
def onionBucket (hash256 : List UInt8 → Uint256) (nKey : Uint256) : Nat :=
  (freshEntry (onionAddress 0) .zero 0).getNewBucket hash256 nKey .zero

theorem getNewBucket_onion {info : AddrInfo} {i : Nat}
    (onion : info.addr.svc.addr = (onionAddress i).svc.addr) (nKey : Uint256)
    : info.getNewBucket hash256 nKey .zero = onionBucket hash256 nKey := by
  have group : ∀ j, (onionAddress j).svc.addr.getGroup = [NetAddr.netOnion, 0x0f] :=
    fun j => NetAddr.ofOnion_getGroup (onionKey j)
  rw [onionBucket, AddrInfo.getNewBucket, AddrInfo.getNewBucket, onion, group]
  rfl

/-- The state after `count` onion services from one source. -/
structure Flooded (hash256 : List UInt8 → Uint256) (nKey : Uint256) (am : AddrMan) (count : Nat)
    : Prop where
  sound : am.Sound hash256 [] 0
  idCount : am.idCount = count
  sameKey : am.nKey = nKey
  slots
    : ∀ slot id : Nat, am.vvNew[slot]? = some (some id) →
        ∃ attempt < newBucketsPerAddress,
          slot / bucketSize = altBucket (onionBucket hash256 nKey) attempt
  known
    : ∀ id, am.Live id → (am.entry id).inTried = false
        ∧ ∃ i < count, (am.entry id).addr.svc.addr = (onionAddress i).svc.addr

theorem Flooded.unknown {nKey : Uint256} {count : Nat} (flooded : Flooded hash256 nKey am count)
    (fits : count < 256 ^ 32)
    : am.findAddr (onionAddress count).svc.addr = none := by
  rw [flooded.sound.stored.findAddr_eq_none]
  intro id live same
  obtain ⟨-, i, below, onion⟩ := flooded.known id live
  have equal := onionAddress_injective (Nat.lt_trans below fits) fits (onion.symm.trans same)
  omega

theorem Flooded.step {nKey : Uint256} {count : Nat} (flooded : Flooded hash256 nKey am count)
    (room : count < addrmanMaxEntries)
    : Flooded hash256 nKey
        (am.step hash256 (.add 0 (fun _ => 0) 0 (onionAddress count) .zero 0)) (count + 1) := by
  have sound := flooded.sound
  have fits : count < 256 ^ 32 := Nat.lt_of_lt_of_le room (by norm_num [addrmanMaxEntries,
    newBucketCount, bucketSize])
  have unknown := flooded.unknown fits
  have routable : (onionAddress count).svc.addr.isRoutable = true :=
    NetAddr.ofOnion_isRoutable (onionKey count)
  obtain ⟨am', made, created, stored⟩ := sound.stored.createEntry .zero unknown
    (flooded.idCount.symm ▸ room)
  have outcome : am.step hash256 (.add 0 (fun _ => 0) 0 (onionAddress count) .zero 0)
      = ({ am'.modifyEntry am.idCount fun info =>
            { info with addr.nTime := penalizedTime info.addr.nTime 0 } with
          newCount := am'.newCount + 1 } : AddrMan).addPlace hash256 (fun _ => 0) am.idCount
            .zero := by
    rw [AddrMan.step, AddrMan.add, routable, unknown]
    simp only [Bool.not_true, Bool.false_eq_true, if_false]
    rw [made]
    rfl
  have timed : Reaches (fun bucket => ∃ attempt < newBucketsPerAddress,
      bucket = altBucket (onionBucket hash256 nKey) attempt) am'
      ({ am'.modifyEntry am.idCount fun info =>
            { info with addr.nTime := penalizedTime info.addr.nTime 0 } with
          newCount := am'.newCount + 1 } : AddrMan) := by
    have touched : Reaches (fun bucket => ∃ attempt < newBucketsPerAddress,
        bucket = altBucket (onionBucket hash256 nKey) attempt) am'
        (am'.modifyEntry am.idCount fun info =>
          { info with addr.nTime := penalizedTime info.addr.nTime 0 }) :=
      Reaches.modifyEntry am' am.idCount (fun _ => rfl) (fun _ => rfl) fun _ used => used
    exact ⟨touched.nKey, touched.slots, touched.entries⟩
  have sameKey : am'.nKey = nKey := created.nKey.trans flooded.sameKey
  have self : (am'.entry am.idCount).addr.svc = (onionAddress count).svc := by
    rw [created.entries, if_pos rfl]
    rfl
  have reaches : Reaches (fun bucket => ∃ attempt < newBucketsPerAddress,
      bucket = altBucket (onionBucket hash256 nKey) attempt) am'
      (am.step hash256 (.add 0 (fun _ => 0) 0 (onionAddress count) .zero 0)) := by
    rw [outcome]
    refine timed.trans (Reaches.addPlace _ _ _ _ fun attempt below => ⟨attempt, below, ?_⟩)
    have onion := congrArg NetService.addr ((timed.entries am.idCount).1.trans self)
    rw [getNewBucket_onion onion, timed.nKey, sameKey]
  constructor
  · exact sound.step _
  · rw [sound.step_idCount, flooded.idCount, addsUnknown, routable, unknown]
    change min (count + 1) addrmanMaxEntries = count + 1
    omega
  · exact reaches.nKey.trans sameKey
  · intro slot id read
    rcases reaches.slots slot id read with before | allowed
    · exact flooded.slots slot id (created.vvNew ▸ before)
    · exact allowed
  · intro id live
    obtain ⟨svc, mark, used⟩ := reaches.entries id
    have was := used live.2
    rw [svc, mark]
    by_cases same : id = am.idCount
    · subst same
      refine ⟨?_, count, Nat.lt_succ_self _, congrArg NetService.addr self⟩
      rw [created.entries, if_pos rfl]
      rfl
    · rw [created.entries, if_neg same] at was ⊢
      obtain ⟨new, i, below, onion⟩ := flooded.known id (sound.stored.live_iff.mpr was)
      exact ⟨new, i, Nat.lt_succ_of_lt below, onion⟩

theorem onionAdds_flooded (nKey : Uint256) {count : Nat} (room : count ≤ addrmanMaxEntries)
    : Flooded hash256 nKey ((init nKey).run hash256 (onionAdds count)) count := by
  induction count with
  | zero =>
    refine ⟨init_sound nKey, rfl, rfl, ?_, fun id live => absurd live.1 (Nat.not_lt_zero _)⟩
    intro slot id read
    cases List.eq_of_mem_replicate (List.mem_of_getElem? read)
  | succ count ih =>
    have before := ih (Nat.le_of_succ_le room)
    have unfolded : (init nKey).run hash256 (onionAdds (count + 1))
        = ((init nKey).run hash256 (onionAdds count)).step hash256
          (.add 0 (fun _ => 0) 0 (onionAddress count) .zero 0) := by
      rw [onionAdds, List.range_succ, List.map_append, run, List.foldl_append]
      rfl
    rw [unfolded]
    exact before.step room

theorem Flooded.usedIds_length {nKey : Uint256} {count : Nat}
    (flooded : Flooded hash256 nKey am count)
    : am.usedIds.length ≤ newBucketsPerAddress * bucketSize := by
  have placed : ∀ id, am.Live id → ∃ slot : Nat, am.vvNew[slot]? = some (some id) := by
    intro id live
    exact List.mem_iff_getElem?.mp
      ((flooded.sound.mem_vvNew live).mpr (flooded.known id live).1)
  choose! place here using placed
  have inReach : (am.usedIds.map place).Nodup := by
    refine List.Nodup.map_on ?_ am.nodup_usedIds
    intro id member id' member' same
    have first := here id (mem_usedIds.mp member)
    have second := here id' (mem_usedIds.mp member')
    rw [same, second] at first
    exact (Option.some.inj (Option.some.inj first)).symm
  have within : am.usedIds.map place ⊆ (List.range newBucketsPerAddress).flatMap fun attempt =>
      (List.range bucketSize).map (slotIndex (altBucket (onionBucket hash256 nKey) attempt)) := by
    intro slot member
    obtain ⟨id, used, rfl⟩ := List.mem_map.mp member
    obtain ⟨attempt, below, bucket⟩ := flooded.slots _ id (here id (mem_usedIds.mp used))
    refine List.mem_flatMap.mpr ⟨attempt, List.mem_range.mpr below, List.mem_map.mpr ?_⟩
    refine ⟨place id % bucketSize, List.mem_range.mpr (Nat.mod_lt _ (by decide)), ?_⟩
    rw [← bucket, slotIndex_div_mod]
  have fewer := (List.subperm_of_subset inReach within).length_le
  simpa [List.length_flatMap] using fewer

/-- Whatever the hash and the key, adds of one source use all ids up while few entries are in
use. -/
theorem run_createEntry_exhausted
    : ¬ ∃ (hash256 : List UInt8 → Uint256) (nKey : Uint256),
        ∀ (calls : List AddrManCall) (addr : NetAddress) (source : NetAddr),
          (∀ call ∈ calls, call.isAddOrGood = true) →
          ((init nKey).run hash256 calls).findAddr addr.svc.addr = none →
          ((init nKey).run hash256 calls).usedIds.length < addrmanMaxEntries →
          (((init nKey).run hash256 calls).createEntry addr source).isSome = true := by
  intro ⟨hash256, nKey, claim⟩
  have flooded := @onionAdds_flooded hash256 nKey addrmanMaxEntries (Nat.le_refl _)
  have few : ((init nKey).run hash256 (onionAdds addrmanMaxEntries)).usedIds.length
      < addrmanMaxEntries :=
    Nat.lt_of_le_of_lt flooded.usedIds_length (by decide)
  have made := claim (onionAdds addrmanMaxEntries) (onionAddress addrmanMaxEntries) .zero
    (fun _ member => onionAdds_isAddOrGood member)
    (flooded.unknown (by norm_num [addrmanMaxEntries, newBucketCount, bucketSize])) few
  have full := flooded.sound.stored.createEntry_isSome (onionAddress addrmanMaxEntries) .zero
  rw [flooded.idCount] at full
  exact Nat.lt_irrefl _ (full.mp made)

end AddrMan

end Z23.Net
