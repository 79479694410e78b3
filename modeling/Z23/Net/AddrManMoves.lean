import Z23.Net.AddrManStore

/-!
Insertions, evictions and promotions of the address manager: each brings the tables, the order and
the index to agree with the entries again.
-/

namespace Z23.Net

namespace AddrMan

variable {hash256 : List UInt8 → Uint256} {am am' : AddrMan} {id : Nat} {held held' : List Nat}
  {shift : Int}

-- Sound states

/-- The entries agree with everything that refers to them, up to the held ones. -/
structure Sound (hash256 : List UInt8 → Uint256) (am : AddrMan) (held : List Nat) (shift : Int)
    : Prop where
  stored : am.Stored
  tabled : am.Tabled hash256 held shift

theorem Sound.mono (sound : am.Sound hash256 held shift) (wider : ∀ id ∈ held, id ∈ held')
    : am.Sound hash256 held' shift :=
  ⟨sound.stored, sound.tabled.mono wider⟩

theorem Sound.settle (sound : am.Sound hash256 (id :: held) shift)
    (placed : am.Live id → (am.entry id).inTried = false → 0 < (am.entry id).refCount)
    : am.Sound hash256 held shift := by
  refine ⟨sound.stored, { sound.tabled with linked := fun other => ?_ }⟩
  have linked := sound.tabled.linked other
  by_cases same : other = id
  · subst same
    exact { linked with placed := fun live new _ => placed live new }
  · exact linked.mono fun member => (List.mem_cons.mp member).resolve_left same

theorem refCount_pos (linked : am.Linked hash256 held id) (live : am.Live id)
    (nonzero : (am.entry id).refCount ≠ 0)
    : 0 < (am.entry id).refCount := by
  have refs := linked.newRefs live
  omega

/-- A change that neither the tables nor the order nor the index read. -/
theorem Sound.touch (sound : am.Sound hash256 held shift) (inside : id < am.entries.length)
    {change : AddrInfo → AddrInfo} (info : SameInfo (am.entry id) (change (am.entry id)))
    (place : SamePlace (am.entry id) (change (am.entry id)))
    : (am.modifyEntry id change).Sound hash256 held shift := by
  constructor
  · refine sound.stored.congr ?_ rfl (modifyEntry_length _ _ _) rfl rfl
    intro other
    rw [entry_modifyEntry inside]
    split
    · rename_i same
      exact same ▸ place
    · exact SamePlace.refl _
  · refine sound.tabled.congr ?_ rfl rfl (modifyEntry_length _ _ _).ge rfl rfl rfl rfl
    intro other
    rw [entry_modifyEntry inside]
    split
    · rename_i same
      exact same ▸ info
    · exact SameInfo.refl _

theorem Sound.addNewCount (sound : am.Sound hash256 held shift) (amount : Int)
    : { am with newCount := am.newCount + amount }.Sound hash256 held (shift + amount) :=
  ⟨sound.stored.congr (fun _ => SamePlace.refl _) rfl rfl rfl rfl,
    sound.tabled.addNewCount amount⟩

theorem Stored.modifyTables (stored : am.Stored) (inside : id < am.entries.length)
    {change : AddrInfo → AddrInfo} (place : SamePlace (am.entry id) (change (am.entry id)))
    {vvNew vvTried : List (Option Nat)} {triedCount newCount : Int}
    : { am.modifyEntry id change with vvNew, vvTried, triedCount, newCount }.Stored := by
  refine stored.congr ?_ rfl (modifyEntry_length am id change) rfl rfl
  intro other
  change SamePlace _ ((am.modifyEntry id change).entry other)
  rw [entry_modifyEntry inside]
  split
  · rename_i same
    exact same ▸ place
  · exact SamePlace.refl _

theorem Sound.release (sound : am.Sound hash256 held shift) {bucket pos : Nat}
    (read : am.newSlot bucket pos = some id)
    : (am.release id bucket pos).Sound hash256 (id :: held) shift := by
  have live := ((sound.tabled.linked id).newSlots _ (newSlot_eq_some.mp read)).1
  exact ⟨sound.stored.modifyTables (sound.stored.live_lt live) ⟨rfl, rfl, rfl⟩,
    sound.tabled.release read⟩

theorem Sound.occupy (sound : am.Sound hash256 (id :: held) shift) {bucket pos : Nat}
    (bucketInside : bucket < newBucketCount) (position : pos = am.newPos hash256 id bucket)
    (free : am.newSlot bucket pos = none) (live : am.Live id)
    (new : (am.entry id).inTried = false) (room : (am.entry id).refCount < newBucketsPerAddress)
    : (am.occupy id bucket pos).Sound hash256 held shift :=
  ⟨sound.stored.modifyTables (sound.stored.live_lt live) ⟨rfl, rfl, rfl⟩,
    sound.tabled.occupy bucketInside position free live new room⟩

theorem Sound.demote (sound : am.Sound hash256 held shift) {bucket pos : Nat}
    (read : am.triedSlot bucket pos = some id)
    : (am.demote id bucket pos).Sound hash256 (id :: held) (shift - 1) := by
  have member := List.mem_of_getElem? (triedSlot_eq_some.mp read)
  have live := (sound.tabled.linked id).triedSlots member
  exact ⟨sound.stored.modifyTables (sound.stored.live_lt live) ⟨rfl, rfl, rfl⟩,
    sound.tabled.demote read⟩

theorem Sound.promote (sound : am.Sound hash256 (id :: held) shift) {bucket pos : Nat}
    (read : am.vvTried[slotIndex bucket pos]? = some none) (live : am.Live id)
    (new : (am.entry id).inTried = false) (none : (am.entry id).refCount = 0)
    : (am.promote id bucket pos).Sound hash256 held (shift + 1) :=
  ⟨sound.stored.modifyTables (sound.stored.live_lt live) ⟨rfl, rfl, rfl⟩,
    sound.tabled.promote read live new none⟩

-- Deleting and clearing

/-- What a change to the new table leaves as it is. -/
structure Kept (am am' : AddrMan) : Prop where
  nKey : am'.nKey = am.nKey
  idCount : am'.idCount = am.idCount
  capacity : am'.entries.length = am.entries.length
  vvTried : am'.vvTried = am.vvTried

theorem Kept.refl (am : AddrMan) : Kept am am := ⟨rfl, rfl, rfl, rfl⟩

theorem Kept.trans {am'' : AddrMan} (first : Kept am am') (second : Kept am' am'')
    : Kept am am'' where
  nKey := second.nKey.trans first.nKey
  idCount := second.idCount.trans first.idCount
  capacity := second.capacity.trans first.capacity
  vvTried := second.vvTried.trans first.vvTried

theorem Kept.live (kept : Kept am am') (same : SameInfo (am.entry id) (am'.entry id))
    (live : am.Live id)
    : am'.Live id :=
  ⟨kept.idCount ▸ live.1, same.used.trans live.2⟩

theorem deleteEntry_kept (am : AddrMan) (id : Nat)
    : Kept am (am.deleteEntry id) ∧ (am.deleteEntry id).vvNew = am.vvNew := by
  rw [deleteEntry_eq]
  have swapped := swapRandom_swapped am (am.entry id).randomPos (am.randomOrder.length - 1)
  refine ⟨⟨swapped.nKey, swapped.idCount, ?_, swapped.vvTried⟩, swapped.vvNew⟩
  exact (modifyEntry_length _ _ _).trans swapped.capacity

theorem deleteEntry_entry (inside : id < am.entries.length) {other : Nat} (differs : other ≠ id)
    : SameInfo (am.entry other) ((am.deleteEntry id).entry other) := by
  rw [deleteEntry_eq]
  have swapped := swapRandom_swapped am (am.entry id).randomPos (am.randomOrder.length - 1)
  have same := swapped.entries other
  generalize am.swapRandom (am.entry id).randomPos (am.randomOrder.length - 1) = am' at *
  have kept : (am'.dropLastEntry id).entry other = am'.entry other := by
    refine (@entry_modifyEntry { am' with
      idx := am'.idx.remove addrIndexHash (am'.entry id).addr.svc.addr
      randomOrder := am'.randomOrder.dropLast } id ?_ _ other).trans (if_neg differs)
    exact swapped.capacity.symm ▸ inside
  rw [kept]
  exact same

theorem Sound.deleteEntry (sound : am.Sound hash256 (id :: held) shift) (live : am.Live id)
    (new : (am.entry id).inTried = false) (none : (am.entry id).refCount = 0)
    : (am.deleteEntry id).Sound hash256 held shift := by
  refine ⟨sound.stored.deleteEntry live, ?_⟩
  rw [deleteEntry_eq]
  have swapped := swapRandom_swapped am (am.entry id).randomPos (am.randomOrder.length - 1)
  generalize am.swapRandom (am.entry id).randomPos (am.randomOrder.length - 1) = am' at swapped
  have tabled : ({ am' with
      idx := am'.idx.remove addrIndexHash (am'.entry id).addr.svc.addr
      randomOrder := am'.randomOrder.dropLast } : AddrMan).Tabled hash256 (id :: held) shift :=
    sound.tabled.congr swapped.entries swapped.nKey swapped.idCount swapped.capacity.ge
      swapped.vvNew swapped.vvTried swapped.newCount swapped.triedCount
  refine tabled.retire ⟨?_, ?_⟩ ?_ ?_
  · exact swapped.idCount.symm ▸ live.1
  · exact (swapped.entries id).used.trans live.2
  · exact (swapped.entries id).inTried.trans new
  · exact (swapped.entries id).refCount.trans none

theorem newSlot_release (am : AddrMan) (id bucket pos : Nat)
    : (am.release id bucket pos).newSlot bucket pos = none := by
  simp only [newSlot, AddrMan.release, setNewSlot, List.getD_eq_getElem?_getD,
    List.getElem?_set_self']
  cases (am.modifyEntry id _).vvNew[slotIndex bucket pos]? <;> rfl

/-- What clearing a slot of the new table does to the entries that do not stand in it. -/
structure Cleared (hash256 : List UInt8 → Uint256) (am am' : AddrMan) (held : List Nat)
    (shift : Int) (bucket pos : Nat) : Prop where
  sound : am'.Sound hash256 held shift
  kept : Kept am am'
  others
    : ∀ other, am.newSlot bucket pos ≠ some other → SameInfo (am.entry other) (am'.entry other)
  free : am'.newSlot bucket pos = none

theorem Sound.clearNew (sound : am.Sound hash256 held shift) (bucket pos : Nat)
    : Cleared hash256 am (am.clearNew bucket pos) held shift bucket pos := by
  rw [AddrMan.clearNew]
  cases read : am.newSlot bucket pos with
  | none => exact ⟨sound, Kept.refl am, fun _ _ => SameInfo.refl _, read⟩
  | some occupant =>
    have linked := sound.tabled.linked occupant
    have here := newSlot_eq_some.mp read
    have live := (linked.newSlots _ here).1
    have inside := sound.stored.live_lt live
    have released := sound.release read
    have self := entry_release inside bucket pos occupant
    rw [if_pos rfl] at self
    have alive : (am.release occupant bucket pos).Live occupant := by
      rw [Live, self]
      exact live
    have others : ∀ other, some occupant ≠ some other →
        (am.release occupant bucket pos).entry other = am.entry other := by
      intro other differs
      rw [entry_release inside, if_neg fun same => differs (congrArg some same.symm)]
    have kept : Kept am (am.release occupant bucket pos) :=
      ⟨rfl, rfl, modifyEntry_length _ _ _, rfl⟩
    dsimp only
    rw [if_neg (Nat.not_le.mpr inside)]
    change Cleared hash256 am
      (if ((am.release occupant bucket pos).entry occupant).refCount = 0
        then (am.release occupant bucket pos).deleteEntry occupant
        else am.release occupant bucket pos) held shift bucket pos
    split
    · rename_i none
      have new : ((am.release occupant bucket pos).entry occupant).inTried = false := by
        rw [self]
        exact linked.isNew here
      obtain ⟨keptToo, sameSlots⟩ := deleteEntry_kept (am.release occupant bucket pos) occupant
      constructor
      · exact released.deleteEntry alive new none
      · exact kept.trans keptToo
      · intro other differs
        have moved := deleteEntry_entry (released.stored.live_lt alive)
          fun same : other = occupant => (read ▸ differs) (congrArg some same.symm)
        rwa [others other (read ▸ differs)] at moved
      · rw [newSlot, sameSlots]
        exact newSlot_release am occupant bucket pos
    · rename_i nonzero
      constructor
      · exact released.settle fun _ _ => refCount_pos (released.tabled.linked _) alive nonzero
      · exact kept
      · intro other differs
        rw [others other (read ▸ differs)]
        exact SameInfo.refl _
      · exact newSlot_release am occupant bucket pos

-- Adding

theorem altBucket_lt (bucket attempt : Nat) : altBucket bucket attempt < newBucketCount :=
  Nat.mod_lt _ (by decide)

theorem SameInfo.newPos (same : SameInfo (am.entry id) (am'.entry id)) (kept : Kept am am')
    (bucket : Nat)
    : am'.newPos hash256 id bucket = am.newPos hash256 id bucket :=
  newPos_congr same kept.nKey bucket

theorem Sound.addSlotReplaceable_fst (sound : am.Sound hash256 held shift) (now : Int)
    (id bucket pos : Nat)
    : (am.addSlotReplaceable now id bucket pos).1 = am := by
  rw [addSlotReplaceable]
  cases read : am.newSlot bucket pos with
  | none => rfl
  | some occupant =>
    have live := ((sound.tabled.linked occupant).newSlots _ (newSlot_eq_some.mp read)).1
    dsimp only
    rw [if_neg (Nat.not_le.mpr (sound.stored.live_lt live))]

theorem Sound.addInsertAttempts (sound : am.Sound hash256 (id :: held) shift) (live : am.Live id)
    (new : (am.entry id).inTried = false) (room : (am.entry id).refCount < newBucketsPerAddress)
    (clock : Nat → Int) (nUBucket : Nat) (attempts : List Nat)
    : let result := AddrMan.addInsertAttempts hash256 clock id nUBucket attempts am
      (result.2 = true → result.1.Sound hash256 held shift) ∧ (result.2 = false → result.1 = am) := by
  induction attempts with
  | nil => exact ⟨fun placed => Bool.noConfusion placed, fun _ => rfl⟩
  | cons attempt rest ih =>
    rw [AddrMan.addInsertAttempts]
    dsimp only
    split
    · rename_i already
      refine ⟨fun _ => ?_, fun missed => Bool.noConfusion missed⟩
      refine sound.settle fun alive _ => refCount_pos (sound.tabled.linked id) alive ?_
      intro none
      exact not_mem_vvNew (sound.tabled.linked id) alive none
        (List.mem_of_getElem? (newSlot_eq_some.mp already))
    · rename_i elsewhere
      rw [sound.addSlotReplaceable_fst]
      split
      · have cleared := sound.clearNew (altBucket nUBucket attempt)
          (am.newPos hash256 id (altBucket nUBucket attempt))
        have same := cleared.others id elsewhere
        refine ⟨fun _ => ?_, fun missed => Bool.noConfusion missed⟩
        refine cleared.sound.occupy (altBucket_lt _ _) (same.newPos cleared.kept _).symm
          cleared.free (cleared.kept.live same live) (same.inTried.trans new) ?_
        exact same.refCount.symm ▸ room
      · exact ih

theorem Sound.addPlace (sound : am.Sound hash256 (id :: held) shift) (live : am.Live id)
    (new : (am.entry id).inTried = false) (room : (am.entry id).refCount < newBucketsPerAddress)
    (clock : Nat → Int) (source : NetAddr)
    : (am.addPlace hash256 clock id source).Sound hash256 held shift := by
  have outcome := sound.addInsertAttempts live new room clock
    ((am.entry id).getNewBucket hash256 am.nKey source) (List.range newBucketsPerAddress)
  rw [AddrMan.addPlace, addInsertNewBucket]
  generalize AddrMan.addInsertAttempts hash256 clock id _ _ am = result at outcome ⊢
  obtain ⟨am', inserted⟩ := result
  cases inserted with
  | true =>
    dsimp only
    rw [if_neg (by simp)]
    exact outcome.1 rfl
  | false =>
    have unchanged : am' = am := outcome.2 rfl
    subst unchanged
    dsimp only
    split
    · rename_i unplaced
      exact sound.deleteEntry live new (by simpa using unplaced)
    · rename_i referenced
      exact sound.settle fun alive _ =>
        refCount_pos (sound.tabled.linked id) alive (by simpa using referenced)

theorem addRefreshTime_same (info : AddrInfo) (addr : NetAddress) (timePenalty now : Int)
    : SameInfo info (addRefreshTime info addr timePenalty now)
        ∧ SamePlace info (addRefreshTime info addr timePenalty now) :=
  ⟨⟨rfl, rfl, rfl, rfl⟩, ⟨rfl, rfl, rfl⟩⟩

theorem addExistingWantsRef_spec {info : AddrInfo} {addr : NetAddress} {drawn : Nat}
    (wants : addExistingWantsRef info addr drawn = true)
    : info.inTried = false ∧ info.refCount ≠ newBucketsPerAddress := by
  rw [addExistingWantsRef] at wants
  split at wants
  · cases wants
  · split at wants
    · cases wants
    · rename_i new
      split at wants
      · cases wants
      · rename_i room
        exact ⟨Bool.not_eq_true _ ▸ new, room⟩

theorem Sound.add (sound : am.Sound hash256 [] 0) (now : Int) (clock : Nat → Int) (drawn : Nat)
    (addr : NetAddress) (source : NetAddr) (timePenalty : Int)
    : (am.add hash256 now clock drawn addr source timePenalty).1.Sound hash256 [] 0 := by
  rw [AddrMan.add]
  split
  · exact sound
  · cases found : am.findAddr addr.svc.addr with
    | some id =>
      obtain ⟨live, -⟩ := sound.stored.findAddr_eq_some.mp found
      have inside := sound.stored.live_lt live
      have same := addRefreshTime_same (am.entry id) addr timePenalty now
      have refreshed : (am.modifyEntry id fun info =>
          addRefreshTime info addr timePenalty now).Sound hash256 [] 0 :=
        sound.touch inside same.1 same.2
      have self := entry_modifyEntry_self inside
        fun info => addRefreshTime info addr timePenalty now
      have alive : (am.modifyEntry id fun info =>
          addRefreshTime info addr timePenalty now).Live id := by
        rw [Live, self]
        exact live
      dsimp only
      split
      · rename_i wants
        obtain ⟨new, room⟩ := addExistingWantsRef_spec wants
        have few := (refreshed.tabled.linked id).few alive
        have widened : (am.modifyEntry id fun info =>
            addRefreshTime info addr timePenalty now).Sound hash256 [id] 0 :=
          refreshed.mono (List.nil_subset [id])
        exact widened.addPlace alive new (by omega) clock source
      · exact refreshed
    | none =>
      dsimp only
      by_cases room : am.idCount < addrmanMaxEntries
      · obtain ⟨am', made, created, stored⟩ := sound.stored.createEntry source found room
        rw [made]
        have sound' : am'.Sound hash256 [am.idCount] (0 - 1) :=
          ⟨stored, sound.tabled.created created⟩
        have inside := stored.live_lt created.live_self
        have timed : (am'.modifyEntry am.idCount fun info =>
            { info with addr.nTime := penalizedTime info.addr.nTime timePenalty }).Sound hash256
            [am.idCount] (0 - 1) :=
          sound'.touch inside ⟨rfl, rfl, rfl, rfl⟩ ⟨rfl, rfl, rfl⟩
        have self := entry_modifyEntry_self inside fun info =>
          { info with addr.nTime := penalizedTime info.addr.nTime timePenalty }
        rw [created.entries, if_pos rfl] at self
        have alive : (am'.modifyEntry am.idCount fun info =>
            { info with addr.nTime := penalizedTime info.addr.nTime timePenalty }).Live
            am.idCount := by
          rw [Live, self]
          exact ⟨created.live_self.1, rfl⟩
        refine (timed.addNewCount 1).addPlace alive ?_ ?_ clock source
        · exact congrArg AddrInfo.inTried self
        · refine (congrArg AddrInfo.refCount self).trans_lt ?_
          exact Int.natCast_pos.mpr (by decide)
      · rw [createEntry_eq_none sound.stored (Nat.not_lt.mp room)]
        exact sound

-- Moving to the tried table

/-- The entry on its way to the tried table, and what its unlinking leaves of its slots. -/
structure Unlinked (hash256 : List UInt8 → Uint256) (am am' : AddrMan) (id : Nat)
    (held : List Nat) (shift : Int) (buckets : List Nat) : Prop where
  sound : am'.Sound hash256 (id :: held) shift
  live : am'.Live id
  new : (am'.entry id).inTried = false
  left
    : ∀ slot : Nat, am'.vvNew[slot]? = some (some id) →
        am.vvNew[slot]? = some (some id) ∧ slot / bucketSize ∉ buckets

theorem Sound.unlinkBuckets (sound : am.Sound hash256 (id :: held) shift) (live : am.Live id)
    (new : (am.entry id).inTried = false) (buckets : List Nat)
    : Unlinked hash256 am
        (buckets.foldl
          (fun am bucket =>
            let pos := am.newPos hash256 id bucket
            if am.newSlot bucket pos = some id then
              (am.setNewSlot bucket pos none).modifyEntry id
                fun info => { info with refCount := info.refCount - 1 }
            else am)
          am)
        id held shift buckets := by
  induction buckets generalizing am with
  | nil => exact ⟨sound, live, new, fun slot read => ⟨read, List.not_mem_nil⟩⟩
  | cons bucket rest ih =>
    rw [List.foldl_cons]
    dsimp only
    split
    · rename_i read
      have inside := sound.stored.live_lt live
      have self := entry_release inside bucket (am.newPos hash256 id bucket) id
      rw [if_pos rfl] at self
      have released : (am.release id bucket (am.newPos hash256 id bucket)).Sound hash256
          (id :: held) shift :=
        (sound.release read).mono fun other member =>
          (List.mem_cons.mp member).elim (fun same => same ▸ List.mem_cons_self) fun known => known
      have later := ih released (by rw [Live, self]; exact live) (by rw [self]; exact new)
      refine ⟨later.sound, later.live, later.new, ?_⟩
      intro slot found
      obtain ⟨before, unvisited⟩ := later.left slot found
      change (am.vvNew.set _ none)[slot]? = _ at before
      rw [List.getElem?_set] at before
      split at before
      · split at before <;> cases before
      · rename_i elsewhere
        refine ⟨before, ?_⟩
        intro visited
        rcases List.mem_cons.mp visited with same | inRest
        · have position := ((sound.tabled.linked id).newSlots slot before).2
          rw [same] at position
          apply elsewhere
          rw [← position, ← same, slotIndex_div_mod]
        · exact unvisited inRest
    · rename_i absent
      have later := ih sound live new
      refine ⟨later.sound, later.live, later.new, ?_⟩
      intro slot found
      obtain ⟨before, unvisited⟩ := later.left slot found
      refine ⟨before, ?_⟩
      intro visited
      rcases List.mem_cons.mp visited with same | inRest
      · have position := ((sound.tabled.linked id).newSlots slot before).2
        apply absent
        rw [newSlot_eq_some, ← same, ← position, slotIndex_div_mod]
        exact before
      · exact unvisited inRest

theorem Sound.makeTriedUnlinkNew (sound : am.Sound hash256 (id :: held) shift) (live : am.Live id)
    (new : (am.entry id).inTried = false)
    : (am.makeTriedUnlinkNew hash256 id).Sound hash256 (id :: held) shift
        ∧ (am.makeTriedUnlinkNew hash256 id).Live id
        ∧ ((am.makeTriedUnlinkNew hash256 id).entry id).inTried = false
        ∧ ((am.makeTriedUnlinkNew hash256 id).entry id).refCount = 0 := by
  have unlinked := sound.unlinkBuckets live new (List.range newBucketCount)
  refine ⟨unlinked.sound, unlinked.live, unlinked.new, ?_⟩
  have refs := (unlinked.sound.tabled.linked id).newRefs unlinked.live
  have absent : some id ∉ (am.makeTriedUnlinkNew hash256 id).vvNew := by
    intro member
    obtain ⟨slot, here⟩ := List.mem_iff_getElem?.mp member
    obtain ⟨before, unvisited⟩ := unlinked.left slot here
    obtain ⟨within, -⟩ := List.getElem?_eq_some_iff.mp before
    rw [sound.tabled.newSize] at within
    apply unvisited
    rw [List.mem_range]
    exact (Nat.div_lt_iff_lt_mul (by decide)).mpr within
  exact refs.trans (congrArg _ (List.count_eq_zero_of_not_mem absent))

theorem modifyEntry_congr {change change' : AddrInfo → AddrInfo}
    (same : change (am.entry id) = change' (am.entry id))
    : am.modifyEntry id change = am.modifyEntry id change' := by
  simp only [modifyEntry, AddrMan.mk.injEq, and_true, true_and]
  apply List.ext_getElem?
  intro place
  rw [List.getElem?_modify, List.getElem?_modify]
  by_cases here : id = place
  · subst here
    rw [entry, List.getD_eq_getElem?_getD] at same
    cases read : am.entries[id]? with
    | none => rfl
    | some info =>
      rw [read] at same
      simpa using same
  · simp [here]

theorem placeEvicted_eq (none : (am.entry id).refCount = 0) (bucket pos : Nat)
    : am.placeEvicted id bucket pos
        = { am.occupy id bucket pos with newCount := am.newCount + 1 } := by
  have counts : (am.modifyEntry id fun info => { info with refCount := 1 })
      = am.modifyEntry id fun info => { info with refCount := info.refCount + 1 } := by
    apply modifyEntry_congr
    rw [none]
    rfl
  rw [placeEvicted, counts]
  rfl

/-- An evicted entry, held and without slots. -/
structure Evicted (hash256 : List UInt8 → Uint256) (am : AddrMan) (id : Nat) (held : List Nat)
    (shift : Int) : Prop where
  sound : am.Sound hash256 (id :: held) (shift - 1)
  live : am.Live id
  new : (am.entry id).inTried = false
  unreferenced : (am.entry id).refCount = 0

/-- What placing an evicted entry leaves of the others. -/
structure Placed (hash256 : List UInt8 → Uint256) (am am' : AddrMan) (id : Nat) (held : List Nat)
    (shift : Int) : Prop where
  sound : am'.Sound hash256 held shift
  kept : Kept am am'
  others
    : ∀ other, other ≠ id → some other ∉ am.vvNew → SameInfo (am.entry other) (am'.entry other)

section

variable (evicted : Evicted hash256 am id held shift)
include evicted

theorem Evicted.placeEvicted {bucket : Nat} (bucketInside : bucket < newBucketCount)
    (free : am.newSlot bucket (am.newPos hash256 id bucket) = none)
    : Placed hash256 am (am.placeEvicted id bucket (am.newPos hash256 id bucket)) id held
        shift := by
  have inside := evicted.sound.stored.live_lt evicted.live
  have room : (am.entry id).refCount < newBucketsPerAddress := by
    rw [evicted.unreferenced]
    exact Int.natCast_pos.mpr (by decide)
  rw [placeEvicted_eq evicted.unreferenced]
  refine ⟨?_, ⟨rfl, rfl, modifyEntry_length _ _ _, rfl⟩, ?_⟩
  · have occupied := evicted.sound.occupy bucketInside rfl free evicted.live evicted.new room
    have counted := occupied.addNewCount 1
    rwa [Int.sub_add_cancel] at counted
  · intro other differs _
    have kept := entry_occupy inside bucket (am.newPos hash256 id bucket) other
    rw [if_neg differs] at kept
    change SameInfo _ ((am.occupy id bucket (am.newPos hash256 id bucket)).entry other)
    rw [kept]
    exact SameInfo.refl _

theorem Evicted.makeTriedRequeueNew {bucket : Nat} (bucketInside : bucket < newBucketCount)
    : Placed hash256 am
        (am.makeTriedRequeueNew id bucket (am.newPos hash256 id bucket)) id held shift := by
  have cleared := evicted.sound.clearNew bucket (am.newPos hash256 id bucket)
  have absent := not_mem_vvNew (evicted.sound.tabled.linked id) evicted.live evicted.unreferenced
  have outside : ∀ other, some other ∉ am.vvNew →
      am.newSlot bucket (am.newPos hash256 id bucket) ≠ some other := by
    intro other unlisted read
    exact unlisted (List.mem_of_getElem? (newSlot_eq_some.mp read))
  have same := cleared.others id (outside id absent)
  have again : Evicted hash256 (am.clearNew bucket (am.newPos hash256 id bucket)) id held shift :=
    ⟨cleared.sound, cleared.kept.live same evicted.live, same.inTried.trans evicted.new,
      same.refCount.trans evicted.unreferenced⟩
  have position := @SameInfo.newPos hash256 _ _ _ same cleared.kept bucket
  have placed := again.placeEvicted bucketInside (by rw [position]; exact cleared.free)
  rw [position] at placed
  refine ⟨placed.sound, cleared.kept.trans placed.kept, ?_⟩
  intro other differs unlisted
  have before := cleared.others other (outside other unlisted)
  refine before.trans (placed.others other differs ?_)
  intro listed
  by_cases live : am.Live other
  · have linked := cleared.sound.tabled.linked other
    have refs := linked.newRefs (cleared.kept.live before live)
    have positive := List.count_pos_iff.mpr listed
    have old := (evicted.sound.tabled.linked other).newRefs live
    rw [before.refCount, old, List.count_eq_zero_of_not_mem unlisted] at refs
    omega
  · obtain ⟨slot, inside, here⟩ := List.getElem_of_mem listed
    have alive := ((cleared.sound.tabled.linked other).newSlots slot
      (by rw [← here]; exact List.getElem?_eq_getElem inside)).1
    exact live ⟨cleared.kept.idCount ▸ alive.1, before.used ▸ alive.2⟩

theorem Evicted.makeTriedPlaceAltNew {bucket : Nat} (bucketInside : bucket < newBucketCount)
    : Placed hash256 am
        (am.makeTriedPlaceAltNew hash256 id bucket (am.newPos hash256 id bucket)) id held
        shift := by
  rw [AddrMan.makeTriedPlaceAltNew]
  split
  · rename_i attempt found
    have free := List.find?_some found
    exact evicted.placeEvicted (altBucket_lt _ _) (of_decide_eq_true free)
  · exact evicted.makeTriedRequeueNew bucketInside

end

theorem getNewBucket_lt (info : AddrInfo) (nKey : Uint256) (src : NetAddr)
    : info.getNewBucket hash256 nKey src < newBucketCount :=
  Nat.mod_lt _ (by decide)

theorem getTriedBucket_lt (info : AddrInfo) (nKey : Uint256)
    : info.getTriedBucket hash256 nKey < triedBucketCount :=
  Nat.mod_lt _ (by decide)

theorem getBucketPosition_lt (info : AddrInfo) (nKey : Uint256) (fNew : Bool) (bucket : Nat)
    : info.getBucketPosition hash256 nKey fNew bucket < bucketSize :=
  Nat.mod_lt _ (by decide)

theorem Sound.makeTriedEvictSlot (sound : am.Sound hash256 (id :: held) shift) (live : am.Live id)
    (new : (am.entry id).inTried = false) (none : (am.entry id).refCount = 0) (now : Int)
    {kBucket kPos : Nat} (bucketInside : kBucket < triedBucketCount) (posInside : kPos < bucketSize)
    : (am.makeTriedEvictSlot hash256 now kBucket kPos).Sound hash256 (id :: held) shift
        ∧ (am.makeTriedEvictSlot hash256 now kBucket kPos).Live id
        ∧ SameInfo (am.entry id) ((am.makeTriedEvictSlot hash256 now kBucket kPos).entry id)
        ∧ (am.makeTriedEvictSlot hash256 now kBucket kPos).vvTried[slotIndex kBucket kPos]?
            = some Option.none := by
  have within : slotIndex kBucket kPos < am.vvTried.length :=
    sound.tabled.triedSize ▸ slotIndex_lt bucketInside posInside
  rw [AddrMan.makeTriedEvictSlot]
  cases read : am.triedSlot kBucket kPos with
  | none =>
    refine ⟨sound, live, SameInfo.refl _, ?_⟩
    rw [triedSlot, List.getD_eq_getElem?_getD, List.getElem?_eq_getElem within] at read
    rw [List.getElem?_eq_getElem within]
    exact congrArg some read
  | some evictee =>
    have member := List.mem_of_getElem? (triedSlot_eq_some.mp read)
    have linked := sound.tabled.linked evictee
    have evicteeLive := linked.triedSlots member
    have inside := sound.stored.live_lt evicteeLive
    have evicteeTried : (am.entry evictee).inTried = true := by
      by_contra fresh
      exact not_mem_vvTried linked evicteeLive (Bool.not_eq_true _ ▸ fresh) member
    have differs : id ≠ evictee := by
      intro same
      rw [← same, new] at evicteeTried
      cases evicteeTried
    have demoted := sound.demote read
    have self : (am.demote evictee kBucket kPos).entry evictee
        = { am.entry evictee with inTried := false } := entry_modifyEntry_self inside _
    have other : (am.demote evictee kBucket kPos).entry id = am.entry id :=
      (entry_modifyEntry inside _ id).trans (if_neg differs)
    have evicted : Evicted hash256 (am.demote evictee kBucket kPos) evictee (id :: held) shift := by
      refine ⟨demoted, ?_, ?_, ?_⟩
      · rw [Live, self]
        exact evicteeLive
      · rw [self]
      · rw [self]
        exact linked.apart evicteeLive evicteeTried
    have unlisted : some id ∉ am.vvNew := not_mem_vvNew (sound.tabled.linked id) live none
    have freed : (am.demote evictee kBucket kPos).vvTried[slotIndex kBucket kPos]?
        = some Option.none := by
      change (am.vvTried.set _ Option.none)[slotIndex kBucket kPos]? = _
      rw [List.getElem?_set_self within]
    have finish : ∀ am', Placed hash256 (am.demote evictee kBucket kPos) am' evictee (id :: held)
          shift →
        am'.Sound hash256 (id :: held) shift ∧ am'.Live id
          ∧ SameInfo (am.entry id) (am'.entry id)
          ∧ am'.vvTried[slotIndex kBucket kPos]? = some Option.none := by
      intro am' placed
      have same := placed.others id differs unlisted
      rw [other] at same
      refine ⟨placed.sound, ⟨placed.kept.idCount.symm ▸ live.1, same.used.trans live.2⟩, same, ?_⟩
      rw [placed.kept.vvTried]
      exact freed
    dsimp only
    rw [if_neg (Nat.not_le.mpr inside)]
    split
    · exact finish _ (evicted.makeTriedPlaceAltNew (getNewBucket_lt _ _ _))
    · exact finish _ (evicted.makeTriedRequeueNew (getNewBucket_lt _ _ _))

theorem Sound.makeTriedLink (sound : am.Sound hash256 [id] 0) (live : am.Live id)
    (new : (am.entry id).inTried = false) (none : (am.entry id).refCount = 0) (now : Int)
    : (am.makeTriedLink hash256 now id).Sound hash256 [] 0 := by
  have counted := sound.addNewCount (-1)
  obtain ⟨evicted, present, same, freed⟩ := counted.makeTriedEvictSlot live new none now
    (getTriedBucket_lt (am.entry id) am.nKey)
    (getBucketPosition_lt (am.entry id) am.nKey false
      ((am.entry id).getTriedBucket hash256 am.nKey))
  exact evicted.promote freed present (same.inTried.trans new) (same.refCount.trans none)

theorem Sound.makeTried (sound : am.Sound hash256 [] 0) (live : am.Live id)
    (new : (am.entry id).inTried = false) (now : Int)
    : (am.makeTried hash256 now id).Sound hash256 [] 0 := by
  have widened : am.Sound hash256 [id] 0 := sound.mono (List.nil_subset [id])
  obtain ⟨unlinked, alive, unmarked, unreferenced⟩ := widened.makeTriedUnlinkNew live new
  exact unlinked.makeTriedLink alive unmarked unreferenced now

end AddrMan

end Z23.Net
