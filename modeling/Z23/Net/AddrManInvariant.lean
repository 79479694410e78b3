import Z23.Net.AddrManMoves

/-!
Runs of the address manager keep its entries, tables, order and index in step, so that its
consistency check passes after every call.
-/

namespace Z23.Net

open Z23.Lib.TombTable

namespace AddrMan

variable {hash256 : List UInt8 → Uint256} {am : AddrMan}

-- Runs

theorem init_stored (nKey : Uint256) : (init nKey).Stored where
  positive := by
    rw [init, List.length_replicate]
    decide
  bounded := by
    rw [init, List.length_replicate]
    decide
  counted := Nat.zero_le _
  unused := by
    intro id _
    simp only [init, entry, List.getD_eq_getElem?_getD, List.getElem?_replicate]
    split <;> rfl
  order := List.Perm.refl _
  positions := fun i id read => nomatch read
  index := Table.Holds.blank 12
  roomy := @Table.Roomy.blank _ _ 12

theorem init_tabled (nKey : Uint256) : (init nKey).Tabled hash256 [] 0 where
  counted := Nat.zero_le _
  newSize := List.length_replicate
  triedSize := List.length_replicate
  linked := by
    intro id
    have idle : ¬ (init nKey).Live id := fun live => Nat.not_lt_zero _ live.1
    constructor
    · intro slot read
      have member := List.eq_of_mem_replicate (List.mem_of_getElem? read)
      cases member
    · intro member
      cases List.eq_of_mem_replicate member
    all_goals exact fun live => absurd live idle
  triedTotal := by
    simp [init, List.countP_replicate]
  triedNumber := rfl
  newNumber := rfl

theorem init_sound (nKey : Uint256) : (init nKey).Sound hash256 [] 0 :=
  ⟨init_stored nKey, init_tabled nKey⟩

variable {held : List Nat} {shift : Int}

theorem Sound.swapRandom (sound : am.Sound hash256 held shift) (p1 p2 : Nat)
    : (am.swapRandom p1 p2).Sound hash256 held shift := by
  have swapped := swapRandom_swapped am p1 p2
  exact ⟨sound.stored.swapRandom p1 p2, sound.tabled.congr swapped.entries swapped.nKey
    swapped.idCount swapped.capacity.ge swapped.vvNew swapped.vvTried swapped.newCount
    swapped.triedCount⟩

theorem Sound.sampleLoop (sound : am.Sound hash256 [] 0) (includeTor : Bool) (nNow : Int)
    (drawn : Nat → Nat) (fuel n room : Nat)
    : (AddrMan.sampleLoop includeTor nNow drawn fuel n room am).1.Sound hash256 [] 0 := by
  induction fuel generalizing am n room with
  | zero => exact sound
  | succ fuel ih =>
    cases room with
    | zero => exact sound
    | succ room =>
      rw [AddrMan.sampleLoop]
      dsimp only
      have swapped := sound.swapRandom n
        (getRandInt (drawn n) (am.randomOrder.length - n) + n)
      split
      · exact ih swapped _ _
      · exact ih swapped _ _

variable {id : Nat}

theorem Stored.findService {svc : NetService} (stored : am.Stored)
    (found : am.findService svc = some id)
    : am.Live id := by
  rw [AddrMan.findService, Option.filter_eq_some_iff] at found
  exact (stored.findAddr_eq_some.mp found.1).1

theorem Sound.good (sound : am.Sound hash256 [] 0) (now : Int) (drawn : Nat) (svc : NetService)
    (nTime : Int)
    : (am.good hash256 now drawn svc nTime).Sound hash256 [] 0 := by
  have ticked : { am with connectEpoch := (am.connectEpoch + 1) % 2 ^ 64 }.Sound hash256 [] 0 :=
    ⟨sound.stored.congr (fun _ => SamePlace.refl _) rfl rfl rfl rfl,
      sound.tabled.congr (fun _ => SameInfo.refl _) rfl rfl (Nat.le_refl _) rfl rfl rfl rfl⟩
  rw [AddrMan.good]
  dsimp only
  generalize ({ am with connectEpoch := (am.connectEpoch + 1) % 2 ^ 64 } : AddrMan) = am' at ticked ⊢
  cases found : am'.findService svc with
  | none => exact ticked
  | some id =>
    have live := ticked.stored.findService found
    have inside := ticked.stored.live_lt live
    have touched : (am'.modifyEntry id fun info =>
        { info with lastSuccess := nTime, lastTry := nTime, attempts := 0 }).Sound hash256 [] 0 :=
      ticked.touch inside ⟨rfl, rfl, rfl, rfl⟩ ⟨rfl, rfl, rfl⟩
    have self := entry_modifyEntry_self inside fun info =>
      { info with lastSuccess := nTime, lastTry := nTime, attempts := 0 }
    have alive : (am'.modifyEntry id fun info =>
        { info with lastSuccess := nTime, lastTry := nTime, attempts := 0 }).Live id := by
      rw [Live, self]
      exact live
    dsimp only
    split
    · exact touched
    · rename_i new
      split
      · exact touched
      · exact touched.makeTried alive (Bool.not_eq_true _ ▸ new) now

theorem Sound.attempt (sound : am.Sound hash256 [] 0) (svc : NetService) (nTime : Int)
    (outage : Bool)
    : (am.attempt svc nTime outage).Sound hash256 [] 0 := by
  rw [AddrMan.attempt]
  cases found : am.findService svc with
  | none => exact sound
  | some id =>
    have inside := sound.stored.live_lt (sound.stored.findService found)
    exact sound.touch inside ⟨rfl, rfl, rfl, rfl⟩ ⟨rfl, rfl, rfl⟩

theorem Sound.connected (sound : am.Sound hash256 [] 0) (svc : NetService) (nTime : Int)
    : (am.connected svc nTime).Sound hash256 [] 0 := by
  rw [AddrMan.connected]
  cases found : am.findService svc with
  | none => exact sound
  | some id =>
    have inside := sound.stored.live_lt (sound.stored.findService found)
    refine sound.touch inside ?_ ?_
    · split <;> exact ⟨rfl, rfl, rfl, rfl⟩
    · split <;> exact ⟨rfl, rfl, rfl⟩

theorem Sound.step (sound : am.Sound hash256 [] 0) (call : AddrManCall)
    : (am.step hash256 call).Sound hash256 [] 0 := by
  cases call with
  | add now clock drawn addr source timePenalty =>
    exact sound.add now clock drawn addr source timePenalty
  | good now drawn svc nTime => exact sound.good now drawn svc nTime
  | attempt svc nTime outage => exact sound.attempt svc nTime outage
  | connected svc nTime => exact sound.connected svc nTime
  | getAddr nNow drawn maxOut => exact sound.sampleLoop false nNow drawn _ _ _

theorem run_sound (nKey : Uint256) (calls : List AddrManCall)
    : ((init nKey).run hash256 calls).Sound hash256 [] 0 := by
  have steps : ∀ (calls : List AddrManCall) {am : AddrMan}, am.Sound hash256 [] 0 →
      (am.run hash256 calls).Sound hash256 [] 0 := by
    intro calls
    induction calls with
    | nil => exact fun sound => sound
    | cons call rest ih => exact fun sound => ih (sound.step call)
  exact steps calls (init_sound nKey)

-- Counting slots

theorem countP_range_mul (p : Nat → Bool) (count size : Nat)
    : (List.range (count * size)).countP p
        = ((List.range count).map fun b => (List.range size).countP fun i => p (b * size + i)).sum := by
  induction count with
  | zero => simp
  | succ count ih =>
    rw [Nat.succ_mul, List.range_add, List.countP_append, ih, List.range_succ, List.map_append,
      List.sum_append, List.countP_map]
    simp [Function.comp_def]

theorem countP_eq_range {α : Type} (l : List α) (default : α) (p : α → Bool)
    : l.countP p = (List.range l.length).countP fun i => p (l.getD i default) := by
  have listed : l = (List.range l.length).map fun i => l.getD i default := by
    apply List.ext_getElem
    · simp
    · intro i inside _
      simp [inside]
  conv_lhs => rw [listed, List.countP_map]
  rfl

theorem countP_buckets {table : List (Option Nat)} {count : Nat}
    (size : table.length = count * bucketSize) (p : Option Nat → Bool)
    : ((List.range count).map fun b => (List.range bucketSize).countP fun i =>
          p (table.getD (slotIndex b i) none)).sum
        = table.countP p := by
  rw [countP_eq_range table none p, size, countP_range_mul]
  rfl

theorem Tabled.triedRefs_eq (tabled : am.Tabled hash256 held shift)
    : (am.triedRefs : Int) = am.triedCount := by
  rw [tabled.triedTotal, triedRefs]
  exact congrArg _ (countP_buckets tabled.triedSize Option.isSome)

theorem Tabled.actualRefs_eq (tabled : am.Tabled hash256 held shift) (id : Nat)
    : am.actualRefs id = am.vvNew.count (some id) := by
  rw [actualRefs]
  refine (countP_buckets tabled.newSize fun slot => slot = some id).trans ?_
  rw [List.count]
  refine List.countP_congr fun slot _ => ?_
  simp

-- The consistency check

theorem forM_ok {α : Type} {l : List α} {f : α → Except String Unit} (fine : ∀ x ∈ l, f x = .ok ())
    : l.forM f = .ok () := by
  induction l with
  | nil => rfl
  | cons x rest ih =>
    have head := fine x List.mem_cons_self
    have tail := ih (List.forall_mem_cons.mp fine).2
    change (f x >>= fun _ => rest.forM f) = _
    rw [head]
    exact tail

theorem Sound.checkNewSlot (sound : am.Sound hash256 [] 0) (b p : Nat)
    : am.checkNewSlot b p = .ok () := by
  rw [AddrMan.checkNewSlot]
  cases read : am.newSlot b p with
  | none => rfl
  | some id =>
    have linked := sound.tabled.linked id
    have here := newSlot_eq_some.mp read
    have live := (linked.newSlots _ here).1
    have new := linked.isNew here
    have positive := linked.placed live new List.not_mem_nil
    simp [Nat.not_le.mpr (sound.stored.live_lt live), live.2, new, Int.not_le.mpr positive]

theorem Linked.isTried (linked : am.Linked hash256 held id) (member : some id ∈ am.vvTried)
    : am.Live id ∧ (am.entry id).inTried = true := by
  have live := linked.triedSlots member
  refine ⟨live, ?_⟩
  by_contra new
  exact not_mem_vvTried linked live (Bool.not_eq_true _ ▸ new) member

theorem Sound.checkTriedSlot (sound : am.Sound hash256 [] 0) (b p : Nat)
    : am.checkTriedSlot b p = .ok () := by
  rw [AddrMan.checkTriedSlot]
  cases read : am.triedSlot b p with
  | none => rfl
  | some id =>
    obtain ⟨live, tried⟩ := (sound.tabled.linked id).isTried
      (List.mem_of_getElem? (triedSlot_eq_some.mp read))
    simp [Nat.not_le.mpr (sound.stored.live_lt live), live.2, tried]

theorem two_le_count {table : List (Option Nat)} {i j : Nat} (differs : i ≠ j)
    (first : table[i]? = some (some id)) (second : table[j]? = some (some id))
    : 2 ≤ table.count (some id) := by
  have count := count_set first none (some id)
  have still : some id ∈ table.set i none :=
    List.mem_of_getElem? (by rw [List.getElem?_set, if_neg differs, second])
  have positive := List.count_pos_iff.mpr still
  rw [if_pos (by simp), if_neg (by simp)] at count
  omega

theorem Sound.ccCheckTriedDups (sound : am.Sound hash256 [] 0) : am.ccCheckTriedDups = .ok () := by
  refine forM_ok fun b _ => forM_ok fun p1 _ => ?_
  cases first : am.triedSlot b p1 with
  | none => rfl
  | some id =>
    refine forM_ok fun p2 member => ?_
    have above := (List.mem_range'_1.mp member).1
    refine if_neg fun second => ?_
    have here := triedSlot_eq_some.mp first
    have there := triedSlot_eq_some.mp second
    have differs : slotIndex b p1 ≠ slotIndex b p2 := by
      rw [slotIndex, slotIndex]
      omega
    have twice := two_le_count differs here there
    have linked := sound.tabled.linked id
    obtain ⟨live, tried⟩ := linked.isTried (List.mem_of_getElem? here)
    rw [linked.triedRefs live, if_pos tried] at twice
    omega

theorem Sound.ccCheckRefCounts (sound : am.Sound hash256 [] 0) : am.ccCheckRefCounts = .ok () := by
  refine forM_ok fun id member => ?_
  dsimp only
  split
  · rfl
  · rename_i placed
    rw [Bool.or_eq_true, not_or, Bool.not_eq_true', Bool.not_eq_false] at placed
    have live : am.Live id := ⟨List.mem_range.mp member, placed.1⟩
    rw [if_neg]
    rw [ne_eq, not_not, sound.tabled.actualRefs_eq, (sound.tabled.linked id).newRefs live]

theorem Stored.indexLookup (stored : am.Stored) (live : am.Live id)
    : am.indexLookup (am.entry id).addr.svc.addr = some id :=
  stored.index.lookup_eq_some_iff.mpr (mem_indexRows.mpr ⟨live, rfl⟩)

theorem Stored.scanId (stored : am.Stored) (live : am.Live id)
    : am.scanId (am.entry id).addr.svc.addr = some id := by
  cases found : am.scanId (am.entry id).addr.svc.addr with
  | none =>
    have missed := List.find?_eq_none.mp found id (List.mem_range.mpr live.1)
    simp [live.2] at missed
  | some other =>
    have matching := List.find?_some found
    have known := List.mem_range.mp (List.mem_of_find?_eq_some found)
    rw [Bool.and_eq_true, decide_eq_true_eq] at matching
    have rows : ((am.entry id).addr.svc.addr, other) ∈ am.indexRows :=
      mem_indexRows.mpr ⟨⟨known, matching.1⟩, matching.2⟩
    exact congrArg some (stored.index.value_unique rows (mem_indexRows.mpr ⟨live, rfl⟩))

theorem Sound.indexVerify (sound : am.Sound hash256 [] 0) : am.indexVerify = .ok () := by
  have entries : am.usedIds.forM am.indexVerifyEntry = .ok () := by
    refine forM_ok fun id member => ?_
    have live := mem_usedIds.mp member
    rw [indexVerifyEntry, sound.stored.indexLookup live, sound.stored.scanId live]
    simp
  have live : am.usedIds.length = am.idx.live := by
    rw [sound.stored.index.size, indexRows, List.length_map]
  have cells : ((List.range am.idx.slots.length).forM fun s =>
      (am.idx.slots[s]?).elim (.ok ()) (am.indexVerifyCell s)) = .ok () := by
    refine forM_ok fun s _ => ?_
    cases read : am.idx.slots[s]? with
    | none => rfl
    | some cell =>
      cases cell with
      | virgin => rfl
      | tomb => rfl
      | live key id =>
        obtain ⟨alive, same⟩ := mem_indexRows.mp
          ((sound.stored.index.listed _ _).mp (List.mem_of_getElem? read))
        simp [indexVerifyCell, Nat.not_le.mpr (sound.stored.live_lt alive), alive.2, same]
  rw [AddrMan.indexVerify, if_neg sound.stored.slots_ne_zero, entries]
  simp only [live, ne_eq, not_true_eq_false, if_false]
  exact cells

theorem Sound.consistencyCheck (sound : am.Sound hash256 [] 0) : am.consistencyCheck = .ok () := by
  have newTable : am.ccCheckNewTable = .ok () :=
    forM_ok fun b _ => forM_ok fun p _ => sound.checkNewSlot b p
  have triedTable : am.ccCheckTriedTable = .ok () :=
    forM_ok fun b _ => forM_ok fun p _ => sound.checkTriedSlot b p
  rw [AddrMan.consistencyCheck, newTable, triedTable, sound.ccCheckRefCounts,
    sound.ccCheckTriedDups, sound.indexVerify]
  simp only [sound.tabled.triedRefs_eq, ne_eq, not_true_eq_false, if_false]
  rfl

/-- What holds of the entries, the tables, the counters, the index and the order between calls. -/
structure InStep (am : AddrMan) : Prop where
  places
    : ∀ id, (am.entry id).used = true →
        ((am.entry id).refCount = am.vvNew.count (some id)
          ∧ 1 ≤ (am.entry id).refCount ∧ (am.entry id).refCount ≤ newBucketsPerAddress
          ∧ some id ∉ am.vvTried)
        ∨ (am.vvTried.count (some id) = 1 ∧ some id ∉ am.vvNew)
  newCount : am.newCount = am.usedIds.countP fun id => some id ∈ am.vvNew
  triedCount : am.triedCount = am.usedIds.countP fun id => some id ∈ am.vvTried
  usedIds : ∀ id, id ∈ am.usedIds ↔ (am.entry id).used = true
  index : ∀ id, (am.entry id).used = true → am.findAddr (am.entry id).addr.svc.addr = some id
  order : am.randomOrder.Perm am.usedIds
  positions : ∀ (i id : Nat), am.randomOrder[i]? = some id → (am.entry id).randomPos = i

theorem Stored.live_iff (stored : am.Stored) : am.Live id ↔ (am.entry id).used = true := by
  refine ⟨fun live => live.2, fun used => ⟨?_, used⟩⟩
  by_contra above
  rw [stored.unused id (Nat.not_lt.mp above)] at used
  cases used

theorem Sound.mem_vvNew (sound : am.Sound hash256 [] 0) (live : am.Live id)
    : some id ∈ am.vvNew ↔ (am.entry id).inTried = false := by
  have linked := sound.tabled.linked id
  constructor
  · intro member
    obtain ⟨slot, read⟩ := List.mem_iff_getElem?.mp member
    exact linked.isNew read
  · intro new
    have positive := linked.placed live new List.not_mem_nil
    rw [linked.newRefs live] at positive
    exact List.count_pos_iff.mp (by omega)

theorem Sound.mem_vvTried (sound : am.Sound hash256 [] 0) (live : am.Live id)
    : some id ∈ am.vvTried ↔ (am.entry id).inTried = true := by
  have linked := sound.tabled.linked id
  constructor
  · exact fun member => (linked.isTried member).2
  · intro tried
    have one := linked.triedRefs live
    rw [if_pos tried] at one
    exact List.count_pos_iff.mp (by omega)

theorem Sound.inStep (sound : am.Sound hash256 [] 0) : am.InStep where
  places := by
    intro id used
    have live := sound.stored.live_iff.mpr used
    have linked := sound.tabled.linked id
    cases mark : (am.entry id).inTried with
    | false =>
      refine .inl ⟨linked.newRefs live, linked.placed live mark List.not_mem_nil, linked.few live, ?_⟩
      rw [sound.mem_vvTried live, mark]
      exact Bool.false_ne_true
    | true =>
      refine .inr ⟨?_, ?_⟩
      · rw [linked.triedRefs live, if_pos mark]
      · rw [sound.mem_vvNew live, mark]
        exact fun same => Bool.noConfusion same
  newCount := by
    rw [sound.tabled.newNumber, Int.add_zero, numberOf]
    refine congrArg _ (List.countP_congr fun id member => ?_)
    rw [decide_eq_true_eq, sound.mem_vvNew (mem_usedIds.mp member), Bool.not_eq_true']
  triedCount := by
    rw [sound.tabled.triedNumber, numberOf]
    refine congrArg _ (List.countP_congr fun id member => ?_)
    rw [decide_eq_true_eq, sound.mem_vvTried (mem_usedIds.mp member)]
  usedIds := fun id => mem_usedIds.trans sound.stored.live_iff
  index := fun id used =>
    sound.stored.findAddr_eq_some.mpr ⟨sound.stored.live_iff.mpr used, rfl⟩
  order := sound.stored.order
  positions := sound.stored.positions

/-- After any calls from the first state on, the check passes and everything is in step, whatever
the addresses, the clocks, the random words and the hash. -/
theorem run_inStep (hash256 : List UInt8 → Uint256) (nKey : Uint256) (calls : List AddrManCall)
    : ((init nKey).run hash256 calls).consistencyCheck = .ok ()
        ∧ ((init nKey).run hash256 calls).InStep :=
  ⟨(run_sound nKey calls).consistencyCheck, (run_sound nKey calls).inStep⟩

end AddrMan

end Z23.Net
