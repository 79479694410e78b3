import Z23.Net.AddrMan

/-!
The two bucket tables of the address manager against its entries: reference counts, marks and
counters. An entry that is on its way between the tables is held, and a counter that is not yet
brought up to date is off by a known amount.
-/

namespace Z23.Net

open Z23.Lib.Tombstones

-- Lists

section Lists

variable {α : Type}

theorem countP_set {l : List α} {i : Nat} {old : α} (read : l[i]? = some old) (new : α)
    (p : α → Bool)
    : (l.set i new).countP p + (p old).toNat = l.countP p + (p new).toNat := by
  have count := (set_swap_perm read new).countP_eq p
  rw [List.countP_cons, List.countP_cons] at count
  cases here : p old <;> cases there : p new <;> simp_all

theorem count_set [BEq α] [LawfulBEq α] {l : List α} {i : Nat} {old : α}
    (read : l[i]? = some old) (new x : α)
    : (l.set i new).count x + (if old == x then 1 else 0)
        = l.count x + (if new == x then 1 else 0) := by
  have count := (set_swap_perm read new).count_eq x
  rwa [List.count_cons, List.count_cons] at count

theorem countP_range_update {p q : Nat → Bool} {n id : Nat} (inside : id < n)
    (same : ∀ other, other ≠ id → p other = q other)
    : (List.range n).countP p + (q id).toNat = (List.range n).countP q + (p id).toNat := by
  induction n with
  | zero => cases inside
  | succ n ih =>
    rw [List.range_succ, List.countP_append, List.countP_append, List.countP_singleton,
      List.countP_singleton]
    by_cases last : id = n
    · have rest : (List.range n).countP p = (List.range n).countP q := by
        apply List.countP_congr
        intro other member
        have below := List.mem_range.mp member
        rw [same other (by omega)]
      rw [rest, last]
      cases p n <;> cases q n <;> simp
    · have before := ih (by omega)
      rw [same n (Ne.symm last)]
      omega

end Lists

-- Reading entries and slots

namespace AddrMan

variable {am : AddrMan} {id : Nat}

theorem entry_modifyEntry (inside : id < am.entries.length) (change : AddrInfo → AddrInfo)
    (other : Nat)
    : (am.modifyEntry id change).entry other
        = if other = id then change (am.entry id) else am.entry other := by
  simp only [entry, modifyEntry, List.getD_eq_getElem?_getD, List.getElem?_modify]
  by_cases same : other = id
  · subst same
    simp [List.getElem?_eq_getElem inside]
  · simp [same, Ne.symm same]

@[simp]
theorem modifyEntry_length (am : AddrMan) (id : Nat) (change : AddrInfo → AddrInfo)
    : (am.modifyEntry id change).entries.length = am.entries.length := by
  simp [modifyEntry]

variable {bucket pos : Nat}

theorem slotIndex_lt {count : Nat} (bucketInside : bucket < count) (posInside : pos < bucketSize)
    : slotIndex bucket pos < count * bucketSize := by
  rw [slotIndex]
  calc bucket * bucketSize + pos < bucket * bucketSize + bucketSize := by omega
    _ = (bucket + 1) * bucketSize := (Nat.succ_mul _ _).symm
    _ ≤ count * bucketSize := Nat.mul_le_mul_right _ bucketInside

theorem slotIndex_div (posInside : pos < bucketSize)
    : slotIndex bucket pos / bucketSize = bucket := by
  rw [slotIndex, bucketSize] at *
  omega

theorem slotIndex_mod (posInside : pos < bucketSize)
    : slotIndex bucket pos % bucketSize = pos := by
  rw [slotIndex, bucketSize] at *
  omega

theorem slotIndex_div_mod (slot : Nat)
    : slotIndex (slot / bucketSize) (slot % bucketSize) = slot := by
  rw [slotIndex, Nat.mul_comm]
  exact Nat.div_add_mod slot bucketSize

theorem newSlot_eq_some
    : am.newSlot bucket pos = some id ↔ am.vvNew[slotIndex bucket pos]? = some (some id) := by
  rw [newSlot, List.getD_eq_getElem?_getD]
  cases am.vvNew[slotIndex bucket pos]? <;> simp

theorem triedSlot_eq_some
    : am.triedSlot bucket pos = some id ↔ am.vvTried[slotIndex bucket pos]? = some (some id) := by
  rw [triedSlot, List.getD_eq_getElem?_getD]
  cases am.vvTried[slotIndex bucket pos]? <;> simp

/-- An id that was handed out and whose entry is in use. -/
def Live (am : AddrMan) (id : Nat) : Prop := id < am.idCount ∧ (am.entry id).used = true

theorem mem_usedIds : id ∈ am.usedIds ↔ am.Live id := by
  rw [usedIds, List.mem_filter, List.mem_range, Live]

/-- The number of entries in use with a property. -/
def numberOf (am : AddrMan) (p : AddrInfo → Bool) : Nat := am.usedIds.countP fun id => p (am.entry id)

theorem numberOf_eq (am : AddrMan) (p : AddrInfo → Bool)
    : am.numberOf p = (List.range am.idCount).countP fun id =>
        p (am.entry id) && (am.entry id).used := by
  rw [numberOf, usedIds, List.countP_filter]

-- The tables against the entries

/-- What the tables read of an entry. -/
structure SameInfo (info info' : AddrInfo) : Prop where
  used : info'.used = info.used
  svc : info'.addr.svc = info.addr.svc
  refCount : info'.refCount = info.refCount
  inTried : info'.inTried = info.inTried

theorem SameInfo.refl (info : AddrInfo) : SameInfo info info := ⟨rfl, rfl, rfl, rfl⟩

theorem SameInfo.trans {a b c : AddrInfo} (first : SameInfo a b) (second : SameInfo b c)
    : SameInfo a c where
  used := second.used.trans first.used
  svc := second.svc.trans first.svc
  refCount := second.refCount.trans first.refCount
  inTried := second.inTried.trans first.inTried

/-- Two versions of a table that differ in slots of one id only. -/
structure Touches (id : Nat) (table table' : List (Option Nat)) : Prop where
  length : table'.length = table.length
  reads
    : ∀ (slot other : Nat), other ≠ id →
        (table'[slot]? = some (some other) ↔ table[slot]? = some (some other))
  counts : ∀ other, other ≠ id → table'.count (some other) = table.count (some other)

theorem Touches.refl (id : Nat) (table : List (Option Nat)) : Touches id table table :=
  ⟨rfl, fun _ _ _ => Iff.rfl, fun _ _ => rfl⟩

theorem Touches.set {table : List (Option Nat)} {slot : Nat} {old new : Option Nat}
    (read : table[slot]? = some old) (before : ∀ other, other ≠ id → old ≠ some other)
    (after : ∀ other, other ≠ id → new ≠ some other)
    : Touches id table (table.set slot new) where
  length := List.length_set
  reads := by
    intro place other differs
    obtain ⟨inside, -⟩ := List.getElem?_eq_some_iff.mp read
    rw [List.getElem?_set]
    split
    · rename_i same
      subst same
      rw [read, Option.some.injEq, Option.some.injEq]
      exact iff_of_false (after other differs) (before other differs)
    · exact Iff.rfl
  counts := by
    intro other differs
    have count := count_set read new (some other)
    rwa [if_neg (by simpa using before other differs), if_neg (by simpa using after other differs),
      Nat.add_zero, Nat.add_zero] at count

theorem Touches.fill {table : List (Option Nat)} {slot : Nat} (read : table[slot]? = some none)
    : Touches id table (table.set slot (some id)) :=
  Touches.set read (fun _ _ => by simp) fun _ differs same => differs (Option.some.inj same).symm

theorem Touches.free {table : List (Option Nat)} {slot : Nat} (read : table[slot]? = some (some id))
    : Touches id table (table.set slot none) :=
  Touches.set read (fun _ differs same => differs (Option.some.inj same).symm) fun _ _ => by simp

theorem Touches.mem {table table' : List (Option Nat)} (touches : Touches id table table')
    {other : Nat} (differs : other ≠ id)
    : some other ∈ table' ↔ some other ∈ table := by
  simp only [List.mem_iff_getElem?, touches.reads _ other differs]

section Tabled

variable (hash256 : List UInt8 → Uint256)

/-- The slots of an id are its own and as many as its entry says; only a held entry may stand in
no slot. -/
structure Linked (am : AddrMan) (held : List Nat) (id : Nat) : Prop where
  newSlots
    : ∀ slot : Nat, am.vvNew[slot]? = some (some id) →
        am.Live id ∧ slot % bucketSize = am.newPos hash256 id (slot / bucketSize)
  triedSlots : some id ∈ am.vvTried → am.Live id
  newRefs : am.Live id → (am.entry id).refCount = am.vvNew.count (some id)
  triedRefs : am.Live id → am.vvTried.count (some id) = if (am.entry id).inTried then 1 else 0
  few : am.Live id → (am.entry id).refCount ≤ newBucketsPerAddress
  apart : am.Live id → (am.entry id).inTried = true → (am.entry id).refCount = 0
  placed
    : am.Live id → (am.entry id).inTried = false → id ∉ held → 0 < (am.entry id).refCount

/-- The counter of new entries is off by `shift`. -/
structure Tabled (am : AddrMan) (held : List Nat) (shift : Int) : Prop where
  counted : am.idCount ≤ am.entries.length
  newSize : am.vvNew.length = newBucketCount * bucketSize
  triedSize : am.vvTried.length = triedBucketCount * bucketSize
  linked : ∀ id, am.Linked hash256 held id
  triedTotal : am.triedCount = am.vvTried.countP Option.isSome
  triedNumber : am.triedCount = am.numberOf AddrInfo.inTried
  newNumber : am.newCount = am.numberOf (fun info => !info.inTried) + shift

theorem newPos_lt (am : AddrMan) (id bucket : Nat) : am.newPos hash256 id bucket < bucketSize :=
  Nat.mod_lt _ (by decide)

variable {hash256} {held held' : List Nat} {shift : Int} {am' : AddrMan}

theorem Tabled.live_lt (tabled : am.Tabled hash256 held shift) (live : am.Live id)
    : id < am.entries.length :=
  Nat.lt_of_lt_of_le live.1 tabled.counted

theorem newPos_congr {other : Nat} (same : SameInfo (am.entry other) (am'.entry other))
    (nKey : am'.nKey = am.nKey) (bucket : Nat)
    : am'.newPos hash256 other bucket = am.newPos hash256 other bucket := by
  simp only [newPos, AddrInfo.getBucketPosition, nKey, same.svc]

theorem Linked.frame {other : Nat} (linked : am.Linked hash256 held other) (differs : other ≠ id)
    (same : SameInfo (am.entry other) (am'.entry other)) (nKey : am'.nKey = am.nKey)
    (idCount : am'.idCount = am.idCount) (inNew : Touches id am.vvNew am'.vvNew)
    (inTried : Touches id am.vvTried am'.vvTried) (wider : other ∈ held → other ∈ held')
    : am'.Linked hash256 held' other := by
  have live : am'.Live other ↔ am.Live other := by
    rw [Live, Live, idCount, same.used]
  constructor
  · intro slot read
    rw [live, newPos_congr same nKey]
    exact linked.newSlots slot ((inNew.reads slot other differs).mp read)
  · intro member
    exact live.mpr (linked.triedSlots ((inTried.mem differs).mp member))
  · intro alive
    rw [same.refCount, inNew.counts other differs]
    exact linked.newRefs (live.mp alive)
  · intro alive
    rw [same.inTried, inTried.counts other differs]
    exact linked.triedRefs (live.mp alive)
  · intro alive
    rw [same.refCount]
    exact linked.few (live.mp alive)
  · intro alive
    rw [same.refCount, same.inTried]
    exact linked.apart (live.mp alive)
  · intro alive new free
    rw [same.refCount]
    exact linked.placed (live.mp alive) (same.inTried ▸ new) fun member => free (wider member)

theorem Linked.mono (linked : am.Linked hash256 held id) (wider : id ∈ held → id ∈ held')
    : am.Linked hash256 held' id :=
  { linked with placed := fun live new free =>
      linked.placed live new fun member => free (wider member) }

theorem Tabled.mono (tabled : am.Tabled hash256 held shift) (wider : ∀ id ∈ held, id ∈ held')
    : am.Tabled hash256 held' shift :=
  { tabled with linked := fun id => (tabled.linked id).mono (wider id) }

/-- The two states differ in one entry, which keeps its service. -/
structure Changed (am am' : AddrMan) (id : Nat) : Prop where
  nKey : am'.nKey = am.nKey
  idCount : am'.idCount = am.idCount
  capacity : am'.entries.length = am.entries.length
  others : ∀ other, other ≠ id → SameInfo (am.entry other) (am'.entry other)
  svc : (am'.entry id).addr.svc = (am.entry id).addr.svc

theorem Changed.newPos (changed : Changed am am' id) (bucket : Nat)
    : am'.newPos hash256 id bucket = am.newPos hash256 id bucket := by
  simp only [AddrMan.newPos, AddrInfo.getBucketPosition, changed.nKey, changed.svc]

theorem Changed.numberOf (changed : Changed am am' id) (inside : id < am.idCount)
    {p : AddrInfo → Bool} (reads : ∀ info info', SameInfo info info' → p info' = p info)
    : am'.numberOf p + (p (am.entry id) && (am.entry id).used).toNat
        = am.numberOf p + (p (am'.entry id) && (am'.entry id).used).toNat := by
  rw [numberOf_eq, numberOf_eq, changed.idCount]
  refine @countP_range_update (fun other => p (am'.entry other) && (am'.entry other).used)
    (fun other => p (am.entry other) && (am.entry other).used) _ _ inside ?_
  intro other differs
  simp only [reads _ _ (changed.others other differs), (changed.others other differs).used]

theorem inTried_reads (info info' : AddrInfo) (same : SameInfo info info')
    : info'.inTried = info.inTried :=
  same.inTried

theorem isNew_reads (info info' : AddrInfo) (same : SameInfo info info')
    : (!info'.inTried) = !info.inTried := by
  rw [same.inTried]

theorem Tabled.change (tabled : am.Tabled hash256 held shift) (changed : Changed am am' id)
    (inNew : Touches id am.vvNew am'.vvNew) (inTried : Touches id am.vvTried am'.vvTried)
    (own : am'.Linked hash256 held' id) (wider : ∀ other, other ≠ id → other ∈ held → other ∈ held')
    {shift' : Int} (triedTotal : am'.triedCount = am'.vvTried.countP Option.isSome)
    (triedNumber : am'.triedCount = am'.numberOf AddrInfo.inTried)
    (newNumber : am'.newCount = am'.numberOf (fun info => !info.inTried) + shift')
    : am'.Tabled hash256 held' shift' where
  counted := by
    rw [changed.idCount, changed.capacity]
    exact tabled.counted
  newSize := inNew.length.trans tabled.newSize
  triedSize := inTried.length.trans tabled.triedSize
  linked := by
    intro other
    by_cases same : other = id
    · exact same ▸ own
    · exact (tabled.linked other).frame same (changed.others other same) changed.nKey
        changed.idCount inNew inTried (wider other same)
  triedTotal := triedTotal
  triedNumber := triedNumber
  newNumber := newNumber

/-- The tables do not read more of the entries than `SameInfo` keeps. -/
theorem Tabled.congr (tabled : am.Tabled hash256 held shift)
    (entries : ∀ id, SameInfo (am.entry id) (am'.entry id)) (nKey : am'.nKey = am.nKey)
    (idCount : am'.idCount = am.idCount) (capacity : am.entries.length ≤ am'.entries.length)
    (vvNew : am'.vvNew = am.vvNew) (vvTried : am'.vvTried = am.vvTried)
    (newCount : am'.newCount = am.newCount) (triedCount : am'.triedCount = am.triedCount)
    : am'.Tabled hash256 held shift := by
  have numbers : ∀ p : AddrInfo → Bool, (∀ id, p (am'.entry id) = p (am.entry id)) →
      am'.numberOf p = am.numberOf p := by
    intro p same
    rw [numberOf_eq, numberOf_eq, idCount]
    simp only [same, (entries _).used]
  constructor
  · rw [idCount]
    exact tabled.counted.trans capacity
  · rw [vvNew]
    exact tabled.newSize
  · rw [vvTried]
    exact tabled.triedSize
  · intro id
    -- any other id will do as the one whose slots change
    exact (tabled.linked id).frame (Nat.lt_succ_self id).ne (entries id) nKey idCount
      (vvNew ▸ Touches.refl _ _) (vvTried ▸ Touches.refl _ _) fun member => member
  · rw [triedCount, vvTried]
    exact tabled.triedTotal
  · rw [triedCount, numbers _ fun id => (entries id).inTried]
    exact tabled.triedNumber
  · rw [newCount, numbers _ fun id => by rw [(entries id).inTried]]
    exact tabled.newNumber

-- Slots of the new table

theorem changed_modifyEntry (inside : id < am.entries.length) {change : AddrInfo → AddrInfo}
    (svc : (change (am.entry id)).addr.svc = (am.entry id).addr.svc)
    : Changed am (am.modifyEntry id change) id where
  nKey := rfl
  idCount := rfl
  capacity := modifyEntry_length am id change
  others := by
    intro other differs
    rw [entry_modifyEntry inside, if_neg differs]
    exact SameInfo.refl _
  svc := by
    rw [entry_modifyEntry inside, if_pos rfl]
    exact svc

theorem Changed.setNewSlot (changed : Changed am am' id) (bucket pos : Nat) (value : Option Nat)
    : Changed am (am'.setNewSlot bucket pos value) id :=
  ⟨changed.nKey, changed.idCount, changed.capacity, changed.others, changed.svc⟩

theorem entry_modifyEntry_self (inside : id < am.entries.length) (change : AddrInfo → AddrInfo)
    : (am.modifyEntry id change).entry id = change (am.entry id) := by
  rw [entry_modifyEntry inside, if_pos rfl]

theorem numberOf_modifyEntry (inside : id < am.entries.length) {change : AddrInfo → AddrInfo}
    {p : AddrInfo → Bool} (used : (change (am.entry id)).used = (am.entry id).used)
    (kept : p (change (am.entry id)) = p (am.entry id))
    : (am.modifyEntry id change).numberOf p = am.numberOf p := by
  rw [numberOf_eq, numberOf_eq]
  refine List.countP_congr fun other _ => ?_
  rw [entry_modifyEntry inside]
  by_cases same : other = id
  · rw [if_pos same, used, kept, same]
  · rw [if_neg same]

/-- One reference of a new entry is dropped with its slot. -/
def release (am : AddrMan) (id bucket pos : Nat) : AddrMan :=
  (am.modifyEntry id fun info => { info with refCount := info.refCount - 1 }).setNewSlot bucket pos
    none

/-- One reference of a new entry is added with its slot. -/
def occupy (am : AddrMan) (id bucket pos : Nat) : AddrMan :=
  (am.modifyEntry id fun info => { info with refCount := info.refCount + 1 }).setNewSlot bucket pos
    (some id)

theorem entry_release (inside : id < am.entries.length) (bucket pos other : Nat)
    : (am.release id bucket pos).entry other
        = if other = id then { am.entry id with refCount := (am.entry id).refCount - 1 }
          else am.entry other :=
  entry_modifyEntry inside _ other

theorem entry_occupy (inside : id < am.entries.length) (bucket pos other : Nat)
    : (am.occupy id bucket pos).entry other
        = if other = id then { am.entry id with refCount := (am.entry id).refCount + 1 }
          else am.entry other :=
  entry_modifyEntry inside _ other

theorem Linked.isNew (linked : am.Linked hash256 held id) {slot : Nat}
    (read : am.vvNew[slot]? = some (some id))
    : (am.entry id).inTried = false := by
  have live := (linked.newSlots slot read).1
  have positive : 0 < am.vvNew.count (some id) := List.count_pos_iff.mpr (List.mem_of_getElem? read)
  by_contra tried
  have none := linked.apart live (Bool.not_eq_false _ ▸ tried)
  rw [linked.newRefs live] at none
  omega

variable {bucket pos : Nat}

theorem Tabled.release (tabled : am.Tabled hash256 held shift)
    (read : am.newSlot bucket pos = some id)
    : (am.release id bucket pos).Tabled hash256 (id :: held) shift := by
  have here := newSlot_eq_some.mp read
  have linked := tabled.linked id
  have live := (linked.newSlots _ here).1
  have inside := tabled.live_lt live
  have changed : Changed am (am.release id bucket pos) id :=
    (changed_modifyEntry inside rfl).setNewSlot _ _ _
  have self := entry_release inside bucket pos id
  rw [if_pos rfl] at self
  have alive : (am.release id bucket pos).Live id := by
    rw [Live, self]
    exact live
  have count := count_set here none (some id)
  rw [if_pos (by simp), if_neg (by simp)] at count
  have refs := linked.newRefs live
  have touches : Touches id am.vvNew (am.release id bucket pos).vvNew := Touches.free here
  refine tabled.change changed touches (Touches.refl _ _) ?_
    (fun other _ member => List.mem_cons_of_mem _ member) tabled.triedTotal ?_ ?_
  · constructor
    · intro slot found
      refine ⟨alive, ?_⟩
      rw [changed.newPos]
      refine (linked.newSlots slot ?_).2
      change (am.vvNew.set _ none)[slot]? = _ at found
      rw [List.getElem?_set] at found
      split at found
      · split at found <;> cases found
      · exact found
    · exact fun _ => alive
    · intro _
      rw [self]
      change (am.entry id).refCount - 1 = ((am.vvNew.set _ none).count (some id) : Int)
      omega
    · intro _
      rw [self]
      exact linked.triedRefs live
    · intro _
      rw [self]
      exact (Int.sub_le_self _ (by decide)).trans (linked.few live)
    · intro _ tried
      rw [self] at tried
      rw [linked.isNew here] at tried
      cases tried
    · intro _ _ free
      exact absurd List.mem_cons_self free
  · rw [AddrMan.release, setNewSlot]
    exact tabled.triedNumber.trans (congrArg _ (numberOf_modifyEntry inside rfl rfl).symm)
  · rw [AddrMan.release, setNewSlot]
    exact tabled.newNumber.trans
      (congrArg (fun n : Nat => (n : Int) + shift) (numberOf_modifyEntry inside rfl rfl).symm)

theorem Tabled.occupy (tabled : am.Tabled hash256 (id :: held) shift)
    (bucketInside : bucket < newBucketCount) (position : pos = am.newPos hash256 id bucket)
    (free : am.newSlot bucket pos = none) (live : am.Live id) (new : (am.entry id).inTried = false)
    (room : (am.entry id).refCount < newBucketsPerAddress)
    : (am.occupy id bucket pos).Tabled hash256 held shift := by
  have posInside : pos < bucketSize := position ▸ newPos_lt hash256 am id bucket
  have slotInside : slotIndex bucket pos < am.vvNew.length :=
    tabled.newSize ▸ slotIndex_lt bucketInside posInside
  have here : am.vvNew[slotIndex bucket pos]? = some none := by
    rw [newSlot, List.getD_eq_getElem?_getD, List.getElem?_eq_getElem slotInside] at free
    rw [List.getElem?_eq_getElem slotInside]
    exact congrArg some free
  have linked := tabled.linked id
  have inside := tabled.live_lt live
  have changed : Changed am (am.occupy id bucket pos) id :=
    (changed_modifyEntry inside rfl).setNewSlot _ _ _
  have self := entry_occupy inside bucket pos id
  rw [if_pos rfl] at self
  have alive : (am.occupy id bucket pos).Live id := by
    rw [Live, self]
    exact live
  have count := count_set here (some id) (some id)
  rw [if_neg (by simp), if_pos (by simp)] at count
  have refs := linked.newRefs live
  have touches : Touches id am.vvNew (am.occupy id bucket pos).vvNew := Touches.fill here
  refine tabled.change changed touches (Touches.refl _ _) ?_ ?_ tabled.triedTotal ?_ ?_
  · constructor
    · intro slot found
      refine ⟨alive, ?_⟩
      rw [changed.newPos]
      change (am.vvNew.set _ (some id))[slot]? = _ at found
      rw [List.getElem?_set] at found
      split at found
      · rename_i same
        rw [← same, slotIndex_mod posInside, slotIndex_div posInside, position]
      · exact (linked.newSlots slot found).2
    · exact fun _ => alive
    · intro _
      rw [self]
      change (am.entry id).refCount + 1 = ((am.vvNew.set _ (some id)).count (some id) : Int)
      omega
    · intro _
      rw [self]
      exact linked.triedRefs live
    · intro _
      rw [self]
      exact room
    · intro _ tried
      rw [self] at tried
      rw [new] at tried
      cases tried
    · intro _ _ _
      rw [self]
      dsimp only
      omega
  · intro other differs member
    exact (List.mem_cons.mp member).resolve_left differs
  · rw [AddrMan.occupy, setNewSlot]
    exact tabled.triedNumber.trans (congrArg _ (numberOf_modifyEntry inside rfl rfl).symm)
  · rw [AddrMan.occupy, setNewSlot]
    exact tabled.newNumber.trans
      (congrArg (fun n : Nat => (n : Int) + shift) (numberOf_modifyEntry inside rfl rfl).symm)

-- Entries going out of use and between the tables

/-- An entry without slots goes out of use. -/
def retire (am : AddrMan) (id : Nat) : AddrMan :=
  { am.modifyEntry id fun info => { info with used := false } with newCount := am.newCount - 1 }

/-- A tried entry loses its slot. -/
def demote (am : AddrMan) (id bucket pos : Nat) : AddrMan :=
  { (am.modifyEntry id fun info => { info with inTried := false }).setTriedSlot bucket pos none with
    triedCount := am.triedCount - 1 }

/-- A new entry without slots gets one of the tried table. -/
def promote (am : AddrMan) (id bucket pos : Nat) : AddrMan :=
  { (am.modifyEntry id fun info => { info with inTried := true }).setTriedSlot bucket pos
      (some id) with
    triedCount := am.triedCount + 1 }

theorem Tabled.addNewCount (tabled : am.Tabled hash256 held shift) (amount : Int)
    : { am with newCount := am.newCount + amount }.Tabled hash256 held (shift + amount) :=
  { tabled with
    linked := fun id =>
      let linked := tabled.linked id
      ⟨linked.newSlots, linked.triedSlots, linked.newRefs, linked.triedRefs, linked.few,
        linked.apart, linked.placed⟩
    newNumber := by
      have number := tabled.newNumber
      change am.newCount + amount = (am.numberOf (fun info => !info.inTried) : Int) + (shift + amount)
      omega }

theorem not_mem_vvNew (linked : am.Linked hash256 held id) (live : am.Live id)
    (none : (am.entry id).refCount = 0)
    : some id ∉ am.vvNew := by
  have refs := linked.newRefs live
  intro member
  have positive := List.count_pos_iff.mpr member
  omega

theorem not_mem_vvTried (linked : am.Linked hash256 held id) (live : am.Live id)
    (new : (am.entry id).inTried = false)
    : some id ∉ am.vvTried := by
  have refs := linked.triedRefs live
  intro member
  have positive := List.count_pos_iff.mpr member
  rw [new, if_neg Bool.false_ne_true] at refs
  omega

theorem Tabled.retire (tabled : am.Tabled hash256 (id :: held) shift) (live : am.Live id)
    (new : (am.entry id).inTried = false) (none : (am.entry id).refCount = 0)
    : (am.retire id).Tabled hash256 held shift := by
  have linked := tabled.linked id
  have inside := tabled.live_lt live
  have moved : Changed am (am.modifyEntry id fun info => { info with used := false }) id :=
    changed_modifyEntry inside rfl
  have changed : Changed am (am.retire id) id :=
    ⟨moved.nKey, moved.idCount, moved.capacity, moved.others, moved.svc⟩
  have self : (am.retire id).entry id = { am.entry id with used := false } :=
    entry_modifyEntry_self inside _
  have idle : ¬ (am.retire id).Live id := by
    rw [Live, self]
    simp
  have triedNumber := changed.numberOf live.1 inTried_reads
  have newNumber := changed.numberOf live.1 isNew_reads
  rw [self, new, live.2] at triedNumber newNumber
  refine tabled.change changed (Touches.refl _ _) (Touches.refl _ _) ?_ ?_ tabled.triedTotal ?_ ?_
  · constructor
    · intro slot read
      have member : some id ∈ am.vvNew := List.mem_of_getElem? read
      exact absurd member (not_mem_vvNew linked live none)
    · intro member
      have listed : some id ∈ am.vvTried := member
      exact absurd listed (not_mem_vvTried linked live new)
    all_goals exact fun alive => absurd alive idle
  · intro other differs member
    exact (List.mem_cons.mp member).resolve_left differs
  · have number := tabled.triedNumber
    change am.triedCount = _
    simp only [Bool.false_and, Bool.toNat_false, Nat.add_zero] at triedNumber
    omega
  · have number := tabled.newNumber
    simp only [Bool.not_false, Bool.and_true, Bool.toNat_true, Bool.and_false, Bool.toNat_false]
      at newNumber
    change am.newCount - 1 = _
    omega

theorem Tabled.demote (tabled : am.Tabled hash256 held shift)
    (read : am.triedSlot bucket pos = some id)
    : (am.demote id bucket pos).Tabled hash256 (id :: held) (shift - 1) := by
  have here := triedSlot_eq_some.mp read
  have member : some id ∈ am.vvTried := List.mem_of_getElem? here
  have linked := tabled.linked id
  have live := linked.triedSlots member
  have inside := tabled.live_lt live
  have tried : (am.entry id).inTried = true := by
    by_contra new
    exact not_mem_vvTried linked live (Bool.not_eq_true _ ▸ new) member
  have moved : Changed am (am.modifyEntry id fun info => { info with inTried := false }) id :=
    changed_modifyEntry inside rfl
  have changed : Changed am (am.demote id bucket pos) id :=
    ⟨moved.nKey, moved.idCount, moved.capacity, moved.others, moved.svc⟩
  have self : (am.demote id bucket pos).entry id = { am.entry id with inTried := false } :=
    entry_modifyEntry_self inside _
  have alive : (am.demote id bucket pos).Live id := by
    rw [Live, self]
    exact live
  have count := count_set here none (some id)
  rw [if_pos (by simp), if_neg (by simp), linked.triedRefs live, if_pos tried] at count
  have total := countP_set here none Option.isSome
  have triedNumber := changed.numberOf live.1 inTried_reads
  have newNumber := changed.numberOf live.1 isNew_reads
  rw [self, tried, live.2] at triedNumber newNumber
  simp only [Bool.not_false, Bool.not_true, Bool.and_true, Bool.toNat_true, Bool.toNat_false,
    Option.isSome_some, Option.isSome_none] at triedNumber newNumber total
  have touches : Touches id am.vvTried (am.demote id bucket pos).vvTried := Touches.free here
  refine tabled.change changed (Touches.refl _ _) touches ?_
    (fun other _ known => List.mem_cons_of_mem _ known) ?_ ?_ ?_
  · constructor
    · intro slot found
      exact ⟨alive, by rw [changed.newPos]; exact (linked.newSlots slot found).2⟩
    · exact fun _ => alive
    · intro _
      rw [self]
      exact linked.newRefs live
    · intro _
      rw [self]
      change (am.vvTried.set _ none).count (some id) = 0
      omega
    · intro _
      rw [self]
      exact linked.few live
    · intro _ still
      rw [self] at still
      cases still
    · intro _ _ free
      exact absurd List.mem_cons_self free
  · have before := tabled.triedTotal
    change am.triedCount - 1 = ((am.vvTried.set _ none).countP Option.isSome : Int)
    omega
  · have before := tabled.triedNumber
    change am.triedCount - 1 = _
    omega
  · have before := tabled.newNumber
    change am.newCount = _
    omega

theorem Tabled.promote (tabled : am.Tabled hash256 (id :: held) shift)
    (read : am.vvTried[slotIndex bucket pos]? = some none) (live : am.Live id)
    (new : (am.entry id).inTried = false) (none : (am.entry id).refCount = 0)
    : (am.promote id bucket pos).Tabled hash256 held (shift + 1) := by
  have linked := tabled.linked id
  have inside := tabled.live_lt live
  have moved : Changed am (am.modifyEntry id fun info => { info with inTried := true }) id :=
    changed_modifyEntry inside rfl
  have changed : Changed am (am.promote id bucket pos) id :=
    ⟨moved.nKey, moved.idCount, moved.capacity, moved.others, moved.svc⟩
  have self : (am.promote id bucket pos).entry id = { am.entry id with inTried := true } :=
    entry_modifyEntry_self inside _
  have alive : (am.promote id bucket pos).Live id := by
    rw [Live, self]
    exact live
  have count := count_set read (some id) (some id)
  rw [if_neg (by simp), if_pos (by simp), linked.triedRefs live, new,
    if_neg Bool.false_ne_true] at count
  have total := countP_set read (some id) Option.isSome
  have triedNumber := changed.numberOf live.1 inTried_reads
  have newNumber := changed.numberOf live.1 isNew_reads
  rw [self, new, live.2] at triedNumber newNumber
  simp only [Bool.not_false, Bool.not_true, Bool.and_true, Bool.toNat_true, Bool.toNat_false,
    Option.isSome_some, Option.isSome_none] at triedNumber newNumber total
  have touches : Touches id am.vvTried (am.promote id bucket pos).vvTried := Touches.fill read
  refine tabled.change changed (Touches.refl _ _) touches ?_ ?_ ?_ ?_ ?_
  · constructor
    · intro slot found
      exact ⟨alive, by rw [changed.newPos]; exact (linked.newSlots slot found).2⟩
    · exact fun _ => alive
    · intro _
      rw [self]
      exact linked.newRefs live
    · intro _
      rw [self]
      change (am.vvTried.set _ (some id)).count (some id) = 1
      omega
    · intro _
      rw [self]
      exact linked.few live
    · intro _ _
      rw [self]
      exact none
    · intro _ still
      rw [self] at still
      cases still
  · intro other differs member
    exact (List.mem_cons.mp member).resolve_left differs
  · have before := tabled.triedTotal
    change am.triedCount + 1 = ((am.vvTried.set _ (some id)).countP Option.isSome : Int)
    omega
  · have before := tabled.triedNumber
    change am.triedCount + 1 = _
    omega
  · have before := tabled.newNumber
    change am.newCount = _
    omega

end Tabled

end AddrMan

end Z23.Net
