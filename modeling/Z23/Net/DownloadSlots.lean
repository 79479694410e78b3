import Z23.Net.DownloadQset

/-!
The table of blocks in flight: open addressing where a settled slot keeps its hash, so that it
stays a passed cell of every search and serves as a tombstone of the body that arrived.
-/

namespace Z23.Net

open Z23.Lib.Tombstones

-- Data model and operations

/-- Models `struct dl_in_flight`. -/
structure InFlight where
  hash : Uint256
  height : Int
  peerId : UInt32
  requestTime : Int
  receivedTime : Int
  workClass : WorkClass
  active : Bool
deriving DecidableEq, Repr

/-- A zeroed slot. -/
def InFlight.blank : InFlight := ⟨Uint256.fill 0, 0, 0, 0, 0, .forward, false⟩

/-- The fields `slots` and `num_active`; `num_slots` is the number of slots. -/
structure SlotTable where
  slots : List InFlight
  numActive : Nat
deriving Repr

def initialSlots : Nat := 2048

namespace SlotTable

/-- The loop of `find_slot`, with the first reusable slot met so far. -/
def probeSlots (slots : List InFlight) (hash : Uint256) (findEmpty : Bool)
    : List Nat → Option Nat → Option Nat
  | [], firstEmpty => if findEmpty then firstEmpty else none
  | pos :: rest, firstEmpty =>
    match slots[pos]? with
    | none => none
    | some s =>
      if !s.active then
        let firstEmpty := firstEmpty.or (some pos)
        if s.hash.isNull then if findEmpty then firstEmpty else none
        else if s.hash = hash then some pos
        else probeSlots slots hash findEmpty rest firstEmpty
      else if s.hash = hash then some pos
      else probeSlots slots hash findEmpty rest firstEmpty

/-- Models `find_slot`. -/
def findSlot (t : SlotTable) (hash : Uint256) (findEmpty : Bool) : Option Nat :=
  probeSlots t.slots hash findEmpty (probes t.slots.length hash) none

/-- Models `dl_rehash`: the active slots move into a fresh table. -/
def rehash (slots : List InFlight) (newSize : Nat) : List InFlight :=
  slots.foldl
    (fun new s =>
      if !s.active then new
      else
        match vacancy InFlight.active new (probes newSize s.hash) with
        | none => new
        | some pos => new.set pos s)
    (List.replicate newSize .blank)

def maybeGrow (t : SlotTable) : SlotTable :=
  if t.numActive * 2 ≥ t.slots.length then
    { t with slots := rehash t.slots (t.slots.length * 2) }
  else if t.slots.length > initialSlots ∧ t.numActive * 4 < t.slots.length then
    { t with slots := rehash t.slots t.slots.length }
  else t

/-- Fill the slot found for a new request; `none` where `find_slot` finds no slot. -/
def activate (t : SlotTable) (s : InFlight) : Option SlotTable :=
  (t.findSlot s.hash true).map fun pos =>
    { slots := t.slots.set pos s, numActive := t.numActive + 1 }

/-- A slot gives up its request and keeps its hash. -/
def settle (t : SlotTable) (pos : Nat) (s : InFlight) : SlotTable :=
  { slots := t.slots.set pos { s with active := false }, numActive := t.numActive - 1 }

/-- The requests in flight. -/
def inFlight (t : SlotTable) : List InFlight := t.slots.filter InFlight.active

end SlotTable

/-- What a search reads in a slot. -/
def InFlight.mark (s : InFlight) : Mark Uint256 :=
  if !s.active && s.hash.isNull then .virgin else .key s.hash

-- Search

namespace SlotTable

theorem mark_of_active {s : InFlight} (active : s.active = true) : s.mark = .key s.hash := by
  simp [InFlight.mark, active]

theorem probeSlots_eq (slots : List InFlight) (hash : Uint256) (findEmpty : Bool)
    {route : List Nat} (within : ∀ pos ∈ route, pos < slots.length) (firstEmpty : Option Nat)
    : probeSlots slots hash findEmpty route firstEmpty
        = (seek (marksOf InFlight.mark slots) hash route).or
            (if findEmpty then firstEmpty.or (vacancy InFlight.active slots route) else none) := by
  induction route generalizing firstEmpty with
  | nil => simp [probeSlots, seek, vacancy]
  | cons pos rest ih =>
    have inside := within pos List.mem_cons_self
    have tail := ih (List.forall_mem_cons.mp within).2
    have read := List.getElem?_eq_getElem inside
    have mark : marksOf InFlight.mark slots pos = (slots[pos]).mark := by
      rw [marksOf, read, Option.elim_some]
    rw [probeSlots, read, seek, mark, vacancy, List.find?_cons, read]
    dsimp only
    generalize slots[pos] = s
    cases active : s.active with
    | true =>
      rw [mark_of_active active]
      simp only [Bool.not_true, Bool.false_eq_true, if_false, Option.any_some, active]
      by_cases same : s.hash = hash
      · simp [same]
      · simp only [same, if_false]
        exact tail firstEmpty
    | false =>
      simp only [Bool.not_false, if_true, Option.any_some, active]
      cases null : s.hash.isNull with
      | true =>
        have virgin : s.mark = .virgin := by simp [InFlight.mark, active, null]
        rw [virgin]
        simp
      | false =>
        have key : s.mark = .key s.hash := by simp [InFlight.mark, null]
        rw [key]
        by_cases same : s.hash = hash
        · simp [same]
        · simp only [same, if_false, Bool.false_eq_true]
          rw [tail]
          cases firstEmpty <;> simp

theorem findSlot_eq (t : SlotTable) (hash : Uint256) (findEmpty : Bool)
    : t.findSlot hash findEmpty
        = (seek (marksOf InFlight.mark t.slots) hash (probes t.slots.length hash)).or
            (if findEmpty then vacancy InFlight.active t.slots (probes t.slots.length hash)
              else none) := by
  rw [findSlot, probeSlots_eq _ _ _ fun _ => Qset.lt_of_mem_probes, Option.none_or]

theorem findSlot_false (t : SlotTable) (hash : Uint256)
    : t.findSlot hash false
        = seek (marksOf InFlight.mark t.slots) hash (probes t.slots.length hash) := by
  rw [findSlot_eq]
  simp

variable {pos : Nat}

theorem findSlot_lt {t : SlotTable} {hash : Uint256} {findEmpty : Bool}
    (found : t.findSlot hash findEmpty = some pos)
    : pos < t.slots.length := by
  rw [findSlot_eq, Option.or_eq_some_iff] at found
  rcases found with matched | ⟨-, free⟩
  · exact lt_of_mem_around (seek_mem matched)
  · split at free
    · exact (vacancy_spec free).1
    · cases free

-- The counter bounds the active slots, whatever was requested

/-- The table is at most half full by its counter, which is never below the active slots. -/
structure Counted (t : SlotTable) : Prop where
  power : ∃ bits, t.slots.length = 2 ^ (bits + 1)
  counted : t.slots.countP InFlight.active ≤ t.numActive
  half : t.numActive * 2 ≤ t.slots.length

variable {t : SlotTable}

theorem init_counted : Counted ⟨List.replicate initialSlots .blank, 0⟩ where
  power := ⟨10, List.length_replicate⟩
  counted := by simp [List.countP_replicate, InFlight.blank]
  half := Nat.zero_le _

theorem inFlight_length (t : SlotTable) : t.inFlight.length = t.slots.countP InFlight.active :=
  List.countP_eq_length_filter.symm

theorem filter_set_perm {slots : List InFlight} {old : InFlight} (read : slots[pos]? = some old)
    (new : InFlight)
    : ((old :: slots.set pos new).filter InFlight.active).Perm
        ((new :: slots).filter InFlight.active) :=
  (set_swap_perm read new).filter _

variable {new : List InFlight}

theorem move_perm {s : InFlight} {route : List Nat} (active : s.active = true)
    (free : vacancy InFlight.active new route = some pos)
    : ((new.set pos s).filter InFlight.active).Perm (s :: new.filter InFlight.active) := by
  obtain ⟨-, ⟨old, read, idle⟩, -⟩ := vacancy_spec free
  have swap := filter_set_perm read s
  rwa [List.filter_cons_of_neg (by simp [idle]), List.filter_cons_of_pos active] at swap

/-- Moving the active slots of a list into a roomy table loses none, and keeps them reachable while
their hashes are distinct. -/
theorem rehash_fold (bits : Nat) (slots : List InFlight) (size : new.length = 2 ^ bits)
    (roomy : new.countP InFlight.active + slots.countP InFlight.active ≤ new.length)
    : let after := slots.foldl
        (fun new s =>
          if !s.active then new
          else
            match vacancy InFlight.active new (probes (2 ^ bits) s.hash) with
            | none => new
            | some pos => new.set pos s)
        new
      let moved := slots.filter InFlight.active ++ new.filter InFlight.active
      after.length = new.length ∧ (after.filter InFlight.active).Perm moved
        ∧ (Reached (probes (2 ^ bits)) (marksOf InFlight.mark new) →
            (∀ cell ∈ new, cell.active = false → cell.hash.isNull = true) →
            (moved.map InFlight.hash).Nodup →
            Reached (probes (2 ^ bits)) (marksOf InFlight.mark after)) := by
  induction slots generalizing new with
  | nil => exact ⟨rfl, List.Perm.refl _, fun reached _ _ => reached⟩
  | cons s rest ih =>
    rw [List.foldl_cons]
    cases active : s.active with
    | false =>
      rw [List.countP_cons_of_neg (by simp [active])] at roomy
      rw [List.filter_cons_of_neg (by simp [active])]
      exact ih size roomy
    | true =>
      rw [List.countP_cons_of_pos active] at roomy
      obtain ⟨pos, free⟩ : ∃ pos, vacancy InFlight.active new (probes (2 ^ bits) s.hash)
          = some pos :=
        vacancy_exists (fun pos inside => mem_around rfl (size ▸ inside)) (by omega)
      have moved := move_perm active free
      have order := (moved.append_left (rest.filter InFlight.active)).trans List.perm_middle
      have count := moved.length_eq
      rw [List.length_cons, ← List.countP_eq_length_filter, ← List.countP_eq_length_filter] at count
      obtain ⟨length, perm, stays⟩ := @ih (new.set pos s) (by rw [List.length_set, size])
        (by rw [List.length_set]; omega)
      rw [free, List.filter_cons_of_pos active]
      refine ⟨length.trans List.length_set, perm.trans order, ?_⟩
      intro reached clean once
      have absent : ∀ at_, marksOf InFlight.mark new at_ ≠ .key s.hash := by
        intro at_ held
        obtain ⟨cell, read, key⟩ := marksOf_eq_key.mp held
        cases on : cell.active with
        | false =>
          rw [InFlight.mark, on, clean cell (List.mem_of_getElem? read) on] at key
          cases key
        | true =>
          rw [mark_of_active on, Mark.key.injEq] at key
          rw [List.cons_append, List.map_cons, List.nodup_cons, ← key] at once
          apply once.1
          apply List.mem_map_of_mem
          exact List.mem_append_right _
            (List.mem_filter.mpr ⟨List.mem_of_getElem? read, on⟩)
      refine stays (reached.fill ?_ absent ?_ free (mark_of_active active)) ?_
        ((order.map InFlight.hash).nodup_iff.mpr once)
      · intro cell on virgin
        rw [mark_of_active on] at virgin
        cases virgin
      · intro place member
        rw [size]
        exact Qset.lt_of_mem_probes member
      · intro cell member off
        rcases List.mem_or_eq_of_mem_set member with old | rfl
        · exact clean cell old off
        · rw [active] at off
          cases off

theorem marksOf_blank (count : Nat)
    : marksOf InFlight.mark (List.replicate count InFlight.blank) = fun _ => .virgin := by
  funext pos
  rw [marksOf, List.getElem?_replicate]
  split
  · rfl
  · rfl

theorem rehash_spec {slots : List InFlight} (bits : Nat)
    (roomy : slots.countP InFlight.active ≤ 2 ^ bits)
    : (rehash slots (2 ^ bits)).length = 2 ^ bits
        ∧ ((rehash slots (2 ^ bits)).filter InFlight.active).Perm (slots.filter InFlight.active)
        ∧ (((slots.filter InFlight.active).map InFlight.hash).Nodup →
            Reached (probes (2 ^ bits)) (marksOf InFlight.mark (rehash slots (2 ^ bits)))) := by
  have empty : (List.replicate (2 ^ bits) InFlight.blank).filter InFlight.active = [] := by
    simp [InFlight.blank]
  have none : (List.replicate (2 ^ bits) InFlight.blank).countP InFlight.active = 0 := by
    rw [List.countP_eq_length_filter, empty, List.length_nil]
  obtain ⟨length, perm, stays⟩ := rehash_fold bits slots List.length_replicate
    (by rw [none, List.length_replicate]; omega)
  rw [empty, List.append_nil] at perm stays
  refine ⟨length.trans List.length_replicate, perm, stays ?_ ?_⟩
  · rw [marksOf_blank]
    exact Reached.empty _
  · intro cell member _
    rw [List.eq_of_mem_replicate member]
    rfl

theorem Counted.maybeGrow (counted : Counted t)
    : Counted t.maybeGrow ∧ t.maybeGrow.numActive = t.numActive
        ∧ t.maybeGrow.numActive * 2 < t.maybeGrow.slots.length
        ∧ t.maybeGrow.inFlight.Perm t.inFlight := by
  obtain ⟨bits, power⟩ := counted.power
  have bound := counted.counted
  have half := counted.half
  have positive : 0 < 2 ^ (bits + 1) := Nat.two_pow_pos (bits + 1)
  have count : ∀ {slots : List InFlight},
      (slots.filter InFlight.active).Perm (t.slots.filter InFlight.active) →
      slots.countP InFlight.active ≤ t.numActive := by
    intro slots perm
    rw [List.countP_eq_length_filter, perm.length_eq, ← List.countP_eq_length_filter]
    exact bound
  have doubled : 2 ^ (bits + 1 + 1) = 2 ^ (bits + 1) * 2 := Nat.pow_succ 2 (bits + 1)
  rw [SlotTable.maybeGrow]
  split
  · rw [power, ← doubled]
    obtain ⟨length, perm, -⟩ :=
      rehash_spec (bits + 1 + 1) (by omega : t.slots.countP InFlight.active ≤ _)
    refine ⟨⟨⟨bits + 1, length⟩, count perm, ?_⟩, rfl, ?_, perm⟩ <;> dsimp only <;> omega
  · split
    · rw [power]
      obtain ⟨length, perm, -⟩ :=
        rehash_spec (bits + 1) (by omega : t.slots.countP InFlight.active ≤ _)
      refine ⟨⟨⟨bits, length⟩, count perm, ?_⟩, rfl, ?_, perm⟩ <;> dsimp only <;> omega
    · exact ⟨counted, rfl, by omega, List.Perm.refl _⟩

theorem Counted.activate (counted : Counted t) (idle : t.numActive * 2 < t.slots.length)
    (s : InFlight)
    : ∃ after, t.activate s = some after ∧ Counted after
        ∧ after.numActive = t.numActive + 1 := by
  obtain ⟨bits, power⟩ := counted.power
  have bound := counted.counted
  obtain ⟨free, vacant⟩ : ∃ pos, vacancy InFlight.active t.slots (probes t.slots.length s.hash)
      = some pos :=
    vacancy_exists (fun pos inside => mem_around power inside) (by omega)
  obtain ⟨pos, found⟩ : ∃ pos, t.findSlot s.hash true = some pos := by
    rw [findSlot_eq, if_pos rfl, vacant]
    cases seek (marksOf InFlight.mark t.slots) s.hash (probes t.slots.length s.hash) with
    | none => exact ⟨free, rfl⟩
    | some pos => exact ⟨pos, rfl⟩
  have inside := findSlot_lt found
  refine ⟨_, by rw [SlotTable.activate, found, Option.map_some], ⟨⟨bits, ?_⟩, ?_, ?_⟩, rfl⟩
  · rw [List.length_set, power]
  · have swap := (set_swap_perm (List.getElem?_eq_getElem inside) s).countP_eq InFlight.active
    rw [List.countP_cons, List.countP_cons] at swap
    dsimp only
    split at swap <;> split at swap <;> omega
  · have even : 2 ^ (bits + 1) = 2 ^ bits * 2 := Nat.pow_succ 2 bits
    rw [List.length_set]
    dsimp only
    omega

@[simp]
theorem settle_numActive (t : SlotTable) (pos : Nat) (s : InFlight)
    : (t.settle pos s).numActive = t.numActive - 1 :=
  rfl

theorem settle_perm {s : InFlight} (read : t.slots[pos]? = some s) (active : s.active = true)
    (change : InFlight)
    : t.inFlight.Perm (s :: (t.settle pos change).inFlight) := by
  have swap := filter_set_perm read { change with active := false }
  rw [List.filter_cons_of_pos active, List.filter_cons_of_neg (by simp)] at swap
  exact swap.symm

theorem Counted.settle (counted : Counted t) {s : InFlight} (read : t.slots[pos]? = some s)
    (active : s.active = true) (change : InFlight)
    : Counted (t.settle pos change) := by
  obtain ⟨bits, power⟩ := counted.power
  have bound := counted.counted
  have half := counted.half
  have count := (settle_perm read active change).length_eq
  rw [List.length_cons, inFlight_length, inFlight_length] at count
  have cells : (t.settle pos change).slots.length = t.slots.length := List.length_set
  have fewer := t.settle_numActive pos change
  exact ⟨⟨bits, cells.trans power⟩, by omega, by omega⟩

-- The table of distinct non-null hashes

/-- Every hash in the table is found in its only slot, and the counter is the number of active
slots. -/
structure Tracked (t : SlotTable) : Prop extends Counted t where
  reached : Reached (probes t.slots.length) (marksOf InFlight.mark t.slots)
  exactly : t.numActive = t.slots.countP InFlight.active
  nonNull : ∀ s ∈ t.slots, s.active = true → s.hash.isNull = false

theorem init_tracked : Tracked ⟨List.replicate initialSlots .blank, 0⟩ where
  toCounted := init_counted
  reached := by
    rw [marksOf_blank]
    exact Reached.empty _
  exactly := by simp [List.countP_replicate, InFlight.blank]
  nonNull := by simp [InFlight.blank]

theorem marksOf_of_active {s : InFlight} (read : t.slots[pos]? = some s) (active : s.active = true)
    : marksOf InFlight.mark t.slots pos = .key s.hash :=
  marksOf_eq_key.mpr ⟨s, read, mark_of_active active⟩

theorem Tracked.findSlot_iff (tracked : Tracked t) {hash : Uint256}
    : t.findSlot hash false = some pos ↔ marksOf InFlight.mark t.slots pos = .key hash := by
  rw [findSlot_false]
  exact tracked.reached.seek_eq_some_iff

theorem Tracked.findSlot_active (tracked : Tracked t) {s : InFlight} (read : t.slots[pos]? = some s)
    (active : s.active = true)
    : t.findSlot s.hash false = some pos :=
  tracked.findSlot_iff.mpr (marksOf_of_active read active)

theorem Tracked.nodup (tracked : Tracked t) : (t.inFlight.map InFlight.hash).Nodup := by
  refine List.pairwise_map.mpr (List.pairwise_filter.mpr (List.pairwise_iff_getElem.mpr ?_))
  intro i j iInside jInside lt activeI activeJ same
  have here := marksOf_of_active (List.getElem?_eq_getElem iInside) activeI
  have there := marksOf_of_active (List.getElem?_eq_getElem jInside) activeJ
  rw [← same] at there
  have equal := tracked.reached.unique i j _ here there
  omega

/-- A hash with no active slot is requested: the slot that still carries it, or the first idle
slot of its path, becomes active. -/
theorem Tracked.activate (tracked : Tracked t) (idle : t.numActive * 2 < t.slots.length)
    {s : InFlight} (active : s.active = true) (nonNull : s.hash.isNull = false)
    (fresh : ∀ other ∈ t.inFlight, other.hash ≠ s.hash)
    : ∃ after, t.activate s = some after ∧ Tracked after
        ∧ after.numActive = t.numActive + 1 ∧ after.inFlight.Perm (s :: t.inFlight) := by
  obtain ⟨after, done, counted, count⟩ := tracked.toCounted.activate idle s
  obtain ⟨pos, found, rfl⟩ : ∃ pos, t.findSlot s.hash true = some pos
      ∧ after = ⟨t.slots.set pos s, t.numActive + 1⟩ := by
    rw [SlotTable.activate, Option.map_eq_some_iff] at done
    obtain ⟨pos, found, made⟩ := done
    exact ⟨pos, found, made.symm⟩
  have inside := findSlot_lt found
  have read := List.getElem?_eq_getElem inside
  have key : s.mark = .key s.hash := mark_of_active active
  have usable : (t.slots[pos]).active = false
      ∧ Reached (probes t.slots.length) (marksOf InFlight.mark (t.slots.set pos s)) := by
    rw [findSlot_eq, if_pos rfl, Option.or_eq_some_iff] at found
    rcases found with matched | ⟨missed, free⟩
    · have held := seek_key matched
      have still : t.slots[pos].active = false := by
        rw [← Bool.not_eq_true]
        intro on
        have member : t.slots[pos] ∈ t.inFlight := List.mem_filter.mpr ⟨List.getElem_mem inside, on⟩
        rw [marksOf_of_active read on, Mark.key.injEq] at held
        exact fresh _ member held
      refine ⟨still, ?_⟩
      rw [marksOf_set InFlight.mark inside, key, ← held, Function.update_eq_self]
      exact tracked.reached
    · obtain ⟨-, ⟨old, here, off⟩, -⟩ := vacancy_spec free
      rw [read, Option.some.injEq] at here
      refine ⟨by rw [here, off], tracked.reached.fill ?_ ?_ ?_ free key⟩
      · intro cell on virgin
        rw [mark_of_active on] at virgin
        cases virgin
      · exact tracked.reached.seek_eq_none_iff.mp missed
      · exact fun _ => Qset.lt_of_mem_probes
  have perm : ((t.slots.set pos s).filter InFlight.active).Perm (s :: t.inFlight) := by
    have swap := filter_set_perm read s
    rwa [List.filter_cons_of_neg (by simp [usable.1]), List.filter_cons_of_pos active] at swap
  refine ⟨_, done, ⟨counted, ?_, ?_, ?_⟩, rfl, perm⟩
  · rw [List.length_set]
    exact usable.2
  · have length := perm.length_eq
    rw [List.length_cons, inFlight_length, ← List.countP_eq_length_filter] at length
    dsimp only
    rw [length, ← tracked.exactly]
  · intro other member on
    rcases List.mem_or_eq_of_mem_set member with old | rfl
    · exact tracked.nonNull other old on
    · exact nonNull

theorem Tracked.settle (tracked : Tracked t) {s change : InFlight} (read : t.slots[pos]? = some s)
    (active : s.active = true) (same : change.hash = s.hash)
    : Tracked (t.settle pos change) := by
  obtain ⟨inside, here⟩ := List.getElem?_eq_some_iff.mp read
  have nonNull : s.hash.isNull = false := tracked.nonNull s (List.mem_of_getElem? read) active
  have key : ({ change with active := false } : InFlight).mark = .key s.hash := by
    simp [InFlight.mark, same, nonNull]
  refine ⟨tracked.toCounted.settle read active change, ?_, ?_, ?_⟩
  · have marks : marksOf InFlight.mark (t.settle pos change).slots
        = marksOf InFlight.mark t.slots := by
      rw [SlotTable.settle, marksOf_set InFlight.mark inside, key, ← marksOf_of_active read active,
        Function.update_eq_self]
    have cells : (t.settle pos change).slots.length = t.slots.length := List.length_set
    rw [marks, cells]
    exact tracked.reached
  · have count := (settle_perm read active change).length_eq
    rw [List.length_cons, inFlight_length, inFlight_length] at count
    have fewer := t.settle_numActive pos change
    have exactly := tracked.exactly
    omega
  · intro other member on
    rcases List.mem_or_eq_of_mem_set member with old | rfl
    · exact tracked.nonNull other old on
    · cases on

-- Growing the table

theorem Tracked.rehash (tracked : Tracked t) {bits : Nat}
    (roomy : t.slots.countP InFlight.active ≤ 2 ^ (bits + 1)) (half : t.numActive * 2 ≤ 2 ^ (bits + 1))
    : Tracked { t with slots := rehash t.slots (2 ^ (bits + 1)) } := by
  obtain ⟨length, perm, stays⟩ := rehash_spec (bits + 1) roomy
  have exactly : t.numActive = (SlotTable.rehash t.slots (2 ^ (bits + 1))).countP InFlight.active := by
    rw [List.countP_eq_length_filter, perm.length_eq, ← List.countP_eq_length_filter]
    exact tracked.exactly
  refine ⟨⟨⟨bits, length⟩, exactly.ge, by rw [length]; exact half⟩, ?_, exactly, ?_⟩
  · rw [length]
    exact stays tracked.nodup
  · intro s member on
    have old := perm.mem_iff.mp (List.mem_filter.mpr ⟨member, on⟩)
    exact tracked.nonNull s (List.mem_of_mem_filter old) on

theorem Tracked.maybeGrow (tracked : Tracked t) : Tracked t.maybeGrow := by
  obtain ⟨bits, power⟩ := tracked.power
  have bound := tracked.counted
  have half := tracked.half
  have doubled : 2 ^ (bits + 1 + 1) = 2 ^ (bits + 1) * 2 := Nat.pow_succ 2 (bits + 1)
  rw [SlotTable.maybeGrow]
  split
  · rw [power, ← doubled]
    exact tracked.rehash (by omega) (by omega)
  · split
    · rw [power]
      exact tracked.rehash (by omega) (by omega)
    · exact tracked

end SlotTable

end Z23.Net
