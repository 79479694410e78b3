import Z23.Lib.TombTable
import Z23.Primitives

/-!
The membership set over the download queue: an open-addressed table of queued hashes with their
work class, with tombstones for removed hashes, rebuilt from the queue when it runs short of
virgin cells.
-/

namespace Z23.Net

open Z23.Lib.Tombstones
open Z23.Lib.TombTable (Cell Table)

-- Data model

/-- Models `enum dl_work_class`. -/
inductive WorkClass where
  | forward
  | history
deriving DecidableEq, Repr

/-- The three values of `state` in `struct dl_queued_key`. -/
inductive KeyState where
  | virgin
  | live
  | tomb
deriving DecidableEq, Repr

/-- Models `struct dl_queued_key`. -/
structure QueuedKey where
  hash : Uint256
  workClass : WorkClass
  state : KeyState
deriving DecidableEq, Repr

/-- A zeroed cell. -/
def QueuedKey.blank : QueuedKey := ⟨Uint256.fill 0, .forward, .virgin⟩

/-- The fields `qset`, `qset_live` and `qset_tombs` of the manager; `qset_slots` is the number
of cells. -/
structure Qset where
  slots : List QueuedKey
  live : Nat
  tombs : Nat
deriving Repr

def dlQueueMaxCap : Nat := 65536

def initialQsetSlots : Nat := 8192

/-- FNV-1a over the 32 bytes of a hash. -/
def hashSlot (hash : Uint256) (mask : Nat) : Nat :=
  let fnv : UInt64 := hash.data.foldl
    (fun fnv byte => (fnv ^^^ byte.toUInt64) * 1099511628211) 14695981039346656037
  fnv.toNat &&& mask

/-- The cells a search for `hash` visits in a table of `count` cells. -/
def probes (count : Nat) (hash : Uint256) : List Nat :=
  around (hashSlot hash (count - 1)) count

def QueuedKey.mark (e : QueuedKey) : Mark Uint256 :=
  match e.state with
  | .virgin => .virgin
  | .live => .key e.hash
  | .tomb => .dead

def QueuedKey.isLive (e : QueuedKey) : Bool := e.state = .live

def QueuedKey.isTomb (e : QueuedKey) : Bool := e.state = .tomb

-- Operations

namespace Qset

def findSlot (q : Qset) (hash : Uint256) : Option Nat :=
  seek (marksOf QueuedKey.mark q.slots) hash (probes q.slots.length hash)

def find (q : Qset) (hash : Uint256) : Option QueuedKey :=
  (q.findSlot hash).bind fun pos => q.slots[pos]?

def contains (q : Qset) (hash : Uint256) : Bool := (q.find hash).isSome

/-- The first cell that is not live takes the hash, whatever the table holds already. -/
def insertRaw (q : Qset) (hash : Uint256) (workClass : WorkClass) : Qset :=
  match vacancy QueuedKey.isLive q.slots (probes q.slots.length hash) with
  | none => q
  | some pos =>
    { slots := q.slots.set pos ⟨hash, workClass, .live⟩
      live := q.live + 1
      tombs := if (q.slots[pos]?).any QueuedKey.isTomb then q.tombs - 1 else q.tombs }

/-- Models `qset_rebuild`: a fresh table filled from the queue. -/
def rebuild (queue : List (Uint256 × WorkClass)) (newSlots : Nat) : Qset :=
  queue.foldl (fun q key => q.insertRaw key.1 key.2) ⟨List.replicate newSlots .blank, 0, 0⟩

def reserveOne (q : Qset) (queue : List (Uint256 × WorkClass)) : Qset :=
  if q.slots.length = 0 then q
  else if (q.live + q.tombs + 1) * 2 < q.slots.length then q
  else
    let want := if (q.live + 1) * 2 ≥ q.slots.length then q.slots.length * 2 else q.slots.length
    rebuild queue want

/-- The doubling loop of `dl_qset_reserve_n`; `fuel` bounds the turns. -/
def doubleUntil (need : Nat) : Nat → Nat → Nat
  | 0, want => want
  | fuel + 1, want => if need ≥ want then doubleUntil need fuel (want * 2) else want

def reserveN (q : Qset) (queue : List (Uint256 × WorkClass)) (nMore : Nat) : Qset :=
  if q.slots.length = 0 then q
  else
    let nMore := if nMore > dlQueueMaxCap * 2 then dlQueueMaxCap * 2 else nMore
    let need := (q.live + nMore + 1) * 2
    let want := doubleUntil need need q.slots.length
    if want = q.slots.length ∧ (q.live + q.tombs + nMore + 1) * 2 < q.slots.length then q
    else rebuild queue want

def remove (q : Qset) (hash : Uint256) : Qset :=
  match q.findSlot hash with
  | none => q
  | some pos =>
    match q.slots[pos]? with
    | none => q
    | some e =>
      { slots := q.slots.set pos { e with state := .tomb }
        live := q.live - 1
        tombs := q.tombs + 1 }

def clear (q : Qset) : Qset := ⟨List.replicate q.slots.length .blank, 0, 0⟩

end Qset

-- What the set holds

/-- The live cells are exactly the listed hashes with their class, each found by its search. -/
structure Qset.Holds (q : Qset) (members : List (Uint256 × WorkClass)) : Prop where
  power : ∃ bits, q.slots.length = 2 ^ (bits + 1)
  reached : Reached (probes q.slots.length) (marksOf QueuedKey.mark q.slots)
  listed : ∀ hash workClass, ⟨hash, workClass, .live⟩ ∈ q.slots ↔ (hash, workClass) ∈ members
  once : (members.map Prod.fst).Nodup
  size : q.live = members.length
  liveCount : q.live = q.slots.countP QueuedKey.isLive
  tombCount : q.tombs = q.slots.countP QueuedKey.isTomb

-- The set is a table of the library

def QueuedKey.cell (e : QueuedKey) : Cell Uint256 WorkClass :=
  match e.state with
  | .virgin => .virgin
  | .live => .live e.hash e.workClass
  | .tomb => .tomb

def Qset.table (q : Qset) : Table Uint256 WorkClass := ⟨q.slots.map QueuedKey.cell, q.live, q.tombs⟩

namespace Qset

variable {q : Qset} {members : List (Uint256 × WorkClass)} {hash : Uint256}

theorem lt_of_mem_probes {count pos : Nat} (member : pos ∈ probes count hash) : pos < count :=
  lt_of_mem_around member

theorem mark_eq_key {e : QueuedKey} {key : Uint256}
    : e.mark = .key key ↔ e.state = .live ∧ e.hash = key := by
  rw [QueuedKey.mark]
  split <;> simp_all

theorem cell_reads (e : QueuedKey)
    : e.cell.mark = e.mark ∧ e.cell.isLive = e.isLive ∧ e.cell.isTomb = e.isTomb := by
  rw [QueuedKey.cell, QueuedKey.mark, QueuedKey.isLive, QueuedKey.isTomb]
  cases e.state with
  | virgin => exact ⟨rfl, rfl, rfl⟩
  | live => exact ⟨rfl, rfl, rfl⟩
  | tomb => exact ⟨rfl, rfl, rfl⟩

theorem marksOf_table (q : Qset)
    : marksOf Cell.mark q.table.slots = marksOf QueuedKey.mark q.slots := by
  funext pos
  rw [marksOf, marksOf, table, List.getElem?_map]
  cases q.slots[pos]? with
  | none => rfl
  | some e => exact (cell_reads e).1

theorem live_mem_table {workClass : WorkClass}
    : .live hash workClass ∈ q.table.slots ↔ ⟨hash, workClass, .live⟩ ∈ q.slots := by
  rw [table, List.mem_map]
  refine ⟨?_, fun member => ⟨_, member, rfl⟩⟩
  rintro ⟨⟨hash', workClass', state⟩, member, same⟩
  cases state with
  | live =>
    cases same
    exact member
  | virgin => cases same
  | tomb => cases same

theorem holds_iff : q.Holds members ↔ q.table.Holds hashSlot members := by
  have cells : q.table.slots.length = q.slots.length := List.length_map _
  have live : q.table.slots.countP Cell.isLive = q.slots.countP QueuedKey.isLive := by
    rw [table, List.countP_map]
    exact List.countP_congr fun e _ => by rw [Function.comp, (cell_reads e).2.1]
  have tombs : q.table.slots.countP Cell.isTomb = q.slots.countP QueuedKey.isTomb := by
    rw [table, List.countP_map]
    exact List.countP_congr fun e _ => by rw [Function.comp, (cell_reads e).2.2]
  constructor
  · intro holds
    refine ⟨by rw [cells]; exact holds.power, ?_, fun _ _ => live_mem_table.trans (holds.listed _ _),
      holds.once, holds.size, holds.liveCount.trans live.symm, holds.tombCount.trans tombs.symm⟩
    rw [cells, marksOf_table]
    exact holds.reached
  · intro holds
    refine ⟨by rw [← cells]; exact holds.power, ?_,
      fun _ _ => live_mem_table.symm.trans (holds.listed _ _), holds.once, holds.size,
      holds.liveCount.trans live, holds.tombCount.trans tombs⟩
    rw [← cells, ← marksOf_table]
    exact holds.reached

theorem Holds.perm (holds : q.Holds members) {other : List (Uint256 × WorkClass)}
    (same : members.Perm other)
    : q.Holds other :=
  holds_iff.mpr ((holds_iff.mp holds).perm same)

theorem marksOf_eq_key_iff {pos : Nat}
    : marksOf QueuedKey.mark q.slots pos = .key hash
        ↔ ∃ workClass, q.slots[pos]? = some ⟨hash, workClass, .live⟩ := by
  rw [marksOf_eq_key]
  constructor
  · rintro ⟨e, read, held⟩
    obtain ⟨isLive, rfl⟩ := mark_eq_key.mp held
    exact ⟨e.workClass, by rw [read, ← isLive]⟩
  · rintro ⟨workClass, read⟩
    exact ⟨_, read, mark_eq_key.mpr ⟨rfl, rfl⟩⟩

theorem Holds.find_eq_some_iff (holds : q.Holds members) {e : QueuedKey}
    : q.find hash = some e ↔ e.state = .live ∧ e.hash = hash ∧ (hash, e.workClass) ∈ members := by
  rw [find, Option.bind_eq_some_iff]
  constructor
  · rintro ⟨pos, found, read⟩
    obtain ⟨workClass, here⟩ := marksOf_eq_key_iff.mp (seek_key found)
    rw [read, Option.some.injEq] at here
    subst here
    exact ⟨rfl, rfl, (holds.listed _ _).mp (List.mem_of_getElem? read)⟩
  · rintro ⟨isLive, rfl, member⟩
    obtain ⟨pos, inside, here⟩ := List.getElem_of_mem ((holds.listed _ _).mpr member)
    have read : q.slots[pos]? = some e := by
      rw [List.getElem?_eq_getElem inside, here, ← isLive]
    refine ⟨pos, holds.reached.seek_eq_some_iff.mpr ?_, read⟩
    exact marksOf_eq_key_iff.mpr ⟨e.workClass, by rw [read, ← isLive]⟩

theorem Holds.contains_iff (holds : q.Holds members)
    : q.contains hash = true ↔ ∃ workClass, (hash, workClass) ∈ members := by
  rw [contains, Option.isSome_iff_exists]
  constructor
  · rintro ⟨e, found⟩
    exact ⟨e.workClass, (holds.find_eq_some_iff.mp found).2.2⟩
  · rintro ⟨workClass, member⟩
    exact ⟨⟨hash, workClass, .live⟩, holds.find_eq_some_iff.mpr ⟨rfl, rfl, member⟩⟩

theorem Holds.contains_eq_false (holds : q.Holds members)
    (absent : ∀ workClass, (hash, workClass) ∉ members)
    : q.contains hash = false := by
  rw [← Bool.not_eq_true, holds.contains_iff]
  rintro ⟨workClass, member⟩
  exact absent workClass member

-- Insertion and removal

/-- The cells that are not virgin, as the counters have them. -/
def load (q : Qset) : Nat := q.live + q.tombs

theorem insertRaw_length (q : Qset) (hash : Uint256) (workClass : WorkClass)
    : (q.insertRaw hash workClass).slots.length = q.slots.length := by
  rw [insertRaw]
  split
  · rfl
  · exact List.length_set

theorem insertRaw_load (q : Qset) (hash : Uint256) (workClass : WorkClass)
    : (q.insertRaw hash workClass).load ≤ q.load + 1 := by
  rw [insertRaw]
  split
  · exact Nat.le_succ _
  · simp only [load]
    split <;> omega

theorem table_insertRaw (q : Qset) (hash : Uint256) (workClass : WorkClass)
    : (q.insertRaw hash workClass).table = q.table.insertRaw hashSlot hash workClass := by
  have same : vacancy Cell.isLive q.table.slots (Table.probes hashSlot q.table.slots.length hash) =
      vacancy QueuedKey.isLive q.slots (probes q.slots.length hash) := by
    simp only [vacancy, table, List.length_map, List.getElem?_map, Option.any_map]
    simp only [(cell_reads _).2.1]
    rfl
  rw [insertRaw, Table.insertRaw, same]
  cases vacancy QueuedKey.isLive q.slots (probes q.slots.length hash) with
  | none => rfl
  | some pos =>
    simp only [table, List.map_set, List.getElem?_map, Option.any_map, (cell_reads _).2.2]
    rfl

theorem Holds.insertRaw (holds : q.Holds members)
    (absent : ∀ workClass, (hash, workClass) ∉ members) (roomy : q.live < q.slots.length)
    (workClass : WorkClass)
    : (q.insertRaw hash workClass).Holds ((hash, workClass) :: members) := by
  rw [holds_iff, table_insertRaw]
  refine (holds_iff.mp holds).insertRaw absent ?_ workClass
  rwa [table, List.length_map]

theorem table_remove (q : Qset) (hash : Uint256)
    : (q.remove hash).table = q.table.remove hashSlot hash := by
  have same : q.table.findSlot hashSlot hash = q.findSlot hash := by
    rw [Table.findSlot, findSlot, marksOf_table, table, List.length_map]
    rfl
  rw [remove, Table.remove, same]
  cases found : q.findSlot hash with
  | none => rfl
  | some pos =>
    obtain ⟨e, read, -⟩ := marksOf_eq_key.mp (seek_key found)
    simp only [read, table, List.map_set]
    rfl

theorem Holds.remove_cons (holds : q.Holds members) {workClass : WorkClass}
    {rest : List (Uint256 × WorkClass)} (parts : members.Perm ((hash, workClass) :: rest))
    : (q.remove hash).Holds rest ∧ (q.remove hash).slots.length = q.slots.length
        ∧ (q.remove hash).load = q.load := by
  obtain ⟨after, cells, same⟩ := (holds_iff.mp holds).remove parts
  rw [← table_remove] at after cells same
  refine ⟨holds_iff.mpr after, ?_, same⟩
  rwa [table, table, List.length_map, List.length_map] at cells

-- Rebuilding

theorem table_blank (count : Nat)
    : (⟨List.replicate count .blank, 0, 0⟩ : Qset).table = Table.blank count := by
  rw [table, List.map_replicate]
  rfl

theorem Holds.empty (bits : Nat)
    : (⟨List.replicate (2 ^ (bits + 1)) .blank, 0, 0⟩ : Qset).Holds [] := by
  rw [holds_iff, table_blank]
  exact Table.Holds.blank bits

theorem table_insertAll (q : Qset) (keys : List (Uint256 × WorkClass))
    : (keys.foldl (fun q key => q.insertRaw key.1 key.2) q).table
        = keys.foldl (fun t key => t.insertRaw hashSlot key.1 key.2) q.table := by
  induction keys generalizing q with
  | nil => rfl
  | cons key rest ih => rw [List.foldl_cons, List.foldl_cons, ih, table_insertRaw]

theorem rebuild_holds {queue : List (Uint256 × WorkClass)} (once : (queue.map Prod.fst).Nodup)
    (bits : Nat) (roomy : queue.length ≤ 2 ^ (bits + 1))
    : (rebuild queue (2 ^ (bits + 1))).Holds queue
        ∧ (rebuild queue (2 ^ (bits + 1))).slots.length = 2 ^ (bits + 1)
        ∧ (rebuild queue (2 ^ (bits + 1))).load ≤ queue.length := by
  obtain ⟨same, after, capacity, bound⟩ := @Table.rebuild_holds _ _ hashSlot _ _ once bits roomy
  rw [← same, ← table_blank, ← table_insertAll] at after capacity bound
  exact ⟨holds_iff.mpr after, by rwa [table, List.length_map] at capacity, bound⟩

/-- At least half of the cells stay virgin after `more` further insertions. -/
def Roomy (q : Qset) (more : Nat) : Prop := (q.load + more) * 2 < q.slots.length

theorem Roomy.insertRaw {more : Nat} (roomy : q.Roomy (more + 1)) (hash : Uint256)
    (workClass : WorkClass)
    : (q.insertRaw hash workClass).Roomy more := by
  have step := insertRaw_load q hash workClass
  rw [Roomy, insertRaw_length]
  rw [Roomy] at roomy
  omega

theorem Roomy.mono {more less : Nat} (roomy : q.Roomy more) (le : less ≤ more) : q.Roomy less := by
  rw [Roomy] at roomy ⊢
  omega

theorem Roomy.live_lt {more : Nat} (roomy : q.Roomy more) : q.live < q.slots.length := by
  rw [Roomy, load] at roomy
  omega

theorem reserveOne_of_roomy (roomy : q.Roomy 1) (queue : List (Uint256 × WorkClass))
    : q.reserveOne queue = q := by
  rw [Roomy, load] at roomy
  simp only [reserveOne, if_pos roomy, ite_self]

theorem Holds.reserveOne {queue : List (Uint256 × WorkClass)} (holds : q.Holds queue)
    (roomy : q.Roomy 0)
    : (q.reserveOne queue).Holds queue ∧ (q.reserveOne queue).Roomy 1 := by
  by_cases enough : q.Roomy 1
  · rw [reserveOne_of_roomy enough]
    exact ⟨holds, enough⟩
  · obtain ⟨bits, power⟩ := holds.power
    have positive : 0 < 2 ^ bits := Nat.two_pow_pos bits
    have doubled : 2 ^ (bits + 1) = 2 ^ bits * 2 := Nat.pow_succ 2 bits
    have size := holds.size
    have nonempty : q.slots.length ≠ 0 := by omega
    rw [Roomy, load] at enough roomy
    rw [Qset.reserveOne, if_neg nonempty, if_neg enough]
    dsimp only
    split
    · have wide : 2 ^ (bits + 1 + 1) = 2 ^ (bits + 1) * 2 := Nat.pow_succ 2 (bits + 1)
      rw [power, ← wide]
      obtain ⟨after, capacity, bound⟩ := rebuild_holds holds.once (bits + 1) (by omega)
      refine ⟨after, ?_⟩
      rw [Roomy, capacity]
      omega
    · rename_i tombHeavy
      obtain ⟨after, capacity, bound⟩ := rebuild_holds holds.once bits (by omega)
      rw [power] at tombHeavy ⊢
      refine ⟨after, ?_⟩
      rw [Roomy, capacity]
      omega

theorem doubleUntil_spec (need : Nat) {fuel want : Nat} (enough : need < want * 2 ^ fuel)
    : need < doubleUntil need fuel want ∧ ∃ turns, doubleUntil need fuel want = want * 2 ^ turns := by
  induction fuel generalizing want with
  | zero => exact ⟨by simpa [doubleUntil] using enough, 0, by simp [doubleUntil]⟩
  | succ fuel ih =>
    rw [doubleUntil]
    split
    · have later : need < want * 2 * 2 ^ fuel := by
        rwa [Nat.mul_assoc, ← Nat.pow_succ']
      obtain ⟨above, turns, reaches⟩ := ih later
      exact ⟨above, turns + 1, by rw [reaches, Nat.mul_assoc, ← Nat.pow_succ']⟩
    · exact ⟨by omega, 0, by simp⟩

theorem Holds.reserveN {queue : List (Uint256 × WorkClass)} (holds : q.Holds queue) {nMore : Nat}
    (bounded : nMore ≤ dlQueueMaxCap * 2)
    : (q.reserveN queue nMore).Holds queue ∧ (q.reserveN queue nMore).Roomy (nMore + 1) := by
  obtain ⟨bits, power⟩ := holds.power
  have positive : 0 < 2 ^ (bits + 1) := Nat.two_pow_pos (bits + 1)
  have size := holds.size
  have nonempty : q.slots.length ≠ 0 := by omega
  rw [Qset.reserveN, if_neg nonempty]
  dsimp only
  rw [if_neg (Nat.not_lt.mpr bounded)]
  generalize needed : (q.live + nMore + 1) * 2 = need
  have enough : need < q.slots.length * 2 ^ need := by
    calc need < 2 ^ need := Nat.lt_two_pow_self
      _ ≤ q.slots.length * 2 ^ need := Nat.le_mul_of_pos_left _ (by omega)
  obtain ⟨above, turns, reaches⟩ := doubleUntil_spec need enough
  split
  · rename_i kept
    refine ⟨holds, ?_⟩
    rw [Roomy, load]
    omega
  · have wide : doubleUntil need need q.slots.length = 2 ^ (bits + turns + 1) := by
      rw [reaches, power, ← Nat.pow_add]
      congr 1
      omega
    rw [wide] at above ⊢
    obtain ⟨after, capacity, bound⟩ := rebuild_holds holds.once (bits + turns) (by omega)
    refine ⟨after, ?_⟩
    rw [Roomy, capacity]
    omega

theorem Holds.clear (holds : q.Holds members) : q.clear.Holds [] ∧ q.clear.Roomy 0 := by
  obtain ⟨bits, power⟩ := holds.power
  rw [Qset.clear, power]
  refine ⟨Holds.empty bits, ?_⟩
  simp [Roomy, load]

end Qset

end Z23.Net
