import Mathlib.Data.List.Iterate
import Z23.Lib.TombTable

/-!
The open-addressing map from strings to pointers under the bounded cache. Probing wraps around a
power of two of slots and passes over tombstones; a put rehashes before the used slots reach
three quarters, and every allocation it asks for may be refused.
-/

namespace Z23.Commons

open Z23.Lib.Tombstones
open Z23.Lib.TombTable

-- Keys, hashes and slots

/-- A C string without its terminator. -/
abbrev Key := List UInt8

def zmapInitialCap : Nat := 16

def zmapMaxCap : Nat := 2 ^ 31

def zmapHashFnv1a (key : Key) : UInt64 :=
  key.foldl (fun h byte => (h ^^^ byte.toUInt64) * 1099511628211) 14695981039346656037

/-- A slot caches the hash beside its key, and both are compared. -/
abbrev Tag := UInt64 × Key

/-- The capacity is the number of slots; `live` is the size, `tombs` the tombstones. -/
abbrev ZMap (ν : Type) := Table Tag ν

/-- Which allocations of one call succeed: the key copy, the slots of the first rehash and those
of the fallback. -/
structure MapGrants where
  keyCopy : Bool
  slots : Bool
  fallback : Bool
deriving DecidableEq, Repr

namespace ZMap

variable {ν : Type}

def create : ZMap ν := Table.blank zmapInitialCap

def slotOf (tag : Tag) (mask : Nat) : Nat := tag.1.toNat &&& mask

/-- The slots a probe visits before it comes back to its first one. -/
def trail (m : ZMap ν) (tag : Tag) : List Nat :=
  List.iterate (fun i => (i + 1) &&& (m.slots.length - 1)) (slotOf tag (m.slots.length - 1))
    m.slots.length

/-- The slot of the key, or the first tombstone, else the empty slot that ends the probe. `none`
is a probe that goes around without an empty slot, and so for ever. -/
def findWalk (slots : List (Cell Tag ν)) (tag : Tag) : Option Nat → List Nat → Option Nat
  | _, [] => none
  | reuse, i :: rest =>
    match slots[i]? with
    | none => none
    | some .virgin => some (reuse.getD i)
    | some .tomb => findWalk slots tag (reuse.or (some i)) rest
    | some (.live stored _) => if stored = tag then some i else findWalk slots tag reuse rest

def findSlot (m : ZMap ν) (tag : Tag) : Option Nat := findWalk m.slots tag none (m.trail tag)

/-- One turn of the rehash loop: a live slot moves to the fresh table. -/
def moveSlot (fresh : ZMap ν) : Cell Tag ν → Option (ZMap ν)
  | .live tag value => do
    let dst ← findSlot fresh tag
    some { fresh with slots := fresh.slots.set dst (.live tag value) }
  | _ => some fresh

/-- The live slots go to a fresh table, in the order of the old one; the size is not touched. -/
def rehash (m : ZMap ν) (newCap : Nat) : Option (ZMap ν) :=
  m.slots.foldlM moveSlot
    { slots := List.replicate newCap .virgin, live := m.live, tombs := 0 }

/-- The capacity a put rehashes to: doubled only when the live slots alone would breach the
bound. -/
def newCap (m : ZMap ν) : Nat :=
  if (m.live + 1) * 4 ≥ m.slots.length * 3 then m.slots.length * 2 else m.slots.length

/-- The rehash of a put: at the wanted capacity, else at the present one. The inner `none` is a
refusal. -/
def makeRoom (m : ZMap ν) (grants : MapGrants) : Option (Option (ZMap ν)) :=
  if m.newCap ≤ zmapMaxCap ∧ grants.slots then (rehash m m.newCap).map some
  else if m.tombs = 0 ∨ m.newCap = m.slots.length ∨ !grants.fallback then some none
  else (rehash m m.slots.length).map some

/-- Write a new row into the slot a probe has found for it. -/
def fillSlot (m : ZMap ν) (s : Nat) (tag : Tag) (value : ν) : ZMap ν :=
  { slots := m.slots.set s (.live tag value)
    live := m.live + 1
    tombs := if (m.slots[s]?).any Cell.isTomb then m.tombs - 1 else m.tombs }

variable (hash : Key → UInt64)

/-- The put of a key that is not there, into the slot its probe has found: first the key copy,
then the rehash, then the slot. -/
def putNew (m : ZMap ν) (s : Nat) (tag : Tag) (value : ν) (grants : MapGrants)
    : Option (ZMap ν × Bool × Option ν) := do
  if !grants.keyCopy then some (m, false, none)
  else if (m.live + m.tombs + 1) * 4 ≥ m.slots.length * 3 then
    match ← makeRoom m grants with
    | none => some (m, false, none)
    | some roomy =>
      let s ← findSlot roomy tag
      some (fillSlot roomy s tag value, true, none)
  else some (fillSlot m s tag value, true, none)

/-- The map afterwards, whether the put succeeded, and the value it replaced. -/
def put (m : ZMap ν) (key : Key) (value : ν) (grants : MapGrants)
    : Option (ZMap ν × Bool × Option ν) := do
  let tag := (hash key, key)
  let s ← findSlot m tag
  match m.slots[s]? with
  | some (.live stored old) =>
    some ({ m with slots := m.slots.set s (.live stored value) }, true, some old)
  | _ => putNew m s tag value grants

/-- The slot that holds the key; the outer `none` is a probe that never ends. -/
def lookupWalk (slots : List (Cell Tag ν)) (tag : Tag) : List Nat → Option (Option Nat)
  | [] => none
  | i :: rest =>
    match slots[i]? with
    | none => none
    | some .virgin => some none
    | some .tomb => lookupWalk slots tag rest
    | some (.live stored _) =>
      if stored = tag then some (some i) else lookupWalk slots tag rest

def lookup (m : ZMap ν) (key : Key) : Option (Option Nat) :=
  if m.slots.length = 0 then some none
  else lookupWalk m.slots (hash key, key) (m.trail (hash key, key))

def get (m : ZMap ν) (key : Key) : Option (Option ν) := do
  let slot ← lookup hash m key
  some ((slot.bind fun s => m.slots[s]?).bind Cell.value?)

/-- The map afterwards and the value that left. -/
def erase (m : ZMap ν) (key : Key) : Option (ZMap ν × Option ν) := do
  match ← lookup hash m key with
  | none => some (m, none)
  | some s =>
    some ({ slots := m.slots.set s .tomb, live := m.live - 1, tombs := m.tombs + 1 },
      (m.slots[s]?).bind Cell.value?)

-- Probes

variable {hash} {m : ZMap ν} {tag : Tag}

theorem trail_eq {bits : Nat} (power : m.slots.length = 2 ^ bits) (tag : Tag)
    : m.trail tag = Table.probes slotOf m.slots.length tag := by
  rw [trail, ← List.range_map_iterate, Table.probes, around]
  apply List.map_congr_left
  intro i inside
  clear inside
  have mask : ∀ n, n &&& (m.slots.length - 1) = n % 2 ^ bits := by
    intro n
    rw [power, Nat.and_two_pow_sub_one_eq_mod]
  induction i with
  | zero => rw [Function.iterate_zero_apply, Nat.add_zero, slotOf, mask, mask, Nat.mod_mod]
  | succ i ih => rw [Function.iterate_succ_apply', ih, mask, mask, mask, Nat.mod_add_mod]; rfl

theorem virgin_later {slots : List (Cell Tag ν)} {i : Nat} {rest : List Nat}
    (ends : ∃ pos ∈ i :: rest, slots[pos]? = some .virgin) (used : slots[i]? ≠ some .virgin)
    : ∃ pos ∈ rest, slots[pos]? = some .virgin := by
  obtain ⟨pos, member, virgin⟩ := ends
  rcases List.mem_cons.mp member with rfl | behind
  · exact absurd virgin used
  · exact ⟨pos, behind, virgin⟩

theorem findWalk_absent {slots : List (Cell Tag ν)} {route : List Nat}
    (absent : ∀ pos ∈ route, marksOf Cell.mark slots pos ≠ .key tag)
    (ends : ∃ pos ∈ route, slots[pos]? = some .virgin) (within : ∀ pos ∈ route, pos < slots.length)
    (reuse : Option Nat)
    : findWalk slots tag reuse route = reuse.or (vacancy Cell.isLive slots route) := by
  induction route generalizing reuse with
  | nil =>
    obtain ⟨pos, member, -⟩ := ends
    cases member
  | cons i rest ih =>
    rw [List.forall_mem_cons] at absent within
    have read := List.getElem?_eq_getElem within.1
    have here := absent.1
    rw [marksOf, read, Option.elim_some] at here
    rw [findWalk, vacancy, List.find?_cons, read]
    have later := virgin_later ends
    rw [read] at later
    cases cell : slots[i] with
    | virgin => cases reuse <;> rfl
    | tomb =>
      rw [cell] at later
      have next := ih absent.2 (later (by simp)) within.2 (reuse.or (some i))
      cases reuse <;> exact next
    | live stored value =>
      rw [cell] at later here
      have next := ih absent.2 (later (by simp)) within.2 reuse
      simp only [Cell.mark, ne_eq, Mark.key.injEq] at here
      simp only [here, if_false, Cell.isLive, Option.any_some, Bool.not_true]
      exact next

theorem lookupWalk_eq {slots : List (Cell Tag ν)} {route : List Nat}
    (ends : ∃ pos ∈ route, slots[pos]? = some .virgin) (within : ∀ pos ∈ route, pos < slots.length)
    : lookupWalk slots tag route = some (seek (marksOf Cell.mark slots) tag route) := by
  induction route with
  | nil =>
    obtain ⟨pos, member, -⟩ := ends
    cases member
  | cons i rest ih =>
    rw [List.forall_mem_cons] at within
    have read := List.getElem?_eq_getElem within.1
    have later := virgin_later ends
    rw [read] at later
    rw [lookupWalk, seek, marksOf, read, Option.elim_some]
    cases cell : slots[i] with
    | virgin => rfl
    | tomb =>
      rw [cell] at later
      exact ih (later (by simp)) within.2
    | live stored value =>
      rw [cell] at later
      simp only [Cell.mark]
      split
      · rfl
      · exact ih (later (by simp)) within.2

-- What a map keeps

/-- The row of the table for a key: its hash is cached. -/
def entry (hash : Key → UInt64) (row : Key × ν) : Tag × ν := ((hash row.1, row.1), row.2)

/-- The map holds exactly the rows, and fewer than three quarters of its slots are used. -/
structure Keeps (hash : Key → UInt64) (m : ZMap ν) (rows : List (Key × ν)) : Prop where
  holds : m.Holds slotOf (rows.map (entry hash))
  spare : (m.live + m.tombs) * 4 < m.slots.length * 3
  bounded : m.slots.length ≤ zmapMaxCap

variable {rows rest : List (Key × ν)} {key : Key} {value : ν}

theorem mem_entries : ((hash key, key), value) ∈ rows.map (entry hash) ↔ (key, value) ∈ rows := by
  rw [List.mem_map]
  constructor
  · intro found
    obtain ⟨⟨stored, held⟩, member, same⟩ := found
    simp only [entry, Prod.mk.injEq] at same
    obtain ⟨⟨-, rfl⟩, rfl⟩ := same
    exact member
  · exact fun member => ⟨_, member, rfl⟩

theorem create_keeps : (create : ZMap ν).Keeps hash [] where
  holds := Table.Holds.blank 3
  spare := by simp [create, Table.blank, zmapInitialCap]
  bounded := by simp [create, Table.blank, zmapInitialCap, zmapMaxCap]

section Probes

variable {cells : List (Tag × ν)}

theorem findSlot_new (holds : m.Holds slotOf cells) (absent : ∀ value, (tag, value) ∉ cells)
    (spare : m.live + m.tombs < m.slots.length)
    : ∃ pos, m.findSlot tag = some pos
        ∧ vacancy Cell.isLive m.slots (Table.probes slotOf m.slots.length tag) = some pos := by
  obtain ⟨bits, power⟩ := holds.power
  have within : ∀ pos ∈ Table.probes slotOf m.slots.length tag, pos < m.slots.length :=
    fun pos member => lt_of_mem_around member
  have ends := holds.virgin_ahead spare tag
  have walk := findWalk_absent (fun pos _ => holds.absent_mark absent pos) ends within none
  obtain ⟨pos, member, virgin⟩ := ends
  obtain ⟨found, vacant⟩ :=
    @vacancy_exists _ m.slots Cell.isLive (Table.probes slotOf m.slots.length tag)
      (fun pos inside => mem_around power inside) (by rw [← holds.liveCount]; omega)
  refine ⟨found, ?_, vacant⟩
  rw [findSlot, trail_eq power, walk, vacant]
  rfl

theorem fillSlot_eq {pos : Nat}
    (vacant : vacancy Cell.isLive m.slots (Table.probes slotOf m.slots.length tag) = some pos)
    : m.fillSlot pos tag value = m.insertRaw slotOf tag value := by
  rw [fillSlot, Table.insertRaw, vacant]

theorem lookup_eq (keeps : m.Keeps hash rows) (key : Key)
    : m.lookup hash key
        = some (seek (marksOf Cell.mark m.slots) (hash key, key)
            (Table.probes slotOf m.slots.length (hash key, key))) := by
  obtain ⟨bits, power⟩ := keeps.holds.power
  have positive : m.slots.length ≠ 0 := by
    rw [power]
    exact (Nat.two_pow_pos _).ne'
  have spare := keeps.spare
  rw [lookup, if_neg positive, trail_eq power]
  exact lookupWalk_eq (keeps.holds.virgin_ahead (by omega) _) fun pos member =>
    lt_of_mem_around member

end Probes

-- Lookup and removal

section

variable (keeps : m.Keeps hash rows)
include keeps

theorem lookup_held (held : (key, value) ∈ rows) : ∃ pos, m.lookup hash key = some (some pos)
        ∧ m.slots[pos]? = some (.live (hash key, key) value) := by
  obtain ⟨pos, inside, here⟩ :=
    List.getElem_of_mem ((keeps.holds.listed _ _).mpr (mem_entries.mpr held))
  have read : m.slots[pos]? = some (.live (hash key, key) value) := by
    rw [List.getElem?_eq_getElem inside, here]
  refine ⟨pos, ?_, read⟩
  rw [lookup_eq keeps, keeps.holds.reached.seek_eq_some_iff.mpr
    (Table.marksOf_eq_key_iff.mpr ⟨_, read⟩)]

theorem lookup_absent (absent : ∀ value, (key, value) ∉ rows) : m.lookup hash key = some none := by
  have gone : ∀ value, ((hash key, key), value) ∉ rows.map (entry hash) := fun value member =>
    absent value (mem_entries.mp member)
  rw [lookup_eq keeps, keeps.holds.reached.seek_eq_none_iff.mpr (keeps.holds.absent_mark gone)]

theorem Keeps.get_held (held : (key, value) ∈ rows) : m.get hash key = some (some value) := by
  obtain ⟨pos, found, read⟩ := lookup_held keeps held
  simp [ZMap.get, found, read, Cell.value?]

theorem Keeps.get_absent (absent : ∀ value, (key, value) ∉ rows) : m.get hash key = some none := by
  simp [ZMap.get, lookup_absent keeps absent]

theorem Keeps.perm {other : List (Key × ν)} (same : rows.Perm other)
    : m.Keeps hash other :=
  { keeps with holds := keeps.holds.perm (same.map _) }

theorem Keeps.erase_held (parts : rows.Perm ((key, value) :: rest))
    : ∃ m', m.erase hash key = some (m', some value) ∧ m'.Keeps hash rest := by
  have held : (key, value) ∈ rows := parts.mem_iff.mpr List.mem_cons_self
  obtain ⟨pos, found, read⟩ := lookup_held keeps held
  obtain ⟨removed, width, load⟩ := keeps.holds.remove (parts.map (entry hash))
  have same : m.remove slotOf (hash key, key)
      = { slots := m.slots.set pos .tomb, live := m.live - 1, tombs := m.tombs + 1 } := by
    rw [lookup_eq keeps, Option.some.injEq] at found
    rw [Table.remove, Table.findSlot, found]
  have spare := keeps.spare
  refine ⟨m.remove slotOf (hash key, key), ?_, removed, ?_, ?_⟩
  · simp [ZMap.erase, found, read, same, Cell.value?]
  · rw [Table.load, Table.load] at load
    rwa [width, load]
  · rw [width]
    exact keeps.bounded

theorem Keeps.erase_absent (absent : ∀ value, (key, value) ∉ rows)
    : m.erase hash key = some (m, none) := by
  simp [ZMap.erase, lookup_absent keeps absent]

end

-- Rehashing

/-- The loop of a rehash over the slots still to be moved. The size in the map is that of the old
slots throughout; `t` is the fresh table with its own. -/
theorem rehash_loop {t : ZMap ν} {moved : List (Tag × ν)} (holds : t.Holds slotOf moved)
    (clean : t.tombs = 0) (size : Nat) (todo : List (Cell Tag ν))
    (once : ((todo.filterMap Cell.row? ++ moved).map Prod.fst).Nodup)
    (roomy : moved.length + (todo.filterMap Cell.row?).length < t.slots.length)
    : ∃ t' : ZMap ν,
        todo.foldlM moveSlot { slots := t.slots, live := size, tombs := 0 }
          = some { slots := t'.slots, live := size, tombs := 0 }
        ∧ t'.Holds slotOf (todo.filterMap Cell.row? ++ moved) ∧ t'.tombs = 0
        ∧ t'.slots.length = t.slots.length := by
  induction todo generalizing t moved with
  | nil => exact ⟨t, rfl, holds, clean, rfl⟩
  | cons cell rest ih =>
    cases cell with
    | virgin => exact ih holds clean once roomy
    | tomb => exact ih holds clean once roomy
    | live tag value =>
      change (((tag, value) :: (rest.filterMap Cell.row? ++ moved)).map Prod.fst).Nodup at once
      change moved.length + ((rest.filterMap Cell.row?).length + 1) < _ at roomy
      have absent : ∀ value, (tag, value) ∉ moved := by
        intro other member
        rw [List.map_cons, List.nodup_cons] at once
        exact once.1 (List.mem_map.mpr ⟨_, List.mem_append_right _ member, rfl⟩)
      have size' := holds.size
      obtain ⟨pos, found, vacant⟩ := findSlot_new holds absent (by omega)
      have inserted := holds.insertRaw absent (by omega) value
      have filled := @fillSlot_eq _ t tag value _ vacant
      have order : (rest.filterMap Cell.row? ++ (tag, value) :: moved).Perm
          ((tag, value) :: (rest.filterMap Cell.row? ++ moved)) := List.perm_middle
      have cleared : (t.insertRaw slotOf tag value).tombs = 0 := by
        rw [← filled, fillSlot, clean]
        exact ite_self 0
      obtain ⟨t', moves, holds', clean', width⟩ := ih inserted cleared
        ((order.map Prod.fst).nodup_iff.mpr once)
        (by rw [Table.insertRaw_length, List.length_cons]; omega)
      refine ⟨t', ?_, holds'.perm order, clean', width.trans (Table.insertRaw_length _ _ _)⟩
      have step : moveSlot { slots := t.slots, live := size, tombs := 0 } (.live tag value)
          = some { slots := (t.insertRaw slotOf tag value).slots, live := size, tombs := 0 } := by
        rw [← filled]
        change (findSlot t tag).bind _ = _
        rw [found]
        rfl
      rw [List.foldlM_cons, step]
      exact moves

theorem Keeps.rehash (keeps : m.Keeps hash rows) {bits : Nat} (roomy : m.live < 2 ^ (bits + 1))
    : ∃ m', m.rehash (2 ^ (bits + 1)) = some m' ∧ m'.Holds slotOf (rows.map (entry hash))
        ∧ m'.live = m.live ∧ m'.tombs = 0 ∧ m'.slots.length = 2 ^ (bits + 1) := by
  have cells := keeps.holds.cells_perm
  have start : (Table.blank (2 ^ (bits + 1)) : ZMap ν).Holds slotOf [] := Table.Holds.blank bits
  have width : (Table.blank (2 ^ (bits + 1)) : ZMap ν).slots.length = 2 ^ (bits + 1) :=
    List.length_replicate
  have counted : (m.slots.filterMap Cell.row?).length = m.live :=
    cells.length_eq.trans keeps.holds.size.symm
  obtain ⟨t, moves, holds, clean, same⟩ := rehash_loop start rfl m.live m.slots
    (by rw [List.append_nil]; exact (cells.map _).nodup_iff.mpr keeps.holds.once)
    (by rw [counted, width, List.length_nil]; omega)
  rw [List.append_nil] at holds
  have kept := holds.perm cells
  have size : t.live = m.live := kept.size.trans keeps.holds.size.symm
  have whole : ({ slots := t.slots, live := m.live, tombs := 0 } : ZMap ν) = t := by
    rw [← size, ← clean]
  refine ⟨t, moves.trans (congrArg some whole), kept, size, clean, same.trans width⟩

/-- What a put needs before it writes: the rows, and room for one more. -/
structure Roomy (hash : Key → UInt64) (m : ZMap ν) (rows : List (Key × ν)) : Prop where
  holds : m.Holds slotOf (rows.map (entry hash))
  spare : (m.live + m.tombs + 1) * 4 < m.slots.length * 3
  bounded : m.slots.length ≤ zmapMaxCap

/-- The wanted capacity of a rehash is a power of two with room for one more row. -/
theorem newCap_spec (keeps : m.Keeps hash rows)
    : ∃ bits, m.newCap = 2 ^ (bits + 1)
        ∧ (m.live + 1) * 4 < 2 ^ (bits + 1) * 3
        ∧ ((m.live + 1) * 4 < zmapMaxCap * 3 → 2 ^ (bits + 1) ≤ zmapMaxCap) := by
  obtain ⟨bits, power⟩ := keeps.holds.power
  have spare := keeps.spare
  have bounded := keeps.bounded
  have positive := Nat.two_pow_pos bits
  have doubled : 2 ^ (bits + 1) = 2 ^ bits * 2 := Nat.pow_succ 2 bits
  rw [newCap]
  split
  · rename_i short
    have wide : 2 ^ (bits + 1 + 1) = 2 ^ (bits + 1) * 2 := Nat.pow_succ 2 (bits + 1)
    refine ⟨bits + 1, by rw [power, wide], by omega, ?_⟩
    intro few
    by_contra beyond
    have above : 31 < bits + 1 + 1 := (Nat.pow_lt_pow_iff_right (by decide)).mp (Nat.not_le.mp beyond)
    have full : 2 ^ 31 ≤ 2 ^ (bits + 1) := Nat.pow_le_pow_right (by decide) (by omega)
    rw [zmapMaxCap] at few
    omega
  · exact ⟨bits, power, by omega, fun _ => power ▸ bounded⟩

theorem makeRoom_spec (keeps : m.Keeps hash rows) (grants : MapGrants)
    : ∃ outcome, m.makeRoom grants = some outcome
        ∧ (∀ m', outcome = some m' → Roomy hash m' rows)
        ∧ (grants.slots → (m.live + 1) * 4 < zmapMaxCap * 3 → outcome ≠ none) := by
  have spare := keeps.spare
  obtain ⟨bits, wanted, roomy, reach⟩ := newCap_spec keeps
  rw [makeRoom]
  split
  · rename_i granted
    obtain ⟨m', moved, holds, size, clean, width⟩ := @Keeps.rehash _ _ _ _ keeps bits (by omega)
    rw [wanted] at granted ⊢
    refine ⟨some m', by rw [moved]; rfl, ?_, fun _ _ => Option.some_ne_none _⟩
    intro found same
    cases same
    exact ⟨holds, by rw [size, clean, width]; omega, width ▸ granted.1⟩
  · rename_i refused
    split
    · refine ⟨none, rfl, ?_, ?_⟩
      · intro found same
        cases same
      intro granted few
      rw [wanted] at refused
      exact absurd ⟨reach few, granted⟩ refused
    · rename_i another
      -- growth is wanted only when there is no tombstone to give up
      simp only [not_or] at another
      obtain ⟨stones, other, -⟩ := another
      rw [newCap] at other
      split at other
      · omega
      · exact absurd rfl other

theorem Roomy.fill (roomy : Roomy hash m rows) (absent : ∀ value, (key, value) ∉ rows) (value : ν)
    : ∃ s cell, m.findSlot (hash key, key) = some s ∧ m.slots[s]? = some cell ∧ cell.isLive = false
        ∧ (m.fillSlot s (hash key, key) value).Keeps hash ((key, value) :: rows) := by
  have gone : ∀ value, ((hash key, key), value) ∉ rows.map (entry hash) := fun value member =>
    absent value (mem_entries.mp member)
  have spare := roomy.spare
  obtain ⟨pos, found, vacant⟩ := findSlot_new roomy.holds gone (by omega)
  obtain ⟨-, ⟨cell, read, idle⟩, -⟩ := vacancy_spec vacant
  have load := @Table.insertRaw_load _ _ slotOf m (hash key, key) value
  refine ⟨pos, cell, found, read, idle, ?_⟩
  rw [fillSlot_eq vacant]
  refine ⟨roomy.holds.insertRaw gone (by omega) value, ?_, ?_⟩
  · rw [Table.load, Table.load] at load
    rw [Table.insertRaw_length]
    omega
  · rw [Table.insertRaw_length]
    exact roomy.bounded

-- Insertion

theorem put_absent (keeps : m.Keeps hash rows) (absent : ∀ value, (key, value) ∉ rows) (value : ν)
    (grants : MapGrants)
    : ∃ s, m.findSlot (hash key, key) = some s
        ∧ m.put hash key value grants = putNew m s (hash key, key) value grants := by
  have gone : ∀ value, ((hash key, key), value) ∉ rows.map (entry hash) := fun value member =>
    absent value (mem_entries.mp member)
  have spare := keeps.spare
  obtain ⟨s, found, vacant⟩ := findSlot_new keeps.holds gone (by omega)
  obtain ⟨-, ⟨cell, read, idle⟩, -⟩ := vacancy_spec vacant
  refine ⟨s, found, ?_⟩
  simp only [put, found, read, Option.bind_eq_bind, Option.bind_some]
  cases cell with
  | live stored old => cases idle
  | virgin => rfl
  | tomb => rfl

theorem Keeps.put_new (keeps : m.Keeps hash rows) (absent : ∀ value, (key, value) ∉ rows)
    (value : ν) (grants : MapGrants)
    : (m.put hash key value grants = some (m, false, none)
          ∧ ¬ (grants.keyCopy ∧ grants.slots ∧ (rows.length + 1) * 4 < zmapMaxCap * 3))
        ∨ ∃ m', m.put hash key value grants = some (m', true, none)
            ∧ m'.Keeps hash ((key, value) :: rows) := by
  have size : m.live = rows.length := keeps.holds.size.trans (List.length_map _)
  obtain ⟨s, found, opened⟩ := put_absent keeps absent value grants
  rw [opened, putNew]
  cases copied : grants.keyCopy with
  | false => exact .inl ⟨rfl, by simp⟩
  | true =>
    simp only [Bool.not_true, Bool.false_eq_true, if_false, Option.bind_eq_bind]
    split
    · obtain ⟨outcome, made, roomy, granted⟩ := makeRoom_spec keeps grants
      rw [made, Option.bind_some]
      cases outcome with
      | none =>
        refine .inl ⟨rfl, ?_⟩
        intro all
        exact granted all.2.1 (size ▸ all.2.2) rfl
      | some m' =>
        obtain ⟨s', cell, found', -, -, kept⟩ := (roomy m' rfl).fill absent value
        refine .inr ⟨_, ?_, kept⟩
        simp only [found', Option.bind_some]
    · rename_i light
      have roomy : Roomy hash m rows := ⟨keeps.holds, by omega, keeps.bounded⟩
      obtain ⟨s', cell, found', -, -, kept⟩ := roomy.fill absent value
      rw [found] at found'
      cases found'
      exact .inr ⟨_, rfl, kept⟩

-- Replacement

theorem findWalk_found {slots : List (Cell Tag ν)} {tag : Tag} {route : List Nat} {pos : Nat}
    (found : lookupWalk slots tag route = some (some pos)) (reuse : Option Nat)
    : findWalk slots tag reuse route = some pos := by
  induction route generalizing reuse with
  | nil => cases found
  | cons i rest ih =>
    rw [lookupWalk] at found
    rw [findWalk]
    split at found
    · cases found
    · cases found
    · exact ih found _
    · rename_i stored _ _
      split at found
      · rename_i same
        rw [if_pos same]
        exact Option.some.inj found
      · rename_i differs
        rw [if_neg differs]
        exact ih found _

theorem Keeps.put_held (keeps : m.Keeps hash rows) {old : ν}
    (parts : rows.Perm ((key, old) :: rest)) (value : ν) (grants : MapGrants)
    : ∃ m', m.put hash key value grants = some (m', true, some old)
        ∧ m'.Keeps hash ((key, value) :: rest) := by
  have held : (key, old) ∈ rows := parts.mem_iff.mpr List.mem_cons_self
  obtain ⟨pos, found, read⟩ := lookup_held keeps held
  rw [lookup] at found
  split at found
  · cases found
  · have slot : m.findSlot (hash key, key) = some pos := findWalk_found found none
    refine ⟨{ m with slots := m.slots.set pos (.live (hash key, key) value) }, ?_, ?_, ?_, ?_⟩
    · simp [put, slot, read]
    · exact keeps.holds.replace (parts.map (entry hash)) read value
    · rw [List.length_set]
      exact keeps.spare
    · rw [List.length_set]
      exact keeps.bounded

-- Runs

inductive MapCall (ν : Type)
  | put (key : Key) (value : ν) (grants : MapGrants)
  | erase (key : Key)

/-- What a call answers: whether it succeeds, and the value that it replaces or takes out. -/
abbrev Answer (ν : Type) := Bool × Option ν

def call (hash : Key → UInt64) (m : ZMap ν) : MapCall ν → Option (ZMap ν × Answer ν)
  | .put key value grants => m.put hash key value grants
  | .erase key => (m.erase hash key).map fun (m, old) => (m, true, old)

def run (hash : Key → UInt64) (m : ZMap ν) : List (MapCall ν) → Option (ZMap ν × List (Answer ν))
  | [] => some (m, [])
  | c :: calls => do
    let (m, answer) ← call hash m c
    let (m, answers) ← run hash m calls
    some (m, answer :: answers)

def without (key : Key) (rows : List (Key × ν)) : List (Key × ν) :=
  rows.filter fun row => row.1 ≠ key

/--
The calls on a finite map as a list of rows. A put is refused only for a new key, and only where
an allocation fails or the map is full.
-/
inductive Does : MapCall ν → List (Key × ν) → Answer ν → List (Key × ν) → Prop
  | add {key : Key} {value : ν} {grants : MapGrants} {rows : List (Key × ν)}
    (absent : ∀ value, (key, value) ∉ rows)
    : Does (.put key value grants) rows (true, none) ((key, value) :: rows)
  | replace {key : Key} {value old : ν} {grants : MapGrants} {rows : List (Key × ν)}
    (held : (key, old) ∈ rows)
    : Does (.put key value grants) rows (true, some old) ((key, value) :: without key rows)
  | refuse {key : Key} {value : ν} {grants : MapGrants} {rows : List (Key × ν)}
    (absent : ∀ value, (key, value) ∉ rows)
    (short : ¬ (grants.keyCopy ∧ grants.slots ∧ (rows.length + 1) * 4 < zmapMaxCap * 3))
    : Does (.put key value grants) rows (false, none) rows
  | take {key : Key} {old : ν} {rows : List (Key × ν)} (held : (key, old) ∈ rows)
    : Does (.erase key) rows (true, some old) (without key rows)
  | miss {key : Key} {rows : List (Key × ν)} (absent : ∀ value, (key, value) ∉ rows)
    : Does (.erase key) rows (true, none) rows

inductive Runs : List (MapCall ν) → List (Key × ν) → List (Answer ν) → List (Key × ν) → Prop
  | nil {rows : List (Key × ν)} : Runs [] rows [] rows
  | cons {c : MapCall ν} {calls : List (MapCall ν)} {rows middle rows' : List (Key × ν)}
    {answer : Answer ν} {answers : List (Answer ν)} (first : Does c rows answer middle)
    (later : Runs calls middle answers rows')
    : Runs (c :: calls) rows (answer :: answers) rows'

theorem perm_without (once : (rows.map Prod.fst).Nodup) (held : (key, value) ∈ rows)
    : rows.Perm ((key, value) :: without key rows) := by
  have out : (key, value) ∉ without key rows := by simp [without]
  have rest : (without key rows).Nodup := once.of_map.filter _
  refine (List.perm_ext_iff_of_nodup once.of_map (List.nodup_cons.mpr ⟨out, rest⟩)).mpr ?_
  rintro ⟨key', value'⟩
  simp only [List.mem_cons, without, List.mem_filter, decide_eq_true_eq]
  constructor
  · intro member
    by_cases same : key' = key
    · exact .inl (List.inj_on_of_nodup_map once member held same)
    · exact .inr ⟨member, same⟩
  · rintro (same | ⟨member, -⟩)
    · exact same ▸ held
    · exact member

theorem Keeps.once (keeps : m.Keeps hash rows) : (rows.map Prod.fst).Nodup := by
  have tags := keeps.holds.once
  have split : (rows.map (entry hash)).map Prod.fst
      = (rows.map Prod.fst).map fun key => (hash key, key) := by
    rw [List.map_map, List.map_map]
    rfl
  rw [split] at tags
  exact tags.of_map

theorem Keeps.call (keeps : m.Keeps hash rows) (c : MapCall ν)
    : ∃ m' answer rows', m.call hash c = some (m', answer) ∧ Does c rows answer rows'
        ∧ m'.Keeps hash rows' := by
  cases c with
  | put key value grants =>
    by_cases held : ∃ old, (key, old) ∈ rows
    · obtain ⟨old, held⟩ := held
      obtain ⟨m', ran, kept⟩ := keeps.put_held (perm_without keeps.once held) value grants
      exact ⟨m', _, _, ran, .replace held, kept⟩
    · push Not at held
      rcases keeps.put_new held value grants with ⟨ran, short⟩ | ⟨m', ran, kept⟩
      · exact ⟨m, _, _, ran, .refuse held short, keeps⟩
      · exact ⟨m', _, _, ran, .add held, kept⟩
  | erase key =>
    by_cases held : ∃ old, (key, old) ∈ rows
    · obtain ⟨old, held⟩ := held
      obtain ⟨m', ran, kept⟩ := keeps.erase_held (perm_without keeps.once held)
      exact ⟨m', _, _, by rw [ZMap.call, ran]; rfl, .take held, kept⟩
    · push Not at held
      exact ⟨m, _, _, by rw [ZMap.call, keeps.erase_absent held]; rfl, .miss held, keeps⟩

theorem Keeps.run (keeps : m.Keeps hash rows) (calls : List (MapCall ν))
    : ∃ m' answers rows', m.run hash calls = some (m', answers) ∧ Runs calls rows answers rows'
        ∧ m'.Keeps hash rows' := by
  induction calls generalizing m rows with
  | nil => exact ⟨m, [], rows, rfl, .nil, keeps⟩
  | cons c calls ih =>
    obtain ⟨middle, answer, between, ran, first, kept⟩ := keeps.call c
    obtain ⟨m', answers, rows', rest, later, final⟩ := ih kept
    exact ⟨m', answer :: answers, rows', by simp [ZMap.run, ran, rest], .cons first later, final⟩

/--
Whatever the hash and whichever allocations fail, no probe of a run goes on for ever, the answers
are those of a finite map, and the map is that one afterwards.
-/
theorem zmapRun_refines (hash : Key → UInt64) (calls : List (MapCall ν))
    : ∃ m answers rows, (create : ZMap ν).run hash calls = some (m, answers)
        ∧ Runs calls [] answers rows ∧ (rows.map Prod.fst).Nodup ∧ m.live = rows.length
        ∧ ∀ key, ∃ held, m.get hash key = some held
          ∧ ∀ value, held = some value ↔ (key, value) ∈ rows := by
  have start : (create : ZMap ν).Keeps hash [] := create_keeps
  obtain ⟨m, answers, rows, ran, runs, keeps⟩ := start.run calls
  refine ⟨m, answers, rows, ran, runs, keeps.once, ?_, fun key => ?_⟩
  · exact keeps.holds.size.trans (List.length_map _)
  · by_cases held : ∃ value, (key, value) ∈ rows
    · obtain ⟨value, held⟩ := held
      refine ⟨some value, keeps.get_held held, fun value' => ?_⟩
      rw [Option.some.injEq]
      constructor
      · rintro rfl
        exact held
      · intro other
        exact (Prod.mk.inj (List.inj_on_of_nodup_map keeps.once held other rfl)).2
    · push Not at held
      exact ⟨none, keeps.get_absent held, fun value => by simp [held]⟩

end ZMap

end Z23.Commons
