import Mathlib.Data.List.Nodup
import Z23.Lib.Tombstones

/-!
A table of keys with values over open addressing with tombstones. The table counts its live cells
and its tombstones; while their sum stays below the number of cells every search ends, and a
rebuild from the listed keys gives the tombstones up.
-/

namespace Z23.Lib.TombTable

open Z23.Lib.Tombstones

-- Tables

/-- A cell: never used, holding a key, or given up. -/
inductive Cell (κ ν : Type) where
  | virgin
  | live (key : κ) (value : ν)
  | tomb
deriving DecidableEq, Repr

structure Table (κ ν : Type) where
  slots : List (Cell κ ν)
  live : Nat
  tombs : Nat
deriving Repr

variable {κ ν : Type}

def Cell.mark : Cell κ ν → Mark κ
  | .virgin => .virgin
  | .live key _ => .key key
  | .tomb => .dead

def Cell.isLive : Cell κ ν → Bool
  | .live _ _ => true
  | _ => false

def Cell.isTomb : Cell κ ν → Bool
  | .tomb => true
  | _ => false

def Cell.value? : Cell κ ν → Option ν
  | .live _ value => some value
  | _ => none

def Cell.row? : Cell κ ν → Option (κ × ν)
  | .live key value => some (key, value)
  | _ => none

namespace Table

/-- The hash of a key under a mask is where its search starts. -/
def probes (hash : κ → Nat → Nat) (count : Nat) (key : κ) : List Nat :=
  around (hash key (count - 1)) count

variable (hash : κ → Nat → Nat)

def blank (count : Nat) : Table κ ν := ⟨List.replicate count .virgin, 0, 0⟩

def findSlot [DecidableEq κ] (t : Table κ ν) (key : κ) : Option Nat :=
  seek (marksOf Cell.mark t.slots) key (probes hash t.slots.length key)

def lookup [DecidableEq κ] (t : Table κ ν) (key : κ) : Option ν :=
  ((t.findSlot hash key).bind fun pos => t.slots[pos]?).bind Cell.value?

/-- The first cell that is not live takes the key, whatever the table holds already. -/
def insertRaw (t : Table κ ν) (key : κ) (value : ν) : Table κ ν :=
  match vacancy Cell.isLive t.slots (probes hash t.slots.length key) with
  | none => t
  | some pos =>
    { slots := t.slots.set pos (.live key value)
      live := t.live + 1
      tombs := if (t.slots[pos]?).any Cell.isTomb then t.tombs - 1 else t.tombs }

/-- A fresh table of `count` cells with the listed keys, the first value of each. -/
def rebuild [DecidableEq κ] (rows : List (κ × ν)) (count : Nat) : Table κ ν :=
  rows.foldl
    (fun t row => if (t.lookup hash row.1).isSome then t else t.insertRaw hash row.1 row.2)
    (blank count)

/-- Room for one more key at less than half load; `rows` is what a rebuild reads. -/
def reserveOne [DecidableEq κ] (t : Table κ ν) (rows : List (κ × ν)) : Table κ ν :=
  if t.slots.length = 0 then t
  else if (t.live + t.tombs + 1) * 2 < t.slots.length then t
  else
    rebuild hash rows
      (if (t.live + 1) * 2 ≥ t.slots.length then t.slots.length * 2 else t.slots.length)

def remove [DecidableEq κ] (t : Table κ ν) (key : κ) : Table κ ν :=
  match t.findSlot hash key with
  | none => t
  | some pos =>
    { slots := t.slots.set pos .tomb
      live := t.live - 1
      tombs := t.tombs + 1 }

-- What a table holds

/-- The live cells are exactly the listed rows, each found by its search. -/
structure Holds (t : Table κ ν) (rows : List (κ × ν)) : Prop where
  power : ∃ bits, t.slots.length = 2 ^ (bits + 1)
  reached : Reached (probes hash t.slots.length) (marksOf Cell.mark t.slots)
  listed : ∀ key value, .live key value ∈ t.slots ↔ (key, value) ∈ rows
  once : (rows.map Prod.fst).Nodup
  size : t.live = rows.length
  liveCount : t.live = t.slots.countP Cell.isLive
  tombCount : t.tombs = t.slots.countP Cell.isTomb

variable {hash} {t : Table κ ν} {rows : List (κ × ν)} {key : κ} {value : ν}

theorem Holds.perm (holds : t.Holds hash rows) {other : List (κ × ν)} (same : rows.Perm other)
    : t.Holds hash other where
  power := holds.power
  reached := holds.reached
  listed := fun key value => (holds.listed key value).trans same.mem_iff
  once := (same.map Prod.fst).nodup_iff.mp holds.once
  size := holds.size.trans same.length_eq
  liveCount := holds.liveCount
  tombCount := holds.tombCount

theorem marksOf_eq_key_iff {slots : List (Cell κ ν)} {pos : Nat}
    : marksOf Cell.mark slots pos = .key key ↔ ∃ value, slots[pos]? = some (.live key value) := by
  rw [marksOf_eq_key]
  constructor
  · rintro ⟨cell, read, held⟩
    cases cell with
    | live stored value =>
      cases held
      exact ⟨value, read⟩
    | virgin => cases held
    | tomb => cases held
  · rintro ⟨value, read⟩
    exact ⟨_, read, rfl⟩

theorem Holds.absent_mark (holds : t.Holds hash rows) (absent : ∀ value, (key, value) ∉ rows)
    (pos : Nat)
    : marksOf Cell.mark t.slots pos ≠ .key key := by
  intro held
  obtain ⟨value, read⟩ := marksOf_eq_key_iff.mp held
  exact absent value ((holds.listed _ _).mp (List.mem_of_getElem? read))

/-- A lookup reads the row of the key. -/
theorem Holds.lookup_eq_some_iff [DecidableEq κ] (holds : t.Holds hash rows)
    : t.lookup hash key = some value ↔ (key, value) ∈ rows := by
  rw [lookup, Option.bind_eq_some_iff]
  constructor
  · rintro ⟨cell, found, valued⟩
    obtain ⟨pos, sought, read⟩ := Option.bind_eq_some_iff.mp found
    obtain ⟨stored, here⟩ := marksOf_eq_key_iff.mp (seek_key sought)
    rw [read] at here
    cases here
    cases valued
    exact (holds.listed _ _).mp (List.mem_of_getElem? read)
  · intro member
    obtain ⟨pos, inside, here⟩ := List.getElem_of_mem ((holds.listed _ _).mpr member)
    have read : t.slots[pos]? = some (.live key value) := by
      rw [List.getElem?_eq_getElem inside, here]
    refine ⟨_, Option.bind_eq_some_iff.mpr ⟨pos, ?_, read⟩, rfl⟩
    exact holds.reached.seek_eq_some_iff.mpr (marksOf_eq_key_iff.mpr ⟨value, read⟩)

theorem Holds.lookup_eq_none_iff [DecidableEq κ] (holds : t.Holds hash rows)
    : t.lookup hash key = none ↔ ∀ value, (key, value) ∉ rows := by
  rw [Option.eq_none_iff_forall_ne_some]
  exact forall_congr' fun value => not_congr holds.lookup_eq_some_iff

theorem Holds.value_unique (holds : t.Holds hash rows) {value' : ν} (member : (key, value) ∈ rows)
    (member' : (key, value') ∈ rows)
    : value = value' := by
  have same := List.inj_on_of_nodup_map holds.once member member' rfl
  exact congrArg Prod.snd same

theorem mem_filterMap_row {slots : List (Cell κ ν)}
    : (key, value) ∈ slots.filterMap Cell.row? ↔ .live key value ∈ slots := by
  rw [List.mem_filterMap]
  constructor
  · intro found
    obtain ⟨cell, member, read⟩ := found
    cases cell with
    | live stored held =>
      cases read
      exact member
    | virgin => cases read
    | tomb => cases read
  · exact fun member => ⟨_, member, rfl⟩

theorem length_filterMap_row (slots : List (Cell κ ν))
    : (slots.filterMap Cell.row?).length = slots.countP Cell.isLive := by
  induction slots with
  | nil => rfl
  | cons cell rest ih =>
    cases cell with
    | live key value =>
      rw [List.countP_cons_of_pos rfl, ← ih]
      rfl
    | virgin => exact ih
    | tomb => exact ih

/-- The live cells in their own order are the rows in some order. -/
theorem Holds.cells_perm (holds : t.Holds hash rows)
    : (t.slots.filterMap Cell.row?).Perm rows := by
  have included : rows ⊆ t.slots.filterMap Cell.row? := fun row member =>
    mem_filterMap_row.mpr ((holds.listed _ _).mpr member)
  have counted : (t.slots.filterMap Cell.row?).length = rows.length := by
    rw [length_filterMap_row, ← holds.liveCount, holds.size]
  have inside := List.subperm_of_subset (List.Nodup.of_map _ holds.once) included
  exact (inside.perm_of_length_le counted.le).symm

-- Ends of searches

theorem countP_used (slots : List (Cell κ ν))
    : slots.countP (fun cell => cell.isLive || cell.isTomb)
        = slots.countP Cell.isLive + slots.countP Cell.isTomb := by
  induction slots with
  | nil => rfl
  | cons cell rest ih =>
    simp only [List.countP_cons, ih]
    cases cell <;> simp only [Cell.isLive, Cell.isTomb] <;> simp <;> omega

/-- While the counters leave a cell over, every search meets a virgin cell. -/
theorem Holds.virgin_ahead (holds : t.Holds hash rows) (spare : t.live + t.tombs < t.slots.length)
    (key : κ)
    : ∃ pos ∈ probes hash t.slots.length key, t.slots[pos]? = some .virgin := by
  obtain ⟨bits, power⟩ := holds.power
  have counted : t.slots.countP (fun cell => cell.isLive || cell.isTomb) < t.slots.length := by
    rwa [countP_used, ← holds.liveCount, ← holds.tombCount]
  obtain ⟨pos, found⟩ := vacancy_exists
    (fun pos inside => @mem_around (hash key (t.slots.length - 1)) _ _ _ power inside) counted
  obtain ⟨-, ⟨cell, read, unused⟩, -⟩ := vacancy_spec found
  refine ⟨pos, List.mem_of_find?_eq_some found, ?_⟩
  cases cell with
  | virgin => exact read
  | live key value => cases unused
  | tomb => cases unused

-- Insertion and removal

/-- The cells that are not virgin, as the counters have them. -/
def load (t : Table κ ν) : Nat := t.live + t.tombs

theorem insertRaw_length (t : Table κ ν) (key : κ) (value : ν)
    : (t.insertRaw hash key value).slots.length = t.slots.length := by
  rw [insertRaw]
  split
  · rfl
  · exact List.length_set

theorem insertRaw_load (t : Table κ ν) (key : κ) (value : ν)
    : (t.insertRaw hash key value).load ≤ t.load + 1 := by
  rw [insertRaw]
  split
  · exact Nat.le_succ _
  · simp only [load]
    split <;> omega

/-- A key the table does not hold is added while some cell is not live. -/
theorem Holds.insertRaw (holds : t.Holds hash rows) (absent : ∀ value, (key, value) ∉ rows)
    (roomy : t.live < t.slots.length) (value : ν)
    : (t.insertRaw hash key value).Holds hash ((key, value) :: rows) := by
  obtain ⟨bits, power⟩ := holds.power
  obtain ⟨pos, vacant⟩ : ∃ pos, vacancy Cell.isLive t.slots (probes hash t.slots.length key)
      = some pos :=
    vacancy_exists (fun pos inside => mem_around power inside) (holds.liveCount ▸ roomy)
  obtain ⟨inside, ⟨old, read, idle⟩, -⟩ := vacancy_spec vacant
  have swap := set_swap_perm read (Cell.live key value)
  have oldNotLive : ∀ key' value', old ≠ .live key' value' := by
    intro key' value' held
    rw [held] at idle
    cases idle
  rw [Table.insertRaw, vacant]
  constructor
  · exact ⟨bits, by rw [List.length_set, power]⟩
  · rw [List.length_set]
    refine holds.reached.fill ?_ (holds.absent_mark absent) (fun _ => lt_of_mem_around) vacant rfl
    intro cell isLive
    cases cell with
    | live stored value => simp [Cell.mark]
    | virgin => cases isLive
    | tomb => cases isLive
  · intro key' value'
    have mem := @List.Perm.mem_iff _ (.live key' value') _ _ swap
    rw [List.mem_cons, List.mem_cons, holds.listed, or_iff_right (oldNotLive _ _).symm] at mem
    simp only [mem, List.mem_cons, Prod.mk.injEq, Cell.live.injEq]
  · rw [List.map_cons, List.nodup_cons]
    refine ⟨?_, holds.once⟩
    intro member
    obtain ⟨⟨stored, value⟩, known, same⟩ := List.mem_map.mp member
    cases same
    exact absent value known
  · exact congrArg (· + 1) holds.size
  · have count := swap.countP_eq Cell.isLive
    rw [List.countP_cons_of_neg (by rw [idle]; exact Bool.false_ne_true),
      List.countP_cons_of_pos rfl] at count
    exact (congrArg (· + 1) holds.liveCount).trans count.symm
  · have count := swap.countP_eq Cell.isTomb
    rw [List.countP_cons, List.countP_cons_of_neg (by simp [Cell.isTomb])] at count
    simp only [read, Option.any_some, holds.tombCount]
    split
    · rename_i tomb
      rw [if_pos tomb] at count
      omega
    · rename_i virgin
      rw [if_neg virgin] at count
      omega

/-- Removal of a held key leaves a tombstone. -/
theorem Holds.remove [DecidableEq κ] {rest : List (κ × ν)} (holds : t.Holds hash rows)
    (parts : rows.Perm ((key, value) :: rest))
    : (t.remove hash key).Holds hash rest
        ∧ (t.remove hash key).slots.length = t.slots.length
        ∧ (t.remove hash key).load = t.load := by
  have member : (key, value) ∈ rows := parts.mem_iff.mpr List.mem_cons_self
  have once := (parts.map Prod.fst).nodup_iff.mp holds.once
  rw [List.map_cons, List.nodup_cons] at once
  obtain ⟨pos, inside, here⟩ := List.getElem_of_mem ((holds.listed _ _).mpr member)
  have read : t.slots[pos]? = some (.live key value) := by
    rw [List.getElem?_eq_getElem inside, here]
  have found : t.findSlot hash key = some pos :=
    holds.reached.seek_eq_some_iff.mpr (marksOf_eq_key_iff.mpr ⟨value, read⟩)
  have swap := set_swap_perm read (Cell.tomb : Cell κ ν)
  have size : t.live = rest.length + 1 := holds.size.trans parts.length_eq
  have gone : ∀ other, Cell.live key other ∉ t.slots.set pos .tomb := by
    intro other still
    obtain ⟨place, placeInside, there⟩ := List.getElem_of_mem still
    have readAt := List.getElem?_eq_getElem placeInside
    rw [there, List.getElem?_set] at readAt
    split at readAt
    · simp at readAt
    · rename_i differs
      exact differs (holds.reached.unique pos place key (marksOf_eq_key_iff.mpr ⟨_, read⟩)
        (marksOf_eq_key_iff.mpr ⟨_, readAt⟩))
  rw [Table.remove, found]
  refine ⟨?_, List.length_set, ?_⟩
  · constructor
    · obtain ⟨bits, power⟩ := holds.power
      exact ⟨bits, by rw [List.length_set, power]⟩
    · rw [List.length_set, marksOf_set Cell.mark inside]
      exact holds.reached.retire pos
    · intro key' value'
      by_cases same : key' = key
      · subst same
        refine ⟨fun still => absurd still (gone _), fun listed => ?_⟩
        exact absurd (List.mem_map.mpr ⟨_, listed, rfl⟩) once.1
      · have mem := @List.Perm.mem_iff _ (.live key' value') _ _ swap
        have memRows := @List.Perm.mem_iff _ (key', value') _ _ parts
        simp only [List.mem_cons, Cell.live.injEq, same, false_and, false_or, holds.listed,
          reduceCtorEq] at mem
        simp only [List.mem_cons, Prod.mk.injEq, same, false_and, false_or] at memRows
        rw [mem, memRows]
    · exact once.2
    · simp only [size, Nat.add_sub_cancel]
    · have count := swap.countP_eq Cell.isLive
      rw [List.countP_cons_of_pos rfl, List.countP_cons_of_neg (by simp [Cell.isLive])] at count
      dsimp only
      rw [holds.liveCount, ← count, Nat.add_sub_cancel]
    · have count := swap.countP_eq Cell.isTomb
      rw [List.countP_cons_of_neg (by simp [Cell.isTomb]), List.countP_cons_of_pos rfl] at count
      dsimp only
      rw [holds.tombCount, count]
  · simp only [load]
    omega

/-- A live cell takes another value for its key. -/
theorem Holds.replace {rest : List (κ × ν)} (holds : t.Holds hash rows)
    (parts : rows.Perm ((key, value) :: rest)) {pos : Nat}
    (read : t.slots[pos]? = some (.live key value)) (new : ν)
    : ({ t with slots := t.slots.set pos (.live key new) } : Table κ ν).Holds hash
        ((key, new) :: rest) := by
  obtain ⟨inside, -⟩ := List.getElem?_eq_some_iff.mp read
  have swap := set_swap_perm read (Cell.live key new)
  have once := (parts.map Prod.fst).nodup_iff.mp holds.once
  have marks : marksOf Cell.mark (t.slots.set pos (.live key new)) = marksOf Cell.mark t.slots := by
    rw [marksOf_set Cell.mark inside]
    refine Function.update_eq_self_iff.mpr ?_
    rw [marksOf, read]
    rfl
  have unique : ∀ other, Cell.live key other ∈ t.slots.set pos (.live key new) → other = new := by
    intro other still
    obtain ⟨place, readAt⟩ := List.mem_iff_getElem?.mp still
    have here : place = pos := holds.reached.unique place pos key
      (marks ▸ marksOf_eq_key_iff.mpr ⟨_, readAt⟩) (marksOf_eq_key_iff.mpr ⟨_, read⟩)
    rw [here, List.getElem?_set_self inside] at readAt
    cases readAt
    rfl
  constructor
  · simpa using holds.power
  · rw [List.length_set, marks]
    exact holds.reached
  · intro key' value'
    by_cases same : key' = key
    · subst same
      have gone : (key', value') ∉ rest := fun member =>
        (List.nodup_cons.mp once).1 (List.mem_map.mpr ⟨_, member, rfl⟩)
      simp only [List.mem_cons, gone, or_false, Prod.mk.injEq, true_and]
      refine ⟨unique value', ?_⟩
      rintro rfl
      exact List.mem_of_getElem? (List.getElem?_set_self inside)
    · have mem := @List.Perm.mem_iff _ (.live key' value') _ _ swap
      have memRows := @List.Perm.mem_iff _ (key', value') _ _ parts
      simp only [List.mem_cons, Cell.live.injEq, same, false_and, false_or, holds.listed] at mem
      simp only [List.mem_cons, Prod.mk.injEq, same, false_and, false_or] at memRows ⊢
      rw [mem, memRows]
  · exact once
  · exact holds.size.trans parts.length_eq
  · have count := swap.countP_eq Cell.isLive
    rw [List.countP_cons_of_pos rfl, List.countP_cons_of_pos rfl] at count
    dsimp only
    rw [holds.liveCount]
    omega
  · have count := swap.countP_eq Cell.isTomb
    rw [List.countP_cons_of_neg (by simp [Cell.isTomb]),
      List.countP_cons_of_neg (by simp [Cell.isTomb])] at count
    exact holds.tombCount.trans count.symm

-- Rebuilding

/-- At least half of the cells stay virgin after `more` further insertions. -/
def Roomy (t : Table κ ν) (more : Nat) : Prop := (t.load + more) * 2 < t.slots.length

theorem Holds.blank (bits : Nat) : (blank (2 ^ (bits + 1)) : Table κ ν).Holds hash [] := by
  have virgin : marksOf Cell.mark (List.replicate (2 ^ (bits + 1)) (Cell.virgin : Cell κ ν))
      = fun _ => .virgin := by
    funext pos
    rw [marksOf, List.getElem?_replicate]
    split <;> rfl
  constructor
  · exact ⟨bits, List.length_replicate⟩
  · exact virgin ▸ Reached.empty _
  · intro key value
    simp [Table.blank]
  · exact List.nodup_nil
  · rfl
  · simp [Table.blank, List.countP_replicate, Cell.isLive]
  · simp [Table.blank, List.countP_replicate, Cell.isTomb]

theorem Roomy.blank {bits : Nat} : (blank (2 ^ (bits + 1)) : Table κ ν).Roomy 0 := by
  rw [Roomy, load, Table.blank, List.length_replicate]
  exact Nat.two_pow_pos (bits + 1)

/-- Distinct new keys are added one after another, looked up before or not. -/
theorem Holds.insertAll [DecidableEq κ] (holds : t.Holds hash rows) (more : List (κ × ν))
    (once : ((more ++ rows).map Prod.fst).Nodup) (roomy : rows.length + more.length ≤ t.slots.length)
    : let after := more.foldl (fun t row => t.insertRaw hash row.1 row.2) t
      more.foldl
            (fun t row => if (t.lookup hash row.1).isSome then t else t.insertRaw hash row.1 row.2) t
          = after
        ∧ after.Holds hash (more ++ rows) ∧ after.slots.length = t.slots.length
        ∧ after.load ≤ t.load + more.length := by
  induction more generalizing t rows with
  | nil => exact ⟨rfl, holds, rfl, Nat.le_refl _⟩
  | cons row rest ih =>
    rw [List.length_cons] at roomy
    have absent : ∀ value, (row.1, value) ∉ rows := by
      intro value member
      rw [List.cons_append, List.map_cons, List.nodup_cons] at once
      apply once.1
      exact List.mem_map.mpr ⟨_, List.mem_append_right _ member, rfl⟩
    have missed : (t.lookup hash row.1).isSome = false := by
      rw [holds.lookup_eq_none_iff.mpr absent]
      rfl
    have inserted := holds.insertRaw absent (by rw [holds.size]; omega) row.2
    have order : (rest ++ (row.1, row.2) :: rows).Perm (row :: rest ++ rows) := List.perm_middle
    obtain ⟨same, after, capacity, bound⟩ := ih inserted ((order.map Prod.fst).nodup_iff.mpr once)
      (by rw [insertRaw_length, List.length_cons]; omega)
    rw [List.foldl_cons, List.foldl_cons, missed]
    refine ⟨same, after.perm order, capacity.trans (insertRaw_length _ _ _), ?_⟩
    have step := @insertRaw_load _ _ hash t row.1 row.2
    rw [List.length_cons]
    exact bound.trans (by omega)

theorem rebuild_holds [DecidableEq κ] (once : (rows.map Prod.fst).Nodup) (bits : Nat)
    (roomy : rows.length ≤ 2 ^ (bits + 1))
    : rows.foldl (fun t row => t.insertRaw hash row.1 row.2) (blank (2 ^ (bits + 1)))
          = rebuild hash rows (2 ^ (bits + 1))
        ∧ (rebuild hash rows (2 ^ (bits + 1))).Holds hash rows
        ∧ (rebuild hash rows (2 ^ (bits + 1))).slots.length = 2 ^ (bits + 1)
        ∧ (rebuild hash rows (2 ^ (bits + 1))).load ≤ rows.length := by
  have start : (blank (2 ^ (bits + 1)) : Table κ ν).Holds hash [] := Holds.blank bits
  have width : (blank (2 ^ (bits + 1)) : Table κ ν).slots.length = 2 ^ (bits + 1) :=
    List.length_replicate
  obtain ⟨same, filled⟩ := start.insertAll rows (by rwa [List.append_nil])
    (by rw [width, List.length_nil]; omega)
  rw [← same, List.append_nil, width] at filled
  refine ⟨same.symm, filled.1, filled.2.1, filled.2.2.trans ?_⟩
  simp [load, Table.blank]

/-- Reserving keeps the rows and leaves room for one more. -/
theorem Holds.reserveOne [DecidableEq κ] (holds : t.Holds hash rows) (roomy : t.Roomy 0)
    : (t.reserveOne hash rows).Holds hash rows ∧ (t.reserveOne hash rows).Roomy 1 := by
  obtain ⟨bits, power⟩ := holds.power
  have positive : 0 < 2 ^ bits := Nat.two_pow_pos bits
  have doubled : 2 ^ (bits + 1) = 2 ^ bits * 2 := Nat.pow_succ 2 bits
  have size := holds.size
  have nonempty : t.slots.length ≠ 0 := by omega
  rw [Roomy, load] at roomy
  rw [Table.reserveOne, if_neg nonempty]
  split
  · rename_i enough
    exact ⟨holds, by rwa [Roomy, load]⟩
  · rename_i short
    split
    · have wide : 2 ^ (bits + 1 + 1) = 2 ^ (bits + 1) * 2 := Nat.pow_succ 2 (bits + 1)
      rw [power, ← wide]
      obtain ⟨-, after, capacity, bound⟩ :=
        @rebuild_holds _ _ hash rows _ holds.once (bits + 1) (by omega)
      refine ⟨after, ?_⟩
      rw [Roomy, capacity]
      omega
    · rename_i tombHeavy
      rw [power] at tombHeavy ⊢
      obtain ⟨-, after, capacity, bound⟩ :=
        @rebuild_holds _ _ hash rows _ holds.once bits (by omega)
      refine ⟨after, ?_⟩
      rw [Roomy, capacity]
      omega

theorem Roomy.insertRaw (roomy : t.Roomy 1) (key : κ) (value : ν)
    : (t.insertRaw hash key value).Roomy 0 := by
  have step := @insertRaw_load _ _ hash t key value
  rw [Roomy, insertRaw_length]
  rw [Roomy] at roomy
  omega

theorem Roomy.live_lt {more : Nat} (roomy : t.Roomy more) : t.live < t.slots.length := by
  rw [Roomy, load] at roomy
  omega

end Table

end Z23.Lib.TombTable
