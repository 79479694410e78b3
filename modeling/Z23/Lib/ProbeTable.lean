import Mathlib.Data.Nat.Find
import Z23.Lib.OpenTable

/-!
An open-addressed table of any number of cells without a list of its occupied ones: search,
insertion, removal that writes the following run of cells again, and growth.
-/

namespace Z23.Lib.ProbeTable

open Z23.Lib.LinearProbing
open Z23.Lib.OpenTable (Slots cellAt keyAt Contains entries cellAt_set cellAt_replicate
  cellAt_eq_none_of_le lt_of_cellAt keyAt_of_cellAt keyAt_eq_none keyAt_eq_some keyAt_set
  mem_entries countP_entries_set entries_eq_range)

variable {κ ν : Type}

-- Operations

/-- The place after `pos`, around the end of the cells. -/
def step (cap pos : Nat) : Nat := (pos + 1) % cap

/-- The number of occupied cells. -/
def used (slots : Slots κ ν) : Nat := (entries slots).length

section Operations

variable [DecidableEq κ] (home : Nat → κ → Nat)

/-- Search a key from its home on. -/
def probe (slots : Slots κ ν) (key : κ) : Outcome Nat :=
  seek (step slots.length) (keyAt slots) key slots.length (home slots.length key)

def find (slots : Slots κ ν) (key : κ) : Option ν :=
  match probe home slots key with
  | .found pos => (cellAt slots pos).map Prod.snd
  | _ => none

/-- The first empty cell from a place on, among `fuel` cells. -/
def vacancy (slots : Slots κ ν) : Nat → Nat → Option Nat
  | 0, _ => none
  | fuel + 1, pos =>
    match cellAt slots pos with
    | none => some pos
    | some _ => vacancy slots fuel (step slots.length pos)

/-- Write a key, and tell whether it is new; fails only where no cell is empty. -/
def insert (slots : Slots κ ν) (key : κ) (value : ν) : Option (Slots κ ν × Bool) :=
  match probe home slots key with
  | .found pos => some (slots.set pos (some (key, value)), false)
  | .free pos => some (slots.set pos (some (key, value)), true)
  | .exhausted => none

/-- Write the listed entries one after the other. -/
def insertAll (slots : Slots κ ν) : List (κ × ν) → Option (Slots κ ν)
  | [] => some slots
  | (key, value) :: rest =>
    match insert home slots key value with
    | none => none
    | some (slots, _) => insertAll slots rest

/-- Write the entries of a table into a number of empty cells. -/
def grow (slots : Slots κ ν) (cap : Nat) : Option (Slots κ ν) :=
  insertAll home (List.replicate cap none) (entries slots)

/-- Take out and write again each entry from a place on, up to an empty cell. -/
def repair : Nat → Slots κ ν → Nat → Slots κ ν
  | 0, slots, _ => slots
  | fuel + 1, slots, pos =>
    match cellAt slots pos with
    | none => slots
    | some (key, value) =>
      match insert home (slots.set pos none) key value with
      | none => slots.set pos none
      | some (slots, _) => repair fuel slots (step slots.length pos)

/-- Empty the cell of a key and repair the run behind it; tell whether there was one. -/
def remove (slots : Slots κ ν) (key : κ) : Slots κ ν × Bool :=
  match probe home slots key with
  | .found pos =>
    (repair home slots.length (slots.set pos none) (step slots.length pos), true)
  | _ => (slots, false)

/-- Change the value of a key in place. -/
def modify (slots : Slots κ ν) (key : κ) (change : ν → ν) : Slots κ ν :=
  match probe home slots key with
  | .found pos => slots.set pos ((cellAt slots pos).map fun entry => (entry.1, change entry.2))
  | _ => slots

end Operations

-- Places and cells

theorem iterate_step {cap start : Nat} (inside : start < cap) (steps : Nat)
    : (step cap)^[steps] start = (start + steps) % cap := by
  induction steps with
  | zero => rw [Function.iterate_zero_apply, Nat.add_zero, Nat.mod_eq_of_lt inside]
  | succ steps ih =>
    rw [Function.iterate_succ_apply', ih, step, Nat.mod_add_mod, Nat.add_assoc]

theorem iterate_step_lt {cap start : Nat} (inside : start < cap) (steps : Nat)
    : (step cap)^[steps] start < cap := by
  rw [iterate_step inside]
  exact Nat.mod_lt _ (Nat.zero_lt_of_lt inside)

theorem exists_steps {cap start pos : Nat} (startInside : start < cap) (inside : pos < cap)
    : ∃ steps < cap, (step cap)^[steps] start = pos := by
  refine ⟨(pos + (cap - start)) % cap, Nat.mod_lt _ (by omega), ?_⟩
  have around : start + (pos + (cap - start)) = pos + cap := by omega
  rw [iterate_step startInside, Nat.add_mod_mod, around, Nat.add_mod_right, Nat.mod_eq_of_lt inside]

variable {slots : Slots κ ν}

theorem keyAt_set_none {pos : Nat} (inside : pos < slots.length)
    : keyAt (slots.set pos none) = Function.update (keyAt slots) pos none := by
  funext other
  rw [keyAt, cellAt_set inside]
  by_cases same : other = pos
  · subst same
    rw [if_pos rfl, Function.update_self, Option.map_none]
  · rw [if_neg same, Function.update_of_ne same, keyAt]

theorem used_set {pos : Nat} (inside : pos < slots.length) (cell : Option (κ × ν))
    : used (slots.set pos cell) + (cellAt slots pos).toList.length
        = used slots + cell.toList.length := by
  simpa [used] using countP_entries_set (fun _ => true) inside cell

theorem used_replicate (cap : Nat) : used (List.replicate cap (none : Option (κ × ν))) = 0 := by
  rw [used, List.length_eq_zero_iff, List.eq_nil_iff_forall_not_mem]
  rintro entry member
  obtain ⟨pos, found⟩ := mem_entries.mp member
  rw [cellAt_replicate] at found
  cases found

theorem used_eq_countP (slots : Slots κ ν)
    : used slots
      = (List.range slots.length).countP fun pos => (cellAt slots pos).isSome := by
  rw [used, entries_eq_range, List.length_filterMap_eq_countP]

theorem used_le_length (slots : Slots κ ν) : used slots ≤ slots.length := by
  rw [used_eq_countP]
  exact List.countP_le_length.trans_eq List.length_range

theorem used_eq_length_iff
    : used slots = slots.length ↔ ∀ pos < slots.length, cellAt slots pos ≠ none := by
  have length : slots.length = (List.range slots.length).length := List.length_range.symm
  rw [used_eq_countP]
  nth_rewrite 2 [length]
  rw [List.countP_eq_length]
  simp only [List.mem_range, Option.isSome_iff_ne_none]

theorem exists_empty (roomy : used slots < slots.length)
    : ∃ pos < slots.length, cellAt slots pos = none := by
  by_contra full
  push Not at full
  have count := used_eq_length_iff.mpr full
  omega

theorem contains_set_free {pos : Nat} (inside : pos < slots.length)
    (vacant : cellAt slots pos = none) (written entry : κ × ν)
    : Contains (slots.set pos (some written)) entry
        ↔ entry = written ∨ Contains slots entry := by
  constructor
  · rintro ⟨other, found⟩
    rw [cellAt_set inside] at found
    split at found
    · exact .inl (Option.some.inj found).symm
    · exact .inr ⟨other, found⟩
  · rintro (rfl | ⟨other, found⟩)
    · exact ⟨pos, by rw [cellAt_set inside, if_pos rfl]⟩
    · refine ⟨other, ?_⟩
      have away : other ≠ pos := by
        rintro rfl
        rw [vacant] at found
        cases found
      rw [cellAt_set inside, if_neg away, found]

/-- Emptying the cell of a key takes its entry out, where every key has one cell. -/
theorem contains_set_none {pos : Nat} {gone : κ × ν}
    (unique : ∀ pos pos' key, keyAt slots pos = some key → keyAt slots pos' = some key →
      pos = pos')
    (held : cellAt slots pos = some gone) (entry : κ × ν)
    : Contains (slots.set pos none) entry ↔ Contains slots entry ∧ entry.1 ≠ gone.1 := by
  have inside : pos < slots.length := lt_of_cellAt (by rw [held]; exact Option.some_ne_none gone)
  constructor
  · rintro ⟨other, found⟩
    rw [cellAt_set inside] at found
    split at found
    · cases found
    · rename_i away
      refine ⟨⟨other, found⟩, fun same => away ?_⟩
      exact unique other pos gone.1 (same ▸ keyAt_of_cellAt found) (keyAt_of_cellAt held)
  · rintro ⟨⟨other, found⟩, differs⟩
    refine ⟨other, ?_⟩
    have away : other ≠ pos := by
      rintro rfl
      rw [held] at found
      exact differs (congrArg Prod.fst (Option.some.inj found)).symm
    rw [cellAt_set inside, if_neg away, found]

-- Search

/-- Every key has one cell, and its search reaches it. -/
structure Placed (home : Nat → κ → Nat) (slots : Slots κ ν) : Prop where
  inside : ∀ key, home slots.length key < slots.length
  probed : Probed (step slots.length) (home slots.length) slots.length (keyAt slots)

theorem Placed.empty {home : Nat → κ → Nat} {cap : Nat} (inside : ∀ key, home cap key < cap)
    : Placed home (List.replicate cap (none : Option (κ × ν))) := by
  have vacant : keyAt (List.replicate cap (none : Option (κ × ν))) = fun _ => none := by
    funext pos
    rw [keyAt_eq_none, cellAt_replicate]
  refine { inside := ?_, probed := ?_ }
  · rw [List.length_replicate]
    exact inside
  · rw [vacant]
    exact Probed.empty _ _ _

variable {home : Nat → κ → Nat}

/-- A table without entries is placed whatever its homes. -/
theorem Placed.of_unused (inside : ∀ key, home slots.length key < slots.length)
    (unused : used slots = 0) : Placed home slots := by
  have vacant : keyAt slots = fun _ => none := by
    funext pos
    rw [keyAt_eq_none]
    by_contra occupied
    obtain ⟨entry, held⟩ := Option.ne_none_iff_exists'.mp occupied
    have member := mem_entries.mpr ⟨pos, held⟩
    rw [List.length_eq_zero_iff.mp unused] at member
    cases member
  refine { inside := inside, probed := ?_ }
  rw [vacant]
  exact Probed.empty _ _ _

theorem Placed.cellAt_unique (placed : Placed home slots) {pos other : Nat} {key : κ}
    {value value' : ν} (here : cellAt slots pos = some (key, value))
    (there : cellAt slots other = some (key, value'))
    : pos = other :=
  placed.probed.unique pos other key (keyAt_of_cellAt here) (keyAt_of_cellAt there)

theorem Placed.value_unique (placed : Placed home slots) {key : κ} {value value' : ν}
    (here : Contains slots (key, value)) (there : Contains slots (key, value'))
    : value = value' := by
  obtain ⟨pos, found⟩ := here
  obtain ⟨other, found'⟩ := there
  obtain rfl := placed.cellAt_unique found found'
  rw [found] at found'
  exact (Prod.mk.inj (Option.some.inj found')).2

theorem Placed.nodup_keys (placed : Placed home slots)
    : ((entries slots).map Prod.fst).Nodup := by
  rw [entries_eq_range, List.map_filterMap]
  refine List.Nodup.filterMap ?_ List.nodup_range
  intro pos other key here there
  exact placed.probed.unique pos other key (Option.mem_def.mp here) (Option.mem_def.mp there)

variable [DecidableEq κ]

theorem Placed.free_lt (placed : Placed home slots) {key : κ} {pos : Nat}
    (free : probe home slots key = .free pos)
    : pos < slots.length ∧ cellAt slots pos = none := by
  obtain ⟨vacant, steps, _, rfl, _⟩ := seek_free free
  exact ⟨iterate_step_lt (placed.inside key) steps, keyAt_eq_none.mp vacant⟩

/-- A search in a table with an empty cell ends. -/
theorem Placed.probe_ne_exhausted (placed : Placed home slots)
    (roomy : used slots < slots.length) (key : κ)
    : probe home slots key ≠ .exhausted := by
  intro outcome
  obtain ⟨pos, inside, vacant⟩ := exists_empty roomy
  obtain ⟨steps, bound, rfl⟩ := exists_steps (placed.inside key) inside
  exact seek_exhausted_occupied outcome steps bound (keyAt_eq_none.mpr vacant)

theorem Placed.absent_of_missed (placed : Placed home slots) {key : κ}
    (missed : ∀ pos, probe home slots key ≠ .found pos) (value : ν)
    : ¬ Contains slots (key, value) := by
  rintro ⟨pos, found⟩
  exact placed.probed.absent_of_not_found key missed pos (keyAt_of_cellAt found)

theorem probe_found {key : κ} {pos : Nat} (found : probe home slots key = .found pos)
    : ∃ value, cellAt slots pos = some (key, value) :=
  keyAt_eq_some.mp (seek_found found)

/-- A search finds exactly the entries of the table. -/
theorem Placed.find_eq_some_iff (placed : Placed home slots) {key : κ} {value : ν}
    : find home slots key = some value ↔ Contains slots (key, value) := by
  rw [find]
  split
  · rename_i pos found
    obtain ⟨held, here⟩ := probe_found found
    rw [here, Option.map_some, Option.some.injEq]
    constructor
    · rintro rfl
      exact ⟨pos, here⟩
    · exact placed.value_unique ⟨pos, here⟩
  · rename_i missed
    refine iff_of_false (fun found => by cases found) (placed.absent_of_missed ?_ value)
    exact fun pos found => missed pos found

-- Insertion and growth

/-- A table after a new key is written into it. -/
structure Inserted (home : Nat → κ → Nat) (slots after : Slots κ ν) (key : κ) (value : ν)
    : Prop where
  placed : Placed home after
  capacity : after.length = slots.length
  count : used after = used slots + 1
  contains : ∀ entry, Contains after entry ↔ entry = (key, value) ∨ Contains slots entry

/-- A key is written into the empty cell its search ends at. -/
theorem Placed.inserted (placed : Placed home slots) {key : κ} {pos : Nat}
    (outcome : probe home slots key = .free pos) (value : ν)
    : Inserted home slots (slots.set pos (some (key, value))) key value := by
  obtain ⟨inside, vacant⟩ := placed.free_lt outcome
  refine { placed := ?_, capacity := List.length_set, count := ?_, contains := ?_ }
  · refine { inside := ?_, probed := ?_ }
    · rw [List.length_set]
      exact placed.inside
    · rw [List.length_set, keyAt_set inside]
      exact placed.probed.insert outcome
  · simpa [vacant] using used_set inside (some (key, value))
  · exact contains_set_free inside vacant (key, value)

theorem Placed.insert_new (placed : Placed home slots) (roomy : used slots < slots.length)
    {key : κ} (absent : ∀ value, ¬ Contains slots (key, value)) (value : ν)
    : ∃ after, insert home slots key value = some (after, true)
        ∧ Inserted home slots after key value := by
  cases outcome : probe home slots key with
  | exhausted => exact absurd outcome (placed.probe_ne_exhausted roomy key)
  | found pos =>
    obtain ⟨held, here⟩ := probe_found outcome
    exact absurd ⟨pos, here⟩ (absent held)
  | free pos =>
    exact ⟨slots.set pos (some (key, value)), by rw [insert, outcome],
      placed.inserted outcome value⟩

/-- Where a key is absent, its search is the search for an empty cell. -/
theorem seek_eq_vacancy {key : κ} (absent : ∀ pos, keyAt slots pos ≠ some key) (fuel start : Nat)
    : seek (step slots.length) (keyAt slots) key fuel start
        = (vacancy slots fuel start).elim .exhausted .free := by
  induction fuel generalizing start with
  | zero => rfl
  | succ fuel ih =>
    rw [seek, vacancy]
    cases cell : cellAt slots start with
    | none =>
      rw [keyAt_eq_none.mpr cell]
      rfl
    | some entry =>
      have differs : entry.1 ≠ key := by
        intro same
        exact absent start (same ▸ keyAt_of_cellAt cell)
      rw [keyAt_of_cellAt cell]
      dsimp only
      rw [if_neg differs, ih]

/-- The insertion of an absent key writes into the first empty cell. -/
theorem insert_eq_vacancy {key : κ} (absent : ∀ pos, keyAt slots pos ≠ some key) (value : ν)
    : insert home slots key value
      = (vacancy slots slots.length (home slots.length key)).map
          fun pos => (slots.set pos (some (key, value)), true) := by
  rw [insert, probe, seek_eq_vacancy absent]
  cases vacancy slots slots.length (home slots.length key) with
  | none => rfl
  | some pos => rfl

/-- A table after listed entries with new keys are written into it. -/
structure Filled (home : Nat → κ → Nat) (slots after : Slots κ ν) (added : List (κ × ν))
    : Prop where
  placed : Placed home after
  capacity : after.length = slots.length
  count : used after = used slots + added.length
  contains : ∀ entry, Contains after entry ↔ entry ∈ added ∨ Contains slots entry

omit [DecidableEq κ] in
theorem Filled.nil (placed : Placed home slots) : Filled home slots slots [] where
  placed := placed
  capacity := rfl
  count := rfl
  contains := by simp

omit [DecidableEq κ] in
theorem Inserted.filled {next after : Slots κ ν} {key : κ} {value : ν} {rest : List (κ × ν)}
    (inserted : Inserted home slots next key value) (filled : Filled home next after rest)
    : Filled home slots after ((key, value) :: rest) where
  placed := filled.placed
  capacity := filled.capacity.trans inserted.capacity
  count := by
    rw [filled.count, inserted.count, List.length_cons]
    omega
  contains := fun entry => by
    rw [filled.contains, inserted.contains, List.mem_cons]
    tauto

omit [DecidableEq κ] in
/-- The keys that are still to come are new after the first one is written. -/
theorem Inserted.absent {next : Slots κ ν} {key : κ} {value : ν} {rest : List (κ × ν)}
    (inserted : Inserted home slots next key value) (fresh : key ∉ rest.map Prod.fst)
    (absent : ∀ entry ∈ rest, ∀ value, ¬ Contains slots (entry.1, value))
    : ∀ entry ∈ rest, ∀ value, ¬ Contains next (entry.1, value) := by
  intro other member held
  rw [inserted.contains]
  rintro (same | before)
  · have sameKey : other.1 = key := congrArg Prod.fst same
    exact fresh (List.mem_map.mpr ⟨other, member, sameKey⟩)
  · exact absent other member held before

theorem Placed.insertAll (placed : Placed home slots) {added : List (κ × ν)}
    (roomy : used slots + added.length ≤ slots.length) (once : (added.map Prod.fst).Nodup)
    (absent : ∀ entry ∈ added, ∀ value, ¬ Contains slots (entry.1, value))
    : ∃ after, insertAll home slots added = some after
        ∧ Filled home slots after added := by
  induction added generalizing slots with
  | nil => exact ⟨slots, rfl, Filled.nil placed⟩
  | cons entry rest ih =>
    obtain ⟨key, value⟩ := entry
    rw [List.length_cons] at roomy
    rw [List.map_cons, List.nodup_cons] at once
    obtain ⟨next, ran, inserted⟩ := placed.insert_new (by omega)
      (absent (key, value) List.mem_cons_self) value
    have capacity := inserted.capacity
    have count := inserted.count
    obtain ⟨after, filled, result⟩ := ih inserted.placed (by omega) once.2
      (inserted.absent once.1 (List.forall_mem_cons.mp absent).2)
    refine ⟨after, ?_, inserted.filled result⟩
    simp only [ProbeTable.insertAll, ran]
    exact filled

/-- Growth keeps the entries. -/
theorem Placed.grow (placed : Placed home slots) {cap : Nat} (inside : ∀ key, home cap key < cap)
    (roomy : used slots ≤ cap)
    : ∃ after, grow home slots cap = some after ∧ Placed home after ∧ after.length = cap
        ∧ used after = used slots ∧ ∀ entry, Contains after entry ↔ Contains slots entry := by
  have fresh : Placed home (List.replicate cap (none : Option (κ × ν))) := Placed.empty inside
  have roomyFresh : used (List.replicate cap (none : Option (κ × ν))) + (entries slots).length
      ≤ (List.replicate cap (none : Option (κ × ν))).length := by
    rw [used_replicate, List.length_replicate, Nat.zero_add]
    exact roomy
  obtain ⟨after, ran, filled⟩ := fresh.insertAll roomyFresh placed.nodup_keys
    (fun entry _ value => by simp [Contains])
  refine ⟨after, ran, filled.placed, ?_, ?_, fun entry => ?_⟩
  · rw [filled.capacity, List.length_replicate]
  · rw [filled.count, used_replicate, Nat.zero_add, used]
  · rw [filled.contains, mem_entries]
    simp [Contains]

-- Removal

/-- A table whose entries and number of occupied cells are those of another. -/
structure SameEntries (slots after : Slots κ ν) : Prop where
  capacity : after.length = slots.length
  count : used after = used slots
  contains : ∀ entry, Contains after entry ↔ Contains slots entry

omit [DecidableEq κ] in
theorem SameEntries.refl (slots : Slots κ ν) : SameEntries slots slots where
  capacity := rfl
  count := rfl
  contains := fun _ => Iff.rfl

omit [DecidableEq κ] in
theorem SameEntries.trans {next after : Slots κ ν} (first : SameEntries slots next)
    (second : SameEntries next after) : SameEntries slots after where
  capacity := second.capacity.trans first.capacity
  count := second.count.trans first.count
  contains := fun entry => (second.contains entry).trans (first.contains entry)

omit [DecidableEq κ] in
/-- An entry is taken out and written into an empty cell. -/
theorem sameEntries_moved {pos slot : Nat} {key : κ} {value : ν}
    (unique : ∀ pos pos' key, keyAt slots pos = some key → keyAt slots pos' = some key →
      pos = pos')
    (held : cellAt slots pos = some (key, value)) (inside : slot < (slots.set pos none).length)
    (vacant : cellAt (slots.set pos none) slot = none)
    : SameEntries slots ((slots.set pos none).set slot (some (key, value))) := by
  have posInside : pos < slots.length :=
    lt_of_cellAt (by rw [held]; exact Option.some_ne_none (key, value))
  have emptied : used (slots.set pos none) + 1 = used slots := by
    simpa [held] using used_set posInside none
  have written : used ((slots.set pos none).set slot (some (key, value)))
      = used (slots.set pos none) + 1 := by
    simpa [vacant] using used_set inside (some (key, value))
  refine { capacity := by simp, count := written.trans emptied, contains := fun entry => ?_ }
  rw [contains_set_free inside vacant, contains_set_none unique held]
  constructor
  · rintro (rfl | ⟨before, _⟩)
    · exact ⟨pos, held⟩
    · exact before
  · rintro ⟨other, found⟩
    by_cases same : entry.1 = key
    · left
      have sameCell : other = pos :=
        unique other pos key (same ▸ keyAt_of_cellAt found) (keyAt_of_cellAt held)
      rw [sameCell, held] at found
      exact (Option.some.inj found).symm
    · exact .inr ⟨⟨other, found⟩, same⟩

/-- The next entry of the run is taken out and written again. -/
theorem repair_turn {start len i : Nat} {key : κ} {value : ν}
    (homeInside : ∀ key, home slots.length key < slots.length) (startInside : start < slots.length)
    (repairing : Repairing (step slots.length) (home slots.length) slots.length start len i
      (keyAt slots))
    (inside : i < len) (held : cellAt slots ((step slots.length)^[i] start) = some (key, value))
    : ∃ after, insert home (slots.set ((step slots.length)^[i] start) none) key value
          = some (after, true)
        ∧ Repairing (step slots.length) (home slots.length) slots.length start len (i + 1)
          (keyAt after)
        ∧ SameEntries slots after := by
  have placeInside := iterate_step_lt startInside i
  generalize place : (step slots.length)^[i] start = at_ at *
  have present : keyAt slots ((step slots.length)^[i] start) = some key := by
    rw [place]
    exact keyAt_of_cellAt held
  obtain ⟨pos, outcome, notEnd⟩ := repairing.finds inside present
  have turned := repairing.turn inside present outcome notEnd
  rw [place] at outcome turned
  obtain ⟨vacant, steps, _, arrives, _⟩ := seek_free outcome
  rw [← keyAt_set_none placeInside] at vacant outcome turned
  have posInside : pos < (slots.set at_ none).length := by
    rw [List.length_set, ← arrives]
    exact iterate_step_lt (homeInside key) steps
  have probed : probe home (slots.set at_ none) key = .free pos := by
    rw [probe, List.length_set]
    exact outcome
  refine ⟨(slots.set at_ none).set pos (some (key, value)), by rw [insert, probed], ?_, ?_⟩
  · rw [keyAt_set posInside]
    exact turned
  · exact sameEntries_moved repairing.unique held posInside (keyAt_eq_none.mp vacant)

/-- The whole run is written again, and the repair stops at the empty cell behind it. -/
theorem repair_run {cap start len i fuel : Nat} (capacity : slots.length = cap)
    (homeInside : ∀ key, home cap key < cap) (startInside : start < cap)
    (repairing : Repairing (step cap) (home cap) cap start len i (keyAt slots))
    (within : i ≤ len) (enough : len < fuel + i)
    : Placed home (repair home fuel slots ((step cap)^[i] start))
        ∧ SameEntries slots (repair home fuel slots ((step cap)^[i] start)) := by
  induction fuel generalizing slots i with
  | zero => omega
  | succ fuel ih =>
    subst capacity
    rw [repair]
    rcases Nat.eq_or_lt_of_le within with rfl | before
    · rw [keyAt_eq_none.mp repairing.ends]
      exact ⟨⟨homeInside, repairing.probed⟩, SameEntries.refl slots⟩
    · have occupied := repairing.run i (Nat.le_refl i) before
      obtain ⟨⟨key, value⟩, held⟩ := Option.ne_none_iff_exists'.mp (keyAt_eq_none.not.mp occupied)
      obtain ⟨after, ran, next, same⟩ := repair_turn homeInside startInside repairing before held
      rw [held]
      dsimp only
      rw [ran]
      dsimp only
      rw [same.capacity, ← Function.iterate_succ_apply' (step slots.length)]
      obtain ⟨placed, result⟩ := ih same.capacity next before (by omega)
      exact ⟨placed, same.trans result⟩

omit [DecidableEq κ] in
/-- A run of occupied cells ends at the first empty one. -/
theorem exists_run {start : Nat} (inside : start < slots.length) (roomy : used slots < slots.length)
    : ∃ len < slots.length, cellAt slots ((step slots.length)^[len] start) = none
        ∧ ∀ j < len, cellAt slots ((step slots.length)^[j] start) ≠ none := by
  have some_end : ∃ len, cellAt slots ((step slots.length)^[len] start) = none := by
    obtain ⟨pos, posInside, vacant⟩ := exists_empty roomy
    obtain ⟨len, _, rfl⟩ := exists_steps inside posInside
    exact ⟨len, vacant⟩
  refine ⟨Nat.find some_end, ?_, Nat.find_spec some_end, fun j => Nat.find_min some_end⟩
  obtain ⟨pos, posInside, vacant⟩ := exists_empty roomy
  obtain ⟨len, bound, rfl⟩ := exists_steps inside posInside
  exact Nat.lt_of_le_of_lt (Nat.find_min' some_end vacant) bound

/-- A table after a key is taken out of it. -/
structure Removed (home : Nat → κ → Nat) (slots after : Slots κ ν) (key : κ) (removed : Bool)
    : Prop where
  placed : Placed home after
  capacity : after.length = slots.length
  count : used after + removed.toNat = used slots
  contains : ∀ entry, Contains after entry ↔ Contains slots entry ∧ entry.1 ≠ key
  told : removed = true ↔ ∃ value, Contains slots (key, value)

theorem Placed.remove (placed : Placed home slots) (roomy : used slots < slots.length) (key : κ)
    : Removed home slots (remove home slots key).1 key (remove home slots key).2 := by
  rw [ProbeTable.remove]
  split
  · rename_i pos outcome
    obtain ⟨value, held⟩ := probe_found outcome
    have inside : pos < slots.length :=
      lt_of_cellAt (by rw [held]; exact Option.some_ne_none (key, value))
    obtain ⟨len, lenBound, ends, run⟩ := exists_run inside roomy
    have some_run : 0 < len := by
      rcases Nat.eq_zero_or_pos len with rfl | positive
      · rw [Function.iterate_zero_apply, held] at ends
        cases ends
      · exact positive
    have repairing := placed.probed.repairing some_run (keyAt_eq_none.mpr ends)
      (fun j before => keyAt_eq_none.not.mpr (run j before))
    rw [← keyAt_set_none inside] at repairing
    have sameLength : (slots.set pos none).length = slots.length := List.length_set
    have emptied : used (slots.set pos none) + 1 = used slots := by
      simpa [held] using used_set inside none
    have enough : len < slots.length + 1 := by omega
    obtain ⟨repaired, same⟩ := repair_run sameLength placed.inside inside repairing some_run enough
    refine { placed := repaired, capacity := same.capacity.trans sameLength, count := ?_,
             contains := fun entry => ?_, told := ?_ }
    · have count := same.count
      rw [Function.iterate_one] at count
      rw [count]
      exact emptied
    · rw [← contains_set_none placed.probed.unique held]
      exact same.contains entry
    · exact iff_of_true rfl ⟨value, pos, held⟩
  · rename_i missed
    have absent : ∀ value, ¬ Contains slots (key, value) :=
      placed.absent_of_missed fun pos found => missed pos found
    refine { placed := placed, capacity := rfl, count := rfl, contains := fun entry => ?_,
             told := ?_ }
    · refine ⟨fun held => ⟨held, ?_⟩, fun both => both.1⟩
      rintro rfl
      exact absent entry.2 held
    · refine iff_of_false Bool.false_ne_true ?_
      rintro ⟨value, held⟩
      exact absent value held

-- Change of a value

/-- The cells keep their keys, so the table keeps its order. -/
theorem Placed.modify (placed : Placed home slots) (key : κ) (change : ν → ν)
    : Placed home (modify home slots key change)
        ∧ (modify home slots key change).length = slots.length
        ∧ used (modify home slots key change) = used slots
        ∧ ∀ entry, Contains (modify home slots key change) entry
            ↔ (entry.1 ≠ key ∧ Contains slots entry)
              ∨ ∃ value, Contains slots (key, value) ∧ entry = (key, change value) := by
  rw [ProbeTable.modify]
  split
  · rename_i pos outcome
    obtain ⟨value, held⟩ := probe_found outcome
    have inside : pos < slots.length :=
      lt_of_cellAt (by rw [held]; exact Option.some_ne_none (key, value))
    rw [held, Option.map_some]
    dsimp only
    have sameKeys : keyAt (slots.set pos (some (key, change value))) = keyAt slots := by
      rw [keyAt_set inside, ← keyAt_of_cellAt held, Function.update_eq_self]
    refine ⟨{ inside := ?_, probed := ?_ }, List.length_set, ?_, fun entry => ?_⟩
    · rw [List.length_set]
      exact placed.inside
    · rw [List.length_set, sameKeys]
      exact placed.probed
    · simpa [held] using used_set inside (some (key, change value))
    · constructor
      · rintro ⟨other, found⟩
        rw [cellAt_set inside] at found
        split at found
        · exact .inr ⟨value, ⟨pos, held⟩, (Option.some.inj found).symm⟩
        · rename_i away
          refine .inl ⟨fun same => away ?_, other, found⟩
          exact placed.probed.unique other pos key (same ▸ keyAt_of_cellAt found)
            (keyAt_of_cellAt held)
      · rintro (⟨differs, other, found⟩ | ⟨old, present, rfl⟩)
        · refine ⟨other, ?_⟩
          have away : other ≠ pos := by
            rintro rfl
            rw [held] at found
            exact differs (congrArg Prod.fst (Option.some.inj found)).symm
          rw [cellAt_set inside, if_neg away, found]
        · obtain rfl := placed.value_unique ⟨pos, held⟩ present
          exact ⟨pos, by rw [cellAt_set inside, if_pos rfl]⟩
  · rename_i missed
    have absent : ∀ value, ¬ Contains slots (key, value) :=
      placed.absent_of_missed fun pos found => missed pos found
    refine ⟨placed, rfl, rfl, fun entry => ?_⟩
    constructor
    · intro held
      refine .inl ⟨?_, held⟩
      rintro rfl
      exact absent entry.2 held
    · rintro (⟨_, held⟩ | ⟨value, present, _⟩)
      · exact held
      · exact absurd present (absent value)

end Z23.Lib.ProbeTable
