import Mathlib.Data.List.Nodup
import Mathlib.Data.List.Perm.Subperm
import Mathlib.Data.Nat.Bitwise
import Z23.Lib.LinearProbing

/-!
An open-addressed table of a power of two of cells with a list of its occupied cells: search,
insertion, replacement, growth by moving the listed entries, and clearing.
-/

namespace Z23.Lib.OpenTable

open Z23.Lib.LinearProbing

variable {κ ν : Type}

-- Operations

/-- The cells of a table; their number is the capacity. -/
abbrev Slots (κ ν : Type) := List (Option (κ × ν))

def cellAt (slots : Slots κ ν) (pos : Nat) : Option (κ × ν) := slots.getD pos none

def keyAt (slots : Slots κ ν) (pos : Nat) : Option κ := (cellAt slots pos).map Prod.fst

/-- The place after `pos`, around the end of a power of two of cells. -/
def next (cap pos : Nat) : Nat := (pos + 1) &&& (cap - 1)

def home (hash : κ → Nat) (cap : Nat) (key : κ) : Nat := hash key &&& (cap - 1)

/-- Search a key from its home on. -/
def probe [DecidableEq κ] (hash : κ → Nat) (slots : Slots κ ν) (key : κ) : Outcome Nat :=
  seek (next slots.length) (keyAt slots) key slots.length (home hash slots.length key)

/-- The first empty cell from a place on. -/
def vacancy (slots : Slots κ ν) : Nat → Nat → Option Nat
  | 0, _ => none
  | fuel + 1, pos =>
    match cellAt slots pos with
    | none => some pos
    | some _ => vacancy slots fuel (next slots.length pos)

/-- Move the entries of the listed cells into new cells, and list the places they come to. -/
def rehash (hash : κ → Nat) (old : Slots κ ν) : List Nat → Slots κ ν → Slots κ ν × List Nat
  | [], new => (new, [])
  | pos :: rest, new =>
    match cellAt old pos with
    | none => rehash hash old rest new
    | some entry =>
      match vacancy new new.length (home hash new.length entry.1) with
      | none => (new, [])
      | some place =>
        let moved := rehash hash old rest (new.set place (some entry))
        (moved.1, place :: moved.2)

/-- Empty the listed cells. -/
def clear (slots : Slots κ ν) (occupied : List Nat) : Slots κ ν :=
  occupied.foldl (fun slots pos => slots.set pos none) slots

-- The invariant

/-- The list names exactly the occupied cells, and every key is reached from its home. -/
structure Indexed (hash : κ → Nat) (slots : Slots κ ν) (occupied : List Nat) : Prop where
  power : ∃ bits, slots.length = 2 ^ bits
  listed : ∀ pos, pos ∈ occupied ↔ cellAt slots pos ≠ none
  once : occupied.Nodup
  probed
    : Probed (next slots.length) (home hash slots.length) slots.length (keyAt slots)

/-- The table has the entry. -/
def Contains (slots : Slots κ ν) (entry : κ × ν) : Prop := ∃ pos, cellAt slots pos = some entry

theorem cellAt_eq_none_of_le {slots : Slots κ ν} {pos : Nat} (outside : slots.length ≤ pos)
    : cellAt slots pos = none := by
  rw [cellAt, List.getD_eq_getElem?_getD, List.getElem?_eq_none outside, Option.getD_none]

theorem lt_of_cellAt {slots : Slots κ ν} {pos : Nat} (occupied : cellAt slots pos ≠ none)
    : pos < slots.length := by
  by_contra outside
  exact occupied (cellAt_eq_none_of_le (Nat.le_of_not_lt outside))

theorem cellAt_set {slots : Slots κ ν} {pos : Nat} (inside : pos < slots.length)
    (cell : Option (κ × ν)) (other : Nat)
    : cellAt (slots.set pos cell) other = if other = pos then cell else cellAt slots other := by
  rw [cellAt, cellAt, List.getD_eq_getElem?_getD, List.getD_eq_getElem?_getD, List.getElem?_set]
  by_cases same : other = pos
  · subst same
    simp [inside]
  · rw [if_neg (Ne.symm same), if_neg same]

theorem set_cellAt {slots : Slots κ ν} {pos : Nat} {entry : κ × ν}
    (found : cellAt slots pos = some entry)
    : slots.set pos (some entry) = slots := by
  have inside : pos < slots.length := lt_of_cellAt (by simp [found])
  rw [cellAt, List.getD_eq_getElem?_getD, List.getElem?_eq_getElem inside,
    Option.getD_some] at found
  rw [← found, List.set_getElem_self]

@[simp]
theorem cellAt_replicate (cap pos : Nat)
    : cellAt (List.replicate cap (none : Option (κ × ν))) pos = none := by
  rw [cellAt, List.getD_eq_getElem?_getD, List.getElem?_replicate]
  split <;> rfl

theorem keyAt_of_cellAt {slots : Slots κ ν} {pos : Nat} {entry : κ × ν}
    (found : cellAt slots pos = some entry)
    : keyAt slots pos = some entry.1 := by
  rw [keyAt, found, Option.map_some]

theorem keyAt_eq_none {slots : Slots κ ν} {pos : Nat}
    : keyAt slots pos = none ↔ cellAt slots pos = none := by
  rw [keyAt, Option.map_eq_none_iff]

theorem keyAt_eq_some {slots : Slots κ ν} {pos : Nat} {key : κ}
    : keyAt slots pos = some key ↔ ∃ value, cellAt slots pos = some (key, value) := by
  simp [keyAt, Option.map_eq_some_iff]

-- Places

section

variable {cap bits : Nat} (power : cap = 2 ^ bits)
include power

theorem next_eq_mod (pos : Nat) : next cap pos = (pos + 1) % cap := by
  rw [next, power, Nat.and_two_pow_sub_one_eq_mod]

theorem home_eq_mod (hash : κ → Nat) (key : κ) : home hash cap key = hash key % cap := by
  rw [home, power, Nat.and_two_pow_sub_one_eq_mod]

theorem iterate_next {start : Nat} (inside : start < cap) (steps : Nat)
    : (next cap)^[steps] start = (start + steps) % cap := by
  induction steps with
  | zero => rw [Function.iterate_zero_apply, Nat.add_zero, Nat.mod_eq_of_lt inside]
  | succ steps ih =>
    rw [Function.iterate_succ_apply', ih, next_eq_mod power, Nat.mod_add_mod, Nat.add_assoc]

theorem home_lt (hash : κ → Nat) (key : κ) : home hash cap key < cap := by
  rw [home_eq_mod power]
  exact Nat.mod_lt _ (power ▸ Nat.two_pow_pos bits)

theorem probe_lt {hash : κ → Nat} (key : κ) (steps : Nat)
    : (next cap)^[steps] (home hash cap key) < cap := by
  rw [iterate_next power (home_lt power hash key)]
  exact Nat.mod_lt _ (power ▸ Nat.two_pow_pos bits)

theorem exists_steps {start pos : Nat} (startInside : start < cap) (inside : pos < cap)
    : ∃ steps < cap, (next cap)^[steps] start = pos := by
  refine ⟨(pos + (cap - start)) % cap, Nat.mod_lt _ (by omega), ?_⟩
  rw [iterate_next power startInside, Nat.add_mod_mod,
    show start + (pos + (cap - start)) = pos + cap by omega, Nat.add_mod_right,
    Nat.mod_eq_of_lt inside]

end

-- One entry for each key

variable {hash : κ → Nat} {slots : Slots κ ν} {occupied : List Nat}

theorem Indexed.cellAt_unique (indexed : Indexed hash slots occupied) {pos other : Nat} {key : κ}
    {value value' : ν} (here : cellAt slots pos = some (key, value))
    (there : cellAt slots other = some (key, value'))
    : pos = other :=
  indexed.probed.unique pos other key (keyAt_of_cellAt here) (keyAt_of_cellAt there)

theorem keyAt_set {pos : Nat} (inside : pos < slots.length) (key : κ) (value : ν)
    : keyAt (slots.set pos (some (key, value)))
        = Function.update (keyAt slots) pos (some key) := by
  funext other
  rw [keyAt, cellAt_set inside]
  by_cases same : other = pos
  · subst same
    rw [if_pos rfl, Function.update_self, Option.map_some]
  · rw [if_neg same, Function.update_of_ne same, keyAt]

/-- The value of a key changes in place. -/
theorem Indexed.replace (indexed : Indexed hash slots occupied) {key : κ} {pos : Nat} {old : ν}
    (found : cellAt slots pos = some (key, old)) (value : ν)
    : Indexed hash (slots.set pos (some (key, value))) occupied := by
  have inside : pos < slots.length := lt_of_cellAt (by simp [found])
  have sameKeys : keyAt (slots.set pos (some (key, value))) = keyAt slots := by
    rw [keyAt_set inside, ← keyAt_of_cellAt found, Function.update_eq_self]
  constructor
  · rw [List.length_set]
    exact indexed.power
  · intro other
    rw [indexed.listed, ← not_iff_not, not_not, not_not, ← keyAt_eq_none, ← keyAt_eq_none, sameKeys]
  · exact indexed.once
  · rw [List.length_set, sameKeys]
    exact indexed.probed

theorem contains_replace (indexed : Indexed hash slots occupied) {key : κ} {pos : Nat} {old : ν}
    (found : cellAt slots pos = some (key, old)) (value : ν) (entry : κ × ν)
    : Contains (slots.set pos (some (key, value))) entry
        ↔ entry = (key, value) ∨ entry.1 ≠ key ∧ Contains slots entry := by
  have inside : pos < slots.length := lt_of_cellAt (by simp [found])
  simp only [Contains, cellAt_set inside]
  constructor
  · rintro ⟨other, here⟩
    split at here
    · exact .inl (Option.some.inj here).symm
    · rename_i differs
      refine .inr ⟨?_, other, here⟩
      rintro rfl
      exact differs (indexed.cellAt_unique here found)
  · rintro (rfl | ⟨differs, other, here⟩)
    · exact ⟨pos, if_pos rfl⟩
    · refine ⟨other, ?_⟩
      rw [if_neg ?_, here]
      rintro rfl
      rw [found] at here
      exact differs (congrArg Prod.fst (Option.some.inj here)).symm

-- Search

section Search

variable [DecidableEq κ]

/-- A table with an empty cell ends every search. -/
theorem Indexed.probe_ne_exhausted (indexed : Indexed hash slots occupied)
    (roomy : occupied.length < slots.length) (key : κ)
    : probe hash slots key ≠ .exhausted := by
  intro exhausted
  obtain ⟨bits, power⟩ := indexed.power
  have full : List.range slots.length ⊆ occupied := by
    intro pos member
    rw [List.mem_range] at member
    obtain ⟨steps, bound, arrives⟩ := exists_steps power (home_lt power hash key) member
    rw [indexed.listed, ← arrives]
    intro empty
    exact seek_exhausted_occupied exhausted steps bound (keyAt_eq_none.mpr empty)
  have long := (List.nodup_range.subperm full).length_le
  rw [List.length_range] at long
  omega

theorem probe_free_lt (indexed : Indexed hash slots occupied) {key : κ} {pos : Nat}
    (free : probe hash slots key = .free pos)
    : pos < slots.length := by
  obtain ⟨bits, power⟩ := indexed.power
  obtain ⟨_, steps, _, arrives, _⟩ := seek_free free
  rw [← arrives]
  exact probe_lt power key steps

theorem Indexed.absent_of_free (indexed : Indexed hash slots occupied) {key : κ} {pos : Nat}
    (free : probe hash slots key = .free pos) (value : ν)
    : ¬ Contains slots (key, value) := by
  rintro ⟨other, found⟩
  refine indexed.probed.absent_of_not_found key ?_ other (keyAt_of_cellAt found)
  intro at_ outcome
  rw [probe, outcome] at free
  cases free

theorem probe_found {key : κ} {pos : Nat} (found : probe hash slots key = .found pos)
    : ∃ value, cellAt slots pos = some (key, value) :=
  keyAt_eq_some.mp (seek_found found)

-- Insertion

/-- A new key goes into the empty cell its search ends at. -/
theorem Indexed.insert (indexed : Indexed hash slots occupied) {key : κ} {pos : Nat}
    (free : probe hash slots key = .free pos) (value : ν)
    : Indexed hash (slots.set pos (some (key, value))) (occupied ++ [pos]) := by
  have inside := probe_free_lt indexed free
  have vacant := keyAt_eq_none.mp (seek_free free).1
  constructor
  · rw [List.length_set]
    exact indexed.power
  · intro other
    rw [cellAt_set inside, List.mem_append, List.mem_singleton, indexed.listed]
    by_cases same : other = pos
    · simp [same]
    · simp [same]
  · rw [List.nodup_append]
    refine ⟨indexed.once, List.nodup_singleton pos, ?_⟩
    intro other member last isLast same
    rw [List.mem_singleton] at isLast
    rw [indexed.listed, same, isLast] at member
    exact member vacant
  · rw [List.length_set, keyAt_set inside]
    exact indexed.probed.insert free

theorem contains_insert (indexed : Indexed hash slots occupied) {key : κ} {pos : Nat}
    (free : probe hash slots key = .free pos) (value : ν) (entry : κ × ν)
    : Contains (slots.set pos (some (key, value))) entry
        ↔ entry = (key, value) ∨ Contains slots entry := by
  have inside := probe_free_lt indexed free
  have vacant := keyAt_eq_none.mp (seek_free free).1
  simp only [Contains, cellAt_set inside]
  constructor
  · rintro ⟨other, found⟩
    split at found
    · exact .inl (Option.some.inj found).symm
    · exact .inr ⟨other, found⟩
  · rintro (rfl | ⟨other, found⟩)
    · exact ⟨pos, if_pos rfl⟩
    · refine ⟨other, ?_⟩
      rw [if_neg ?_, found]
      rintro rfl
      rw [vacant] at found
      cases found

-- Growth

/-- Where a key is absent, its search is the search for an empty cell. -/
theorem seek_eq_vacancy {key : κ} (absent : ∀ pos, keyAt slots pos ≠ some key) (fuel start : Nat)
    : seek (next slots.length) (keyAt slots) key fuel start
        = match vacancy slots fuel start with
          | none => .exhausted
          | some pos => .free pos := by
  induction fuel generalizing start with
  | zero => rfl
  | succ fuel ih =>
    rw [seek, vacancy]
    cases cell : cellAt slots start with
    | none => rw [keyAt_eq_none.mpr cell]
    | some entry =>
      have differs : entry.1 ≠ key := by
        intro same
        exact absent start (same ▸ keyAt_of_cellAt cell)
      rw [keyAt_of_cellAt cell]
      dsimp only
      rw [if_neg differs, ih]

/-- One entry moves: the empty cell found for it is the one its search ends at. -/
theorem Indexed.probe_of_vacancy (indexed : Indexed hash slots occupied)
    (roomy : occupied.length < slots.length) {key : κ} (absent : ∀ pos, keyAt slots pos ≠ some key)
    : ∃ place, vacancy slots slots.length (home hash slots.length key) = some place
        ∧ probe hash slots key = .free place := by
  have outcome := seek_eq_vacancy absent slots.length (home hash slots.length key)
  cases found : vacancy slots slots.length (home hash slots.length key) with
  | none =>
    rw [found] at outcome
    exact absurd outcome (indexed.probe_ne_exhausted roomy key)
  | some place =>
    rw [found] at outcome
    exact ⟨place, rfl, outcome⟩

/-- What moving the listed entries into an indexed table gives. -/
structure Moved (hash : κ → Nat) (old new : Slots κ ν) (pending placed : List Nat)
    (final : Slots κ ν × List Nat)
    : Prop where
  indexed : Indexed hash final.1 (placed ++ final.2)
  capacity : final.1.length = new.length
  count : final.2.length = pending.length
  contains
    : ∀ entry, Contains final.1 entry
        ↔ Contains new entry ∨ ∃ pos ∈ pending, cellAt old pos = some entry

theorem rehash_moved {old : Slots κ ν} {all : List Nat} (source : Indexed hash old all)
    (pending : List Nat) (once : pending.Nodup) (listed : ∀ pos ∈ pending, cellAt old pos ≠ none)
    {new : Slots κ ν} {placed : List Nat} (indexed : Indexed hash new placed)
    (roomy : placed.length + pending.length < new.length)
    (apart : ∀ pos ∈ pending, ∀ entry, cellAt old pos = some entry →
      ∀ place, keyAt new place ≠ some entry.1)
    : Moved hash old new pending placed (rehash hash old pending new) := by
  induction pending generalizing new placed with
  | nil =>
    refine ⟨?_, rfl, rfl, fun entry => by simp [rehash]⟩
    rw [rehash, List.append_nil]
    exact indexed
  | cons pos rest ih =>
    rw [List.nodup_cons] at once
    rw [List.length_cons] at roomy
    obtain ⟨entry, found⟩ := Option.ne_none_iff_exists'.mp (listed pos List.mem_cons_self)
    obtain ⟨place, vacant, free⟩ :=
      indexed.probe_of_vacancy (by omega) (apart pos List.mem_cons_self entry found)
    have inserted := indexed.insert free entry.2
    have inside := probe_free_lt indexed free
    have apartNext : ∀ other ∈ rest, ∀ moved, cellAt old other = some moved →
        ∀ at_, keyAt (new.set place (some entry)) at_ ≠ some moved.1 := by
      intro other member moved there at_ same
      rw [keyAt_set inside] at same
      by_cases here : at_ = place
      · rw [here, Function.update_self, Option.some.injEq] at same
        have sameCell := source.probed.unique pos other entry.1 (keyAt_of_cellAt found)
          (same ▸ keyAt_of_cellAt there)
        exact once.1 (sameCell ▸ member)
      · rw [Function.update_of_ne here] at same
        exact apart other (List.mem_cons_of_mem _ member) moved there at_ same
    have moved := ih once.2 (List.forall_mem_cons.mp listed).2
      inserted (by rw [List.length_append, List.length_set, List.length_singleton]; omega)
      apartNext
    have unfolded : rehash hash old (pos :: rest) new
        = ((rehash hash old rest (new.set place (some entry))).1,
            place :: (rehash hash old rest (new.set place (some entry))).2) := by
      rw [rehash, found]
      dsimp only
      rw [vacant]
    rw [unfolded]
    refine ⟨?_, ?_, ?_, ?_⟩
    · have split := moved.indexed
      rwa [List.append_assoc, List.singleton_append] at split
    · rw [moved.capacity, List.length_set]
    · rw [List.length_cons, moved.count, List.length_cons]
    · intro other
      rw [moved.contains, contains_insert indexed free]
      constructor
      · rintro ((rfl | before) | ⟨at_, member, there⟩)
        · exact .inr ⟨pos, List.mem_cons_self, found⟩
        · exact .inl before
        · exact .inr ⟨at_, List.mem_cons_of_mem _ member, there⟩
      · rintro (before | ⟨at_, member, there⟩)
        · exact .inl (.inr before)
        · rcases List.mem_cons.mp member with rfl | later
          · rw [found] at there
            exact .inl (.inl (Option.some.inj there).symm)
          · exact .inr ⟨at_, later, there⟩

end Search

theorem Indexed.empty (hash : κ → Nat) (bits : Nat)
    : Indexed hash (List.replicate (2 ^ bits) (none : Option (κ × ν))) [] where
  power := ⟨bits, List.length_replicate⟩
  listed := fun pos => by simp
  once := List.nodup_nil
  probed := by
    have vacant : keyAt (List.replicate (2 ^ bits) (none : Option (κ × ν))) = fun _ => none := by
      funext pos
      rw [keyAt_eq_none, cellAt_replicate]
    rw [vacant]
    exact Probed.empty _ _ _

/-- Doubling the table keeps its entries. -/
theorem Indexed.grow [DecidableEq κ] (indexed : Indexed hash slots occupied)
    (roomy : occupied.length < slots.length)
    : Indexed hash (rehash hash slots occupied (List.replicate (slots.length * 2) none)).1
          (rehash hash slots occupied (List.replicate (slots.length * 2) none)).2
        ∧ (rehash hash slots occupied (List.replicate (slots.length * 2) none)).1.length
            = slots.length * 2
        ∧ (rehash hash slots occupied (List.replicate (slots.length * 2) none)).2.length
            = occupied.length
        ∧ ∀ entry,
            Contains (rehash hash slots occupied (List.replicate (slots.length * 2) none)).1 entry
              ↔ Contains slots entry := by
  obtain ⟨bits, power⟩ := indexed.power
  have fresh : Indexed hash (List.replicate (slots.length * 2) (none : Option (κ × ν))) [] := by
    rw [power, ← Nat.pow_succ]
    exact Indexed.empty hash (bits + 1)
  have moved := rehash_moved indexed occupied indexed.once (fun pos => (indexed.listed pos).mp)
    fresh (by rw [List.length_nil, List.length_replicate]; omega)
    (fun pos _ entry _ place => by simp [keyAt])
  refine ⟨by simpa using moved.indexed, by simpa using moved.capacity, moved.count, ?_⟩
  intro entry
  rw [moved.contains]
  constructor
  · rintro (⟨pos, found⟩ | ⟨pos, _, found⟩)
    · simp at found
    · exact ⟨pos, found⟩
  · rintro ⟨pos, found⟩
    exact .inr ⟨pos, (indexed.listed pos).mpr (by simp [found]), found⟩

-- Clearing

theorem clear_length (slots : Slots κ ν) (occupied : List Nat)
    : (clear slots occupied).length = slots.length := by
  induction occupied generalizing slots with
  | nil => rfl
  | cons pos rest ih => exact (ih _).trans List.length_set

theorem cellAt_clear (slots : Slots κ ν) (occupied : List Nat) (pos : Nat)
    : cellAt (clear slots occupied) pos = if pos ∈ occupied then none else cellAt slots pos := by
  induction occupied generalizing slots with
  | nil => simp [clear]
  | cons first rest ih =>
    have step : clear slots (first :: rest) = clear (slots.set first none) rest := rfl
    rw [step, ih]
    by_cases inside : first < slots.length
    · rw [cellAt_set inside]
      by_cases same : pos = first <;> by_cases later : pos ∈ rest <;> simp [same, later]
    · rw [List.set_eq_of_length_le (Nat.le_of_not_lt inside)]
      by_cases same : pos = first
      · have outside := cellAt_eq_none_of_le (same ▸ Nat.le_of_not_lt inside)
        simp [same, same ▸ outside]
      · simp [same]

/-- Emptying the listed cells empties the table. -/
theorem Indexed.clear_eq (indexed : Indexed hash slots occupied)
    : clear slots occupied = List.replicate slots.length none := by
  refine List.eq_replicate_iff.mpr ⟨clear_length slots occupied, fun cell member => ?_⟩
  obtain ⟨pos, inside, rfl⟩ := List.getElem_of_mem member
  have read : cellAt (clear slots occupied) pos = none := by
    rw [cellAt_clear]
    split
    · rfl
    · rename_i unlisted
      rw [indexed.listed, not_not] at unlisted
      exact unlisted
  rwa [cellAt, List.getD_eq_getElem?_getD, List.getElem?_eq_getElem inside, Option.getD_some]
    at read

-- Entries

/-- The entries in the order of the cells. -/
def entries (slots : Slots κ ν) : List (κ × ν) := slots.filterMap id

/-- The entries in the order of the list. -/
def listedEntries (slots : Slots κ ν) (occupied : List Nat) : List (κ × ν) :=
  occupied.filterMap (cellAt slots)

theorem entries_eq_range (slots : Slots κ ν)
    : entries slots = (List.range slots.length).filterMap (cellAt slots) := by
  have cells : slots = (List.range slots.length).map (cellAt slots) := by
    refine List.ext_getElem (by simp) fun pos inside _ => ?_
    simp [cellAt, List.getD_eq_getElem?_getD, inside]
  rw [entries]
  nth_rewrite 1 [cells]
  rw [List.filterMap_map]
  rfl

theorem Indexed.entries_perm (indexed : Indexed hash slots occupied)
    : (entries slots).Perm (listedEntries slots occupied) := by
  have filled : (List.range slots.length).filterMap (cellAt slots)
      = ((List.range slots.length).filter fun pos => (cellAt slots pos).isSome).filterMap
          (cellAt slots) := by
    rw [List.filterMap_filter]
    refine List.filterMap_congr fun pos _ => ?_
    cases cellAt slots pos <;> rfl
  rw [entries_eq_range, filled]
  refine List.Perm.filterMap _ ?_
  rw [List.perm_ext_iff_of_nodup (List.nodup_range.filter _) indexed.once]
  intro pos
  rw [List.mem_filter, List.mem_range, indexed.listed, ← Option.isSome_iff_ne_none]
  exact ⟨fun both => both.2, fun some_ =>
    ⟨lt_of_cellAt (Option.isSome_iff_ne_none.mp some_), some_⟩⟩

theorem mem_entries {slots : Slots κ ν} {entry : κ × ν}
    : entry ∈ entries slots ↔ Contains slots entry := by
  rw [entries_eq_range, List.mem_filterMap]
  constructor
  · rintro ⟨pos, _, found⟩
    exact ⟨pos, found⟩
  · rintro ⟨pos, found⟩
    exact ⟨pos, List.mem_range.mpr (lt_of_cellAt (by simp [found])), found⟩

theorem Indexed.mem_listedEntries (indexed : Indexed hash slots occupied) {entry : κ × ν}
    : entry ∈ listedEntries slots occupied ↔ Contains slots entry := by
  rw [← indexed.entries_perm.mem_iff, mem_entries]

/-- A written cell trades its old entry for the new one. -/
theorem countP_entries_set (p : κ × ν → Bool) {pos : Nat} (inside : pos < slots.length)
    (cell : Option (κ × ν))
    : (entries (slots.set pos cell)).countP p + (cellAt slots pos).toList.countP p
        = (entries slots).countP p + cell.toList.countP p := by
  have split : ∀ cell' : Option (κ × ν),
      entries (slots.set pos cell')
        = entries (slots.take pos) ++ (cell'.toList ++ entries (slots.drop (pos + 1))) := by
    intro cell'
    rw [List.set_eq_take_append_cons_drop, if_pos inside, entries, List.filterMap_append]
    cases cell' <;> rfl
  have same : slots = slots.set pos (cellAt slots pos) := by
    refine List.ext_getElem (by simp) fun at_ here _ => ?_
    rw [List.getElem_set]
    split
    · subst pos
      simp [cellAt, List.getD_eq_getElem?_getD, here]
    · rfl
  have old := split (cellAt slots pos)
  rw [← same] at old
  rw [split cell, old]
  simp only [List.countP_append]
  omega

theorem Indexed.nodup_entries (indexed : Indexed hash slots occupied)
    : ((entries slots).map Prod.fst).Nodup := by
  rw [entries_eq_range, List.map_filterMap]
  refine List.Nodup.filterMap ?_ List.nodup_range
  intro pos other key here there
  exact indexed.probed.unique pos other key (Option.mem_def.mp here) (Option.mem_def.mp there)

end Z23.Lib.OpenTable
