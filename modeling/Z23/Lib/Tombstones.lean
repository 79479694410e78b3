import Mathlib.Data.List.Perm.Basic
import Mathlib.Data.Nat.Bitwise
import Mathlib.Logic.Function.Basic

/-!
Open addressing with tombstones. Each key has a path, the cells its search visits in order; a
search passes over given-up cells and ends at a cell that was never used. A key is never moved,
so what has to survive every change is that the cells before it on its path have been used.
-/

namespace Z23.Lib.Tombstones

variable {π κ : Type}

-- Search

/-- What a search reads in a cell. -/
inductive Mark (κ : Type) where
  | virgin
  | dead
  | key (key : κ)
deriving DecidableEq, Repr

/-- Follow a path to the key; a virgin cell ends it. -/
def seek [DecidableEq κ] (marks : π → Mark κ) (key : κ) : List π → Option π
  | [] => none
  | pos :: rest =>
    match marks pos with
    | .virgin => none
    | .dead => seek marks key rest
    | .key other => if other = key then some pos else seek marks key rest

/-- Every key is reached along its path through used cells, and stands in one cell only. -/
structure Reached (path : κ → List π) (marks : π → Mark κ) : Prop where
  reach
    : ∀ pos key, marks pos = .key key →
        ∃ before after, path key = before ++ pos :: after
          ∧ ∀ passed ∈ before, marks passed ≠ .virgin
  unique
    : ∀ pos pos' key, marks pos = .key key → marks pos' = .key key → pos = pos'

theorem Reached.empty (path : κ → List π) : Reached path (fun _ => Mark.virgin) where
  reach := fun _ _ found => by cases found
  unique := fun _ _ _ found => by cases found

section Search

variable [DecidableEq κ] {path : κ → List π} {marks : π → Mark κ} {key : κ}

theorem seek_key {route : List π} {pos : π} (found : seek marks key route = some pos)
    : marks pos = .key key := by
  induction route with
  | nil => cases found
  | cons head rest ih =>
    rw [seek] at found
    split at found
    · cases found
    · exact ih found
    · rename_i other occupied
      split at found
      · rename_i same
        obtain rfl := Option.some.inj found
        rw [occupied, same]
      · exact ih found

theorem seek_mem {route : List π} {pos : π} (found : seek marks key route = some pos)
    : pos ∈ route := by
  induction route with
  | nil => cases found
  | cons head rest ih =>
    rw [seek] at found
    split at found
    · cases found
    · exact List.mem_cons_of_mem _ (ih found)
    · split at found
      · obtain rfl := Option.some.inj found
        exact List.mem_cons_self
      · exact List.mem_cons_of_mem _ (ih found)

/-- A search that only meets used cells on its way to the key finds it. -/
theorem seek_exists {before after : List π} {pos : π} (held : marks pos = .key key)
    (used : ∀ passed ∈ before, marks passed ≠ .virgin)
    : ∃ found, seek marks key (before ++ pos :: after) = some found := by
  induction before with
  | nil => exact ⟨pos, by rw [List.nil_append, seek, held]; exact if_pos rfl⟩
  | cons head rest ih =>
    obtain ⟨found, later⟩ := ih (List.forall_mem_cons.mp used).2
    rw [List.cons_append, seek]
    cases read : marks head with
    | virgin => exact absurd read (used head List.mem_cons_self)
    | dead => exact ⟨found, later⟩
    | key other =>
      by_cases same : other = key
      · exact ⟨head, if_pos same⟩
      · exact ⟨found, by rw [← later]; exact if_neg same⟩

/-- The search finds a key exactly at the cell that holds it. -/
theorem Reached.seek_eq_some_iff (reached : Reached path marks) {pos : π}
    : seek marks key (path key) = some pos ↔ marks pos = .key key := by
  refine ⟨seek_key, fun held => ?_⟩
  obtain ⟨before, after, split, used⟩ := reached.reach pos key held
  obtain ⟨found, outcome⟩ := @seek_exists _ _ _ _ _ before after pos held used
  rw [split, outcome, reached.unique found pos key (seek_key outcome) held]

theorem Reached.seek_eq_none_iff (reached : Reached path marks)
    : seek marks key (path key) = none ↔ ∀ pos, marks pos ≠ .key key := by
  rw [Option.eq_none_iff_forall_ne_some]
  exact forall_congr' fun pos => not_congr reached.seek_eq_some_iff

end Search

-- Changes

section Changes

variable [DecidableEq π] {path : κ → List π} {marks : π → Mark κ}

/-- A cell is given up. -/
theorem Reached.retire (reached : Reached path marks) (pos : π)
    : Reached path (Function.update marks pos .dead) := by
  have held : ∀ {other key}, Function.update marks pos .dead other = .key key →
      marks other = .key key := by
    intro other key found
    by_cases same : other = pos
    · rw [same, Function.update_self] at found
      cases found
    · rwa [Function.update_of_ne same] at found
  constructor
  · intro other key found
    obtain ⟨before, after, split, passed⟩ := reached.reach other key (held found)
    refine ⟨before, after, split, ?_⟩
    intro cell member
    by_cases same : cell = pos
    · simp [same]
    · rw [Function.update_of_ne same]
      exact passed cell member
  · intro other other' key found found'
    exact reached.unique other other' key (held found) (held found')

/-- A new key takes a cell of its path behind used cells only. -/
theorem Reached.put (reached : Reached path marks) {key : κ} {pos : π} {before after : List π}
    (absent : ∀ other, marks other ≠ .key key) (split : path key = before ++ pos :: after)
    (used : ∀ passed ∈ before, marks passed ≠ .virgin)
    : Reached path (Function.update marks pos (.key key)) := by
  have grows : ∀ {cell}, marks cell ≠ .virgin → Function.update marks pos (.key key) cell
      ≠ .virgin := by
    intro cell before
    by_cases same : cell = pos
    · simp [same]
    · rwa [Function.update_of_ne same]
  have held : ∀ {other stored}, Function.update marks pos (.key key) other = .key stored →
      other = pos ∧ stored = key ∨ marks other = .key stored := by
    intro other stored found
    by_cases same : other = pos
    · rw [same, Function.update_self, Mark.key.injEq] at found
      exact .inl ⟨same, found.symm⟩
    · rw [Function.update_of_ne same] at found
      exact .inr found
  constructor
  · intro other stored found
    rcases held found with ⟨rfl, rfl⟩ | old
    · exact ⟨before, after, split, fun cell member => grows (used cell member)⟩
    · obtain ⟨before', after', split', used'⟩ := reached.reach other stored old
      exact ⟨before', after', split', fun cell member => grows (used' cell member)⟩
  · intro other other' stored found found'
    rcases held found with ⟨rfl, rfl⟩ | old
    · rcases held found' with ⟨rfl, _⟩ | old'
      · rfl
      · exact absurd old' (absent other')
    · rcases held found' with ⟨rfl, rfl⟩ | old'
      · exact absurd old (absent other)
      · exact reached.unique other other' stored old old'

end Changes

-- Tables

section Tables

variable {α : Type} {cells : List α}

/-- The places from `start` on around a power of two of cells. -/
def around (start count : Nat) : List Nat :=
  (List.range count).map fun i => (start + i) &&& (count - 1)

theorem lt_of_mem_around {start count pos : Nat} (member : pos ∈ around start count)
    : pos < count := by
  obtain ⟨i, inside, rfl⟩ := List.mem_map.mp member
  have bound : (start + i) &&& (count - 1) ≤ count - 1 := Nat.and_le_right
  have positive := List.mem_range.mp inside
  omega

theorem mem_around {start count bits pos : Nat} (power : count = 2 ^ bits) (inside : pos < count)
    : pos ∈ around start count := by
  have positive : 0 < count := by omega
  have below : start % count < count := Nat.mod_lt _ positive
  refine List.mem_map.mpr ⟨(pos + (count - start % count)) % count, ?_, ?_⟩
  · exact List.mem_range.mpr (Nat.mod_lt _ positive)
  · rw [power, Nat.and_two_pow_sub_one_eq_mod, ← power, Nat.add_mod_mod, ← Nat.mod_add_mod,
      show start % count + (pos + (count - start % count)) = pos + count by omega,
      Nat.add_mod_right, Nat.mod_eq_of_lt inside]

/-- What searches read in the cells of a table. -/
def marksOf (mark : α → Mark κ) (cells : List α) (pos : Nat) : Mark κ :=
  (cells[pos]?).elim .virgin mark

theorem marksOf_eq_key {mark : α → Mark κ} {pos : Nat} {key : κ}
    : marksOf mark cells pos = .key key ↔ ∃ cell, cells[pos]? = some cell ∧ mark cell = .key key := by
  rw [marksOf]
  cases cells[pos]? with
  | none => simp
  | some cell => simp

theorem marksOf_set (mark : α → Mark κ) {pos : Nat} (inside : pos < cells.length) (cell : α)
    : marksOf mark (cells.set pos cell) = Function.update (marksOf mark cells) pos (mark cell) := by
  funext other
  rw [marksOf, List.getElem?_set]
  by_cases same : other = pos
  · subst same
    simp [inside]
  · rw [if_neg (Ne.symm same), Function.update_of_ne same, marksOf]

/-- The first cell of a route that may be written. -/
def vacancy (taken : α → Bool) (cells : List α) (route : List Nat) : Option Nat :=
  route.find? fun pos => (cells[pos]?).any fun cell => !taken cell

theorem vacancy_spec {taken : α → Bool} {route : List Nat} {pos : Nat}
    (found : vacancy taken cells route = some pos)
    : pos < cells.length ∧ (∃ cell, cells[pos]? = some cell ∧ taken cell = false)
        ∧ ∃ before after, route = before ++ pos :: after
          ∧ ∀ passed ∈ before, ∀ cell, cells[passed]? = some cell → taken cell := by
  obtain ⟨free, before, after, split, passed⟩ := List.find?_eq_some_iff_append.mp found
  obtain ⟨cell, read, untaken⟩ : ∃ cell, cells[pos]? = some cell ∧ taken cell = false := by
    simpa [Option.any_eq_true] using free
  obtain ⟨inside, -⟩ := List.getElem?_eq_some_iff.mp read
  refine ⟨inside, ⟨cell, read, untaken⟩, before, after, split, ?_⟩
  intro place member other here
  have closed := passed place member
  rw [here] at closed
  simpa using closed

theorem vacancy_exists {taken : α → Bool} {route : List Nat}
    (covers : ∀ pos < cells.length, pos ∈ route) (roomy : cells.countP taken < cells.length)
    : ∃ pos, vacancy taken cells route = some pos := by
  by_contra none
  have closed : ∀ cell ∈ cells, taken cell := by
    intro cell member
    obtain ⟨pos, inside, here⟩ := List.getElem_of_mem member
    have passed := List.find?_eq_none.mp (Option.eq_none_iff_forall_ne_some.mpr
      fun pos found => none ⟨pos, found⟩) pos (covers pos inside)
    rw [List.getElem?_eq_getElem inside, here] at passed
    simpa using passed
  rw [List.countP_eq_length.mpr closed] at roomy
  exact Nat.lt_irrefl _ roomy

/-- A new key is written into the first free cell of its path. -/
theorem Reached.fill {path : κ → List Nat} {mark : α → Mark κ} {taken : α → Bool}
    (reached : Reached path (marksOf mark cells)) (used : ∀ cell, taken cell → mark cell ≠ .virgin)
    {key : κ} (absent : ∀ pos, marksOf mark cells pos ≠ .key key)
    (within : ∀ pos ∈ path key, pos < cells.length) {pos : Nat}
    (found : vacancy taken cells (path key) = some pos) {cell : α} (holds : mark cell = .key key)
    : Reached path (marksOf mark (cells.set pos cell)) := by
  obtain ⟨inside, -, before, after, split, passed⟩ := vacancy_spec found
  rw [marksOf_set mark inside, holds]
  refine reached.put absent split ?_
  intro place member
  have placeInside : place < cells.length := within place (split ▸ List.mem_append_left _ member)
  have read := List.getElem?_eq_getElem placeInside
  rw [marksOf, read]
  exact used _ (passed place member _ read)

/-- A write swaps the new cell for the old one. -/
theorem set_swap_perm {pos : Nat} {old : α} (read : cells[pos]? = some old) (new : α)
    : (old :: cells.set pos new).Perm (new :: cells) := by
  obtain ⟨inside, rfl⟩ := List.getElem?_eq_some_iff.mp read
  have written := (List.set_perm_cons_eraseIdx inside new).cons cells[pos]
  have whole := (List.getElem_cons_eraseIdx_perm inside).cons new
  exact written.trans ((List.Perm.swap _ _ _).trans whole)

end Tables

end Z23.Lib.Tombstones
