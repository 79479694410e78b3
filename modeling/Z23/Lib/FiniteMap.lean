import Mathlib.Data.Finmap
import Mathlib.Algebra.BigOperators.Group.Multiset.Basic

/-!
Tables as finite maps: bulk insertion and deletion of rows, and additive measures of a
table (its number of rows, the sum of a column).
-/

namespace Z23.Lib.FiniteMap

/-- A table with at most one row for each key. -/
abbrev Table (κ ν : Type) := Finmap (fun _ : κ => ν)

section Bulk

variable {κ ν : Type} [DecidableEq κ]

/-- Write the rows one after another; a later row for a key replaces an earlier one. -/
def putAll (table : Table κ ν) (rows : List (κ × ν)) : Table κ ν :=
  rows.foldl (fun table row => table.insert row.1 row.2) table

/-- Delete the keys one after another; deleting an absent key changes nothing. -/
def dropAll (table : Table κ ν) (keys : List κ) : Table κ ν :=
  keys.foldl (fun table key => table.erase key) table

theorem lookup_insert_eq (table : Table κ ν) (key other : κ) (value : ν)
    : (table.insert key value).lookup other
        = if other = key then some value else table.lookup other := by
  by_cases same : other = key
  · subst same
    simp
  · simp [same, Finmap.lookup_insert_of_ne _ same]

theorem lookup_erase_eq (table : Table κ ν) (key other : κ)
    : (table.erase key).lookup other
        = if other = key then none else table.lookup other := by
  by_cases same : other = key
  · subst same
    simp
  · simp [same, Finmap.lookup_erase_ne same]

theorem card_keys_insert (table : Table κ ν) (key : κ) (value : ν)
    : (table.insert key value).keys.card
        = if (table.lookup key).isSome then table.keys.card else table.keys.card + 1 := by
  have keys : (table.insert key value).keys = insert key table.keys := by
    ext other
    simp [Finmap.mem_keys, Finmap.mem_insert]
  rw [keys]
  split
  case isTrue found =>
    have present : key ∈ table := Finmap.lookup_isSome.mp found
    rw [Finset.insert_eq_of_mem (Finmap.mem_keys.mpr present)]
  case isFalse missing =>
    have absent : key ∉ table := mt Finmap.lookup_isSome.mpr missing
    exact Finset.card_insert_of_notMem (mt Finmap.mem_keys.mp absent)

theorem card_keys_erase (table : Table κ ν) (key : κ)
    : (table.erase key).keys.card = table.keys.card - (table.lookup key).toList.length := by
  have keys : (table.erase key).keys = table.keys.erase key := by
    ext other
    simp [Finmap.mem_keys]
  rw [keys]
  cases found : table.lookup key with
  | none =>
    have absent : key ∉ table.keys := mt Finmap.mem_keys.mp (Finmap.lookup_eq_none.mp found)
    rw [Finset.erase_eq_of_notMem absent]
    rfl
  | some value =>
    exact Finset.card_erase_of_mem (Finmap.mem_keys.mpr (Finmap.mem_of_lookup_eq_some found))

/-- Tables are built by inserting fresh keys. -/
theorem table_induction {motive : Table κ ν → Prop} (empty : motive ∅)
    (insert : ∀ key value rest, key ∉ rest → motive rest → motive (rest.insert key value))
    (table : Table κ ν)
    : motive table := by
  refine Finmap.induction_on table fun entries => ?_
  induction entries using AList.insertRec with
  | H0 => exact empty
  | IH key value rest fresh ih =>
    rw [← Finmap.insert_toFinmap]
    exact insert key value _ fresh ih

theorem lookup_dropAll (table : Table κ ν) (keys : List κ) (key : κ)
    : (dropAll table keys).lookup key
        = if key ∈ keys then none else table.lookup key := by
  induction keys generalizing table with
  | nil => simp [dropAll]
  | cons head tail ih =>
    have step : dropAll table (head :: tail) = dropAll (table.erase head) tail := rfl
    rw [step, ih, lookup_erase_eq]
    by_cases inTail : key ∈ tail <;> by_cases same : key = head <;>
      simp [inTail, same]

variable {rows : List (κ × ν)}

theorem lookup_putAll_of_notMem (table : Table κ ν) {key : κ} (fresh : key ∉ rows.map Prod.fst)
    : (putAll table rows).lookup key = table.lookup key := by
  induction rows generalizing table with
  | nil => rfl
  | cons row rest ih =>
    simp only [List.map_cons, List.mem_cons, not_or] at fresh
    have step : putAll table (row :: rest) = putAll (table.insert row.1 row.2) rest := rfl
    rw [step, ih _ fresh.2, lookup_insert_eq, if_neg fresh.1]

/-- When all rows written for a key agree, the key reads back as that value. -/
theorem lookup_putAll_of_agree (table : Table κ ν) {key : κ} {value : ν}
    (written : key ∈ rows.map Prod.fst) (agree : ∀ row ∈ rows, row.1 = key → row.2 = value)
    : (putAll table rows).lookup key = some value := by
  induction rows generalizing table with
  | nil => simp at written
  | cons row rest ih =>
    have step : putAll table (row :: rest) = putAll (table.insert row.1 row.2) rest := rfl
    rw [step]
    by_cases later : key ∈ rest.map Prod.fst
    · exact ih _ later (List.forall_mem_cons.mp agree).2
    · rw [lookup_putAll_of_notMem _ later, lookup_insert_eq]
      have here : key = row.1 := by
        simpa only [List.map_cons, List.mem_cons, later, or_false] using written
      rw [if_pos here, agree row List.mem_cons_self here.symm]

theorem mem_putAll (table : Table κ ν) (rows : List (κ × ν)) (key : κ)
    : key ∈ putAll table rows ↔ key ∈ rows.map Prod.fst ∨ key ∈ table := by
  induction rows generalizing table with
  | nil => simp [putAll]
  | cons row rest ih =>
    have step : putAll table (row :: rest) = putAll (table.insert row.1 row.2) rest := rfl
    rw [step, ih, Finmap.mem_insert, List.map_cons, List.mem_cons]
    tauto

theorem lookup_putAll_mem {table : Table κ ν} {key : κ} {value : ν}
    (found : (putAll table rows).lookup key = some value)
    : (key, value) ∈ rows ∨ key ∉ rows.map Prod.fst ∧ table.lookup key = some value := by
  induction rows generalizing table with
  | nil => exact .inr ⟨by simp, found⟩
  | cons row rest ih =>
    have step : putAll table (row :: rest) = putAll (table.insert row.1 row.2) rest := rfl
    rw [step] at found
    obtain member | ⟨absent, before⟩ := ih found
    · exact .inl (List.mem_cons_of_mem _ member)
    · rw [lookup_insert_eq] at before
      by_cases same : key = row.1
      · rw [if_pos same] at before
        obtain rfl := Option.some.inj before
        exact .inl (by simp [same])
      · rw [if_neg same] at before
        exact .inr ⟨by simpa [same] using absent, before⟩

/--
Undoing a batch of insertions `added` followed by deletions of `removed`: writing the
removed rows back and deleting the added keys restores the table, provided the added keys
were fresh and every removed row is the old row of its key or belongs to an added key.
-/
theorem dropAll_putAll_restore (table : Table κ ν) {added removed : List (κ × ν)}
    (fresh : ∀ key ∈ added.map Prod.fst, key ∉ table)
    (recorded : ∀ row ∈ removed,
      row.1 ∈ added.map Prod.fst ∨ table.lookup row.1 = some row.2)
    : dropAll
        (putAll (dropAll (putAll table added) (removed.map Prod.fst)) removed)
        (added.map Prod.fst) = table := by
  apply Finmap.ext_lookup
  intro key
  rw [lookup_dropAll]
  by_cases isAdded : key ∈ added.map Prod.fst
  · rw [if_pos isAdded, Finmap.lookup_eq_none.mpr (fresh key isAdded)]
  · rw [if_neg isAdded]
    by_cases isRemoved : key ∈ removed.map Prod.fst
    · obtain ⟨row, member, rfl⟩ := List.mem_map.mp isRemoved
      have before : table.lookup row.1 = some row.2 := (recorded row member).resolve_left isAdded
      rw [before]
      refine lookup_putAll_of_agree _ isRemoved fun other otherMember sameKey => ?_
      have otherBefore := (recorded other otherMember).resolve_left (sameKey ▸ isAdded)
      rw [sameKey, before] at otherBefore
      exact (Option.some.inj otherBefore).symm
    · rw [lookup_putAll_of_notMem _ isRemoved, lookup_dropAll, if_neg isRemoved,
        lookup_putAll_of_notMem _ isAdded]

end Bulk

section Measure

variable {κ ν M : Type} [AddCommMonoid M]

/-- The sum of a weight over the rows of a table. -/
def total (weight : κ → ν → M) (table : Table κ ν) : M :=
  (table.entries.map (fun row => weight row.1 row.2)).sum

variable [DecidableEq κ]

section

variable (weight : κ → ν → M)
include weight

theorem total_insert_of_notMem {table : Table κ ν} {key : κ} (value : ν) (fresh : key ∉ table)
    : total weight (table.insert key value) = weight key value + total weight table := by
  simp [total, Finmap.entries_insert_of_notMem fresh]

theorem total_erase {table : Table κ ν} {key : κ} {value : ν}
    (found : table.lookup key = some value)
    : total weight table = weight key value + total weight (table.erase key) := by
  have rebuilt : (table.erase key).insert key value = table := by
    apply Finmap.ext_lookup
    intro other
    rw [lookup_insert_eq, lookup_erase_eq]
    by_cases same : other = key
    · rw [if_pos same, same, found]
    · rw [if_neg same, if_neg same]
  rw [← total_insert_of_notMem weight value Finmap.notMem_erase_self, rebuilt]

theorem total_erase_of_notMem {table : Table κ ν} {key : κ} (absent : key ∉ table)
    : total weight (table.erase key) = total weight table := by
  have unchanged : table.erase key = table := by
    apply Finmap.ext_lookup
    intro other
    rw [lookup_erase_eq]
    by_cases same : other = key
    · rw [if_pos same, same, Finmap.lookup_eq_none.mpr absent]
    · rw [if_neg same]
  rw [unchanged]

/-- Writing a row replaces the old one of its key in the sum. -/
theorem total_insert (table : Table κ ν) (key : κ) (value : ν)
    : total weight (table.insert key value) + ((table.lookup key).elim 0 (weight key))
        = weight key value + total weight table := by
  cases before : table.lookup key with
  | none =>
    rw [Option.elim_none, add_zero]
    exact total_insert_of_notMem weight value (Finmap.lookup_eq_none.mp before)
  | some old =>
    have rewritten : (table.erase key).insert key value = table.insert key value := by
      apply Finmap.ext_lookup
      intro other
      rw [lookup_insert_eq, lookup_insert_eq, lookup_erase_eq]
      split <;> rfl
    rw [Option.elim_some, total_erase weight before, ← rewritten,
      total_insert_of_notMem weight value Finmap.notMem_erase_self]
    ac_rfl

theorem total_putAll {table : Table κ ν} {rows : List (κ × ν)}
    (distinct : (rows.map Prod.fst).Nodup) (fresh : ∀ key ∈ rows.map Prod.fst, key ∉ table)
    : total weight (putAll table rows)
        = total weight table + (rows.map (fun row => weight row.1 row.2)).sum := by
  induction rows generalizing table with
  | nil => simp [putAll]
  | cons row rest ih =>
    have step : putAll table (row :: rest) = putAll (table.insert row.1 row.2) rest := rfl
    rw [List.map_cons, List.nodup_cons] at distinct
    have freshRest : ∀ key ∈ rest.map Prod.fst, key ∉ table.insert row.1 row.2 := by
      intro key member inTable
      rcases Finmap.mem_insert.mp inTable with same | before
      · exact distinct.1 (same ▸ member)
      · exact fresh key (List.mem_cons_of_mem _ member) before
    rw [step, ih distinct.2 freshRest,
      total_insert_of_notMem weight row.2 (fresh row.1 List.mem_cons_self)]
    simp only [List.map_cons, List.sum_cons]
    ac_rfl

theorem total_dropAll {table : Table κ ν} {rows : List (κ × ν)}
    (distinct : (rows.map Prod.fst).Nodup) (present : ∀ row ∈ rows, table.lookup row.1 = some row.2)
    : total weight table
        = total weight (dropAll table (rows.map Prod.fst))
          + (rows.map (fun row => weight row.1 row.2)).sum := by
  induction rows generalizing table with
  | nil => simp [dropAll]
  | cons row rest ih =>
    have step : dropAll table ((row :: rest).map Prod.fst)
        = dropAll (table.erase row.1) (rest.map Prod.fst) := rfl
    rw [List.map_cons, List.nodup_cons] at distinct
    have presentRest : ∀ other ∈ rest, (table.erase row.1).lookup other.1 = some other.2 := by
      intro other member
      have differs : other.1 ≠ row.1 := fun same =>
        distinct.1 (same ▸ List.mem_map_of_mem member)
      rw [lookup_erase_eq, if_neg differs]
      exact present other (List.mem_cons_of_mem _ member)
    rw [total_erase weight (present row List.mem_cons_self), step, ih distinct.2 presentRest]
    simp only [List.map_cons, List.sum_cons]
    ac_rfl

end

end Measure

end Z23.Lib.FiniteMap
