import Mathlib.Data.List.Pairwise
import Mathlib.Order.Lattice

/-!
Rows in ascending order of an integer primary key: point queries, range scans, single-row writes
and the run of consecutive keys that a scan finds above a given key.
-/

namespace Z23.Lib

structure KeyedRows (α : Type) where
  rows : List (Int × α)
  sorted : rows.Pairwise (fun a b => a.1 < b.1)
deriving DecidableEq

namespace KeyedRows

variable {α : Type}

def empty : KeyedRows α where
  rows := []
  sorted := .nil

def lookup (table : KeyedRows α) (key : Int) : Option α :=
  (table.rows.find? (fun row => row.1 = key)).map (·.2)

/-- The rows with a key strictly between the bounds, in ascending order. -/
def between (table : KeyedRows α) (low high : Int) : List (Int × α) :=
  table.rows.filter (fun row => low < row.1 ∧ row.1 < high)

/-- Writes one row, in place of the row with its key if there is one. -/
def upsert (table : KeyedRows α) (key : Int) (value : α) : KeyedRows α where
  rows := table.rows.filter (fun row => row.1 < key)
    ++ (key, value) :: table.rows.filter (fun row => key < row.1)
  sorted := by
    refine List.pairwise_append.mpr ⟨table.sorted.filter _, ?_, ?_⟩
    · refine List.pairwise_cons.mpr ⟨fun row member => ?_, table.sorted.filter _⟩
      simpa using (List.mem_filter.mp member).2
    · intro below memberBelow above memberAbove
      have low : below.1 < key := by simpa using (List.mem_filter.mp memberBelow).2
      rcases List.mem_cons.mp memberAbove with rfl | memberAbove
      · exact low
      · have high : key < above.1 := by simpa using (List.mem_filter.mp memberAbove).2
        exact low.trans high

def erase (table : KeyedRows α) (key : Int) : KeyedRows α where
  rows := table.rows.filter (fun row => row.1 ≠ key)
  sorted := table.sorted.filter _

-- Point queries and range scans

theorem lookup_eq_some {table : KeyedRows α} {key : Int} {value : α}
    : table.lookup key = some value ↔ (key, value) ∈ table.rows := by
  obtain ⟨rows, sorted⟩ := table
  simp only [lookup]
  induction rows with
  | nil => simp
  | cons row rest ih =>
    obtain ⟨key', value'⟩ := row
    obtain ⟨above, sorted'⟩ := List.pairwise_cons.mp sorted
    rcases eq_or_ne key' key with rfl | different
    · have fresh : ∀ value, (key', value) ∉ rest := fun value member =>
        lt_irrefl key' (above _ member)
      simp [fresh, eq_comm]
    · simp [different, different.symm, ih sorted']

theorem mem_between {table : KeyedRows α} {low high key : Int} {value : α}
    : (key, value) ∈ table.between low high
        ↔ low < key ∧ key < high ∧ table.lookup key = some value := by
  simp only [between, List.mem_filter, decide_eq_true_eq, lookup_eq_some]
  exact ⟨fun ⟨member, low, high⟩ => ⟨low, high, member⟩,
    fun ⟨low, high, member⟩ => ⟨member, low, high⟩⟩

theorem sorted_between (table : KeyedRows α) (low high : Int)
    : (table.between low high).Pairwise (fun a b => a.1 < b.1) :=
  table.sorted.filter _

/-- The first match of a scan, and no match below it. -/
theorem between_find? {table : KeyedRows α} {low high key : Int} {value : α}
    {matching : Int × α → Bool}
    (found : (table.between low high).find? matching = some (key, value))
    : (low < key ∧ key < high ∧ table.lookup key = some value) ∧ matching (key, value) = true
        ∧ ∀ key' value', low < key' → key' < key → table.lookup key' = some value' →
            matching (key', value') = false := by
  obtain ⟨isMatch, before, after, split, none⟩ := List.find?_eq_some_iff_append.mp found
  refine ⟨mem_between.mp (List.mem_of_find?_eq_some found), isMatch, ?_⟩
  intro key' value' low' below present
  obtain ⟨-, high', -⟩ := mem_between.mp (List.mem_of_find?_eq_some found)
  have member := mem_between.mpr ⟨low', below.trans high', present⟩
  have sorted := sorted_between table low high
  rw [split] at member sorted
  obtain ⟨-, sortedAfter, -⟩ := List.pairwise_append.mp sorted
  rcases List.mem_append.mp member with earlier | later
  · simpa using none _ earlier
  · rcases List.mem_cons.mp later with same | later
    · exact absurd (congrArg Prod.fst same) below.ne
    · exact absurd ((List.pairwise_cons.mp sortedAfter).1 _ later) (not_lt_of_gt below)

theorem lookup_upsert_of_ne {table : KeyedRows α} {key other : Int} {value : α}
    (different : other ≠ key) : (table.upsert key value).lookup other = table.lookup other := by
  refine Option.ext fun found => ?_
  simp only [lookup_eq_some, upsert, List.mem_append, List.mem_filter, List.mem_cons,
    Prod.mk.injEq, different, false_and, false_or, decide_eq_true_eq]
  rcases lt_or_gt_of_ne different with below | above
  · simp [below, not_lt_of_gt below]
  · simp [above, not_lt_of_gt above]

theorem lookup_erase_of_ne {table : KeyedRows α} {key other : Int} (different : other ≠ key)
    : (table.erase key).lookup other = table.lookup other := by
  refine Option.ext fun found => ?_
  simp [lookup_eq_some, erase, List.mem_filter, different]

-- Runs of consecutive keys

/-- The end of the run of good rows with consecutive keys that starts right above `last`. -/
def runEnd (good : Int → α → Bool) : Int → List (Int × α) → Int
  | last, [] => last
  | last, (key, value) :: rest =>
    if key = last + 1 && good key value then runEnd good key rest else last

variable {good : Int → α → Bool}

theorem runEnd_congr {good' : Int → α → Bool} {last : Int} {rows : List (Int × α)}
    (same : ∀ row ∈ rows, good row.1 row.2 = good' row.1 row.2)
    : runEnd good last rows = runEnd good' last rows := by
  induction rows generalizing last with
  | nil => rfl
  | cons row rest ih =>
    obtain ⟨key, value⟩ := row
    have head : good key value = good' key value := same (key, value) (by simp)
    simp only [runEnd, head]
    rw [ih (List.forall_mem_cons.mp same).2]

theorem le_runEnd_iff {last high : Int} {rows : List (Int × α)}
    (sorted : rows.Pairwise (fun a b => a.1 < b.1)) (above : ∀ row ∈ rows, last < row.1)
    (start : last ≤ high)
    : high ≤ runEnd good last rows
        ↔ ∀ key, last < key → key ≤ high → ∃ value, (key, value) ∈ rows ∧ good key value = true := by
  induction rows generalizing last high with
  | nil =>
    simp only [runEnd]
    constructor
    · intro low key passed under
      omega
    · intro run
      by_contra beyond
      obtain ⟨value, member, -⟩ := run high (by omega) le_rfl
      cases member
  | cons row rest ih =>
    obtain ⟨key', value'⟩ := row
    obtain ⟨ascending, sorted'⟩ := List.pairwise_cons.mp sorted
    have overLast : last < key' := above (key', value') (by simp)
    -- a key right above `last` can only be that of the first row
    have first : ∀ value, (last + 1, value) ∈ (key', value') :: rest →
        last + 1 = key' ∧ value = value' := by
      intro value member
      rcases List.mem_cons.mp member with same | later
      · exact ⟨congrArg Prod.fst same, congrArg Prod.snd same⟩
      · have := ascending _ later
        omega
    simp only [runEnd]
    split
    · rename_i longer
      simp only [Bool.and_eq_true, decide_eq_true_eq] at longer
      obtain ⟨rfl, fine⟩ := longer
      rcases lt_or_ge high (last + 1) with short | long
      · have reached : last + 1 ≤ runEnd good (last + 1) rest :=
          (ih sorted' ascending le_rfl).mpr fun key low under => absurd low (by omega)
        exact ⟨fun _ key low under => absurd low (by omega), fun _ => by omega⟩
      · rw [ih sorted' ascending long]
        constructor
        · intro run key low under
          rcases eq_or_lt_of_le (Int.add_one_le_iff.mpr low) with rfl | further
          · exact ⟨value', by simp, fine⟩
          · obtain ⟨value, member, fine'⟩ := run key further under
            exact ⟨value, List.mem_cons_of_mem _ member, fine'⟩
        · intro run key low under
          obtain ⟨value, member, fine'⟩ := run key (by omega) under
          rcases List.mem_cons.mp member with same | later
          · have : key = last + 1 := congrArg Prod.fst same
            omega
          · exact ⟨value, later, fine'⟩
    · rename_i broken
      simp only [Bool.and_eq_true, decide_eq_true_eq] at broken
      constructor
      · intro under key low passed
        omega
      · intro run
        by_contra beyond
        obtain ⟨value, member, fine⟩ := run (last + 1) (by omega) (by omega)
        obtain ⟨rfl, rfl⟩ := first value member
        exact broken ⟨rfl, fine⟩

/-- How far the run in a range scan reaches, by point queries. -/
theorem le_runEnd_between_iff {table : KeyedRows α} {low high bound : Int} (start : low ≤ high)
    : high ≤ runEnd good low (table.between low bound)
        ↔ ∀ key, low < key → key ≤ high →
            key < bound ∧ ∃ value, table.lookup key = some value ∧ good key value = true := by
  have above : ∀ row ∈ table.between low bound, low < row.1 :=
    fun row member => (mem_between.mp (show (row.1, row.2) ∈ _ from member)).1
  rw [le_runEnd_iff (sorted_between table low bound) above start]
  refine forall_congr' fun key => forall_congr' fun passed => forall_congr' fun _ => ?_
  simp only [mem_between]
  constructor
  · rintro ⟨value, ⟨-, under, found⟩, fine⟩
    exact ⟨under, value, found, fine⟩
  · rintro ⟨under, value, found, fine⟩
    exact ⟨value, ⟨passed, under, found⟩, fine⟩

theorem le_runEnd_between {table : KeyedRows α} {low bound : Int}
    : low ≤ runEnd good low (table.between low bound) :=
  (le_runEnd_between_iff le_rfl).mpr fun _ passed under => absurd passed (not_lt_of_ge under)

/-- A scan that starts inside the run finds the same end. -/
theorem runEnd_between_skip {table : KeyedRows α} {low middle bound : Int}
    (reached : low ≤ middle) (run : middle ≤ runEnd good low (table.between low bound))
    : runEnd good low (table.between low bound)
        = runEnd good middle (table.between middle bound) := by
  have known := (le_runEnd_between_iff reached).mp run
  have further : ∀ high, middle ≤ high →
      (high ≤ runEnd good low (table.between low bound)
        ↔ high ≤ runEnd good middle (table.between middle bound)) := by
    intro high passed
    rw [le_runEnd_between_iff (reached.trans passed), le_runEnd_between_iff passed]
    constructor
    · exact fun run key low under => run key (lt_of_le_of_lt reached low) under
    · intro run key low under
      rcases le_or_gt key middle with inside | outside
      · exact known key low inside
      · exact run key outside under
  exact le_antisymm ((further _ run).mp le_rfl)
    ((further _ le_runEnd_between).mpr le_rfl)

end KeyedRows

end Z23.Lib
