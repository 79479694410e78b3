import Mathlib.Data.List.Nodup

/-!
A map restricted to its most recently used keys. The entries stand in order of use, the last used
first; a use of a key puts it in front, and what stands behind the capacity leaves.
-/

namespace Z23.Lib

structure Recency (capacity : Nat) (κ ν : Type) where
  entries : List (κ × ν)
  once : (entries.map Prod.fst).Nodup
  bounded : entries.length ≤ capacity

namespace Recency

variable {capacity : Nat} {κ ν : Type}

def empty : Recency capacity κ ν := ⟨[], List.nodup_nil, Nat.zero_le _⟩

variable [DecidableEq κ]

/-- The entries of other keys. -/
def others (key : κ) (entries : List (κ × ν)) : List (κ × ν) :=
  entries.filter fun entry => entry.1 ≠ key

/-- The entry of the key, if there is one. -/
def own (key : κ) (entries : List (κ × ν)) : List (κ × ν) :=
  entries.filter fun entry => entry.1 = key

theorem others_sublist (key : κ) (entries : List (κ × ν))
    : ((others key entries).map Prod.fst).Sublist (entries.map Prod.fst) :=
  List.filter_sublist.map _

theorem notMem_others (key : κ) (entries : List (κ × ν))
    : key ∉ (others key entries).map Prod.fst := by
  intro member
  obtain ⟨entry, kept, same⟩ := List.mem_map.mp member
  have differs := (List.mem_filter.mp kept).2
  rw [decide_eq_true_eq] at differs
  exact differs same

/-- The entries once the key is used with the value. -/
def used (key : κ) (value : ν) (entries : List (κ × ν)) : List (κ × ν) :=
  (key, value) :: others key entries

theorem used_once {entries : List (κ × ν)} (once : (entries.map Prod.fst).Nodup) (key : κ)
    (value : ν)
    : ((used key value entries).map Prod.fst).Nodup := by
  rw [used, List.map_cons, List.nodup_cons]
  exact ⟨notMem_others key entries, once.sublist (others_sublist key entries)⟩

def find (r : Recency capacity κ ν) (key : κ) : Option ν := r.entries.lookup key

/-- The most recently used keys once this one is used. -/
def use (r : Recency capacity κ ν) (key : κ) (value : ν) : Recency capacity κ ν where
  entries := (used key value r.entries).take capacity
  once := (used_once r.once key value).sublist ((List.take_sublist _ _).map _)
  bounded := List.length_take_le _ _

/-- What leaves when the key takes a new value: its old one, and what no longer fits. -/
def displaced (r : Recency capacity κ ν) (key : κ) (value : ν) : List (κ × ν) :=
  own key r.entries ++ (used key value r.entries).drop capacity

def forget (r : Recency capacity κ ν) (key : κ) : Recency capacity κ ν where
  entries := others key r.entries
  once := r.once.sublist (others_sublist key r.entries)
  bounded := Nat.le_trans (List.length_filter_le _ _) r.bounded

theorem use_entries (r : Recency capacity κ ν) (key : κ) (value : ν)
    : (r.use key value).entries = (used key value r.entries).take capacity := rfl

theorem forget_entries (r : Recency capacity κ ν) (key : κ)
    : (r.forget key).entries = others key r.entries := rfl

-- Where an entry stands

variable {before after entries : List (κ × ν)} {key : κ} {value : ν}

theorem others_of_absent (absent : key ∉ entries.map Prod.fst) : others key entries = entries := by
  apply List.filter_eq_self.mpr
  intro entry member
  rw [decide_eq_true_eq]
  intro same
  exact absent (List.mem_map.mpr ⟨entry, member, same⟩)

theorem own_of_absent (absent : key ∉ entries.map Prod.fst) : own key entries = [] := by
  apply List.filter_eq_nil_iff.mpr
  intro entry member
  rw [decide_eq_true_eq]
  intro same
  exact absent (List.mem_map.mpr ⟨entry, member, same⟩)

omit [DecidableEq κ] in
theorem absent_around (once : ((before ++ (key, value) :: after).map Prod.fst).Nodup)
    : key ∉ before.map Prod.fst ∧ key ∉ after.map Prod.fst := by
  rw [List.map_append, List.map_cons, List.nodup_middle, List.nodup_cons, List.mem_append] at once
  exact not_or.mp once.1

theorem others_of_split (once : ((before ++ (key, value) :: after).map Prod.fst).Nodup)
    : others key (before ++ (key, value) :: after) = before ++ after := by
  obtain ⟨front, behind⟩ := absent_around once
  have kept := others_of_absent front
  have kept' := others_of_absent behind
  rw [others] at kept kept' ⊢
  rw [List.filter_append, List.filter_cons_of_neg (by simp), kept, kept']

theorem own_of_split (once : ((before ++ (key, value) :: after).map Prod.fst).Nodup)
    : own key (before ++ (key, value) :: after) = [(key, value)] := by
  obtain ⟨front, behind⟩ := absent_around once
  have none := own_of_absent front
  have none' := own_of_absent behind
  rw [own] at none none' ⊢
  rw [List.filter_append, List.filter_cons_of_pos (by simp), none, none']
  rfl

theorem lookup_of_absent (absent : key ∉ entries.map Prod.fst) : entries.lookup key = none := by
  induction entries with
  | nil => rfl
  | cons entry rest ih =>
    rw [List.map_cons, List.mem_cons, not_or] at absent
    obtain ⟨stored, value⟩ := entry
    rw [List.lookup_cons, beq_eq_false_iff_ne.mpr absent.1]
    exact ih absent.2

theorem lookup_of_split (once : ((before ++ (key, value) :: after).map Prod.fst).Nodup)
    : (before ++ (key, value) :: after).lookup key = some value := by
  obtain ⟨front, -⟩ := absent_around once
  rw [List.lookup_append, lookup_of_absent front, List.lookup_cons, beq_self_eq_true]
  rfl

/-- A held key stands in one place. -/
theorem find_eq_some {r : Recency capacity κ ν} (found : r.find key = some value)
    : ∃ before after, r.entries = before ++ (key, value) :: after := by
  apply List.append_of_mem
  by_contra outside
  by_cases held : key ∈ r.entries.map Prod.fst
  · obtain ⟨⟨stored, other⟩, member, same⟩ := List.mem_map.mp held
    cases same
    obtain ⟨before, after, split⟩ := List.append_of_mem member
    have once := r.once
    rw [split] at once
    rw [find, split, lookup_of_split once] at found
    cases found
    exact outside member
  · rw [find, lookup_of_absent held] at found
    cases found

theorem find_eq_none {r : Recency capacity κ ν} (unknown : r.find key = none)
    : key ∉ r.entries.map Prod.fst := by
  intro held
  obtain ⟨⟨stored, other⟩, member, same⟩ := List.mem_map.mp held
  cases same
  obtain ⟨before, after, split⟩ := List.append_of_mem member
  have once := r.once
  rw [split] at once
  rw [find, split, lookup_of_split once] at unknown
  cases unknown

end Recency

end Z23.Lib
