import Mathlib.Algebra.BigOperators.Group.Finset.Basic
import Mathlib.Algebra.Order.BigOperators.Group.Finset
import Z23.Lib.ProbeTable

/-!
Removal from a full table. No empty cell ends the run behind the removed key, so the entries are
written again round after round: an entry that finds the gap before its own cell moves there and
leaves a new gap, nearer to no home, and after a round without a move every search is whole.
-/

namespace Z23.Lib.ProbeTable

open Z23.Lib.LinearProbing
open Z23.Lib.OpenTable (Slots cellAt keyAt Contains cellAt_set set_cellAt keyAt_of_cellAt
  keyAt_eq_none keyAt_set lt_of_cellAt)

variable {κ ν : Type} {home : Nat → κ → Nat} {slots : Slots κ ν}

-- Distances

/-- How far a place lies behind another. -/
def distance (cap start pos : Nat) : Nat := (pos + (cap - start)) % cap

theorem distance_lt {cap : Nat} (some_cells : 0 < cap) (start pos : Nat)
    : distance cap start pos < cap :=
  Nat.mod_lt _ some_cells

section

variable {cap start : Nat} (startInside : start < cap)
include startInside

theorem iterate_distance {pos : Nat} (inside : pos < cap)
    : (step cap)^[distance cap start pos] start = pos := by
  have around : start + (pos + (cap - start)) = pos + cap := by omega
  rw [iterate_step startInside, distance, Nat.add_mod_mod, around, Nat.add_mod_right,
    Nat.mod_eq_of_lt inside]

theorem distance_iterate {steps : Nat} (bound : steps < cap)
    : distance cap start ((step cap)^[steps] start) = steps := by
  have around : start + steps + (cap - start) = steps + cap := by omega
  rw [iterate_step startInside, distance, Nat.mod_add_mod, around, Nat.add_mod_right,
    Nat.mod_eq_of_lt bound]

theorem iterate_round : (step cap)^[cap] start = start := by
  rw [iterate_step startInside, Nat.add_mod_right, Nat.mod_eq_of_lt startInside]

theorem iterate_ne {steps : Nat} (some_steps : 1 ≤ steps) (bound : steps < cap)
    : (step cap)^[steps] start ≠ start := by
  intro back
  have around := distance_iterate startInside bound
  have still := distance_iterate startInside (Nat.zero_lt_of_lt startInside)
  rw [Function.iterate_zero_apply] at still
  rw [back, still] at around
  exact Nat.ne_of_gt some_steps around.symm

end

/-- How far the key of a cell is from its home. -/
def stray (home : Nat → κ → Nat) (slots : Slots κ ν) (pos : Nat) : Nat :=
  (keyAt slots pos).elim 0 fun key => distance slots.length (home slots.length key) pos

/-- How far the keys of a table are from their homes together. -/
def strays (home : Nat → κ → Nat) (slots : Slots κ ν) : Nat :=
  ∑ pos ∈ Finset.range slots.length, stray home slots pos

theorem strays_le (home : Nat → κ → Nat) (slots : Slots κ ν)
    : strays home slots ≤ slots.length * slots.length := by
  have each : ∀ pos ∈ Finset.range slots.length, stray home slots pos ≤ slots.length := by
    intro pos member
    have some_cells : 0 < slots.length := Nat.zero_lt_of_lt (Finset.mem_range.mp member)
    rw [stray]
    cases keyAt slots pos with
    | none => exact Nat.zero_le _
    | some key => exact Nat.le_of_lt (distance_lt some_cells _ pos)
  have total := Finset.sum_le_card_nsmul _ _ _ each
  rwa [Finset.card_range, nsmul_eq_mul, Nat.cast_id] at total

/-- A written cell trades its old distance for the new one. -/
theorem strays_set {pos : Nat} (inside : pos < slots.length) (cell : Option (κ × ν))
    : strays home (slots.set pos cell) + stray home slots pos
        = strays home slots + stray home (slots.set pos cell) pos := by
  have member : pos ∈ Finset.range slots.length := Finset.mem_range.mpr inside
  have others : ∑ other ∈ (Finset.range slots.length).erase pos,
        stray home (slots.set pos cell) other
      = ∑ other ∈ (Finset.range slots.length).erase pos, stray home slots other := by
    apply Finset.sum_congr rfl
    intro other elsewhere
    have away : other ≠ pos := (Finset.mem_erase.mp elsewhere).1
    rw [stray, stray, keyAt, cellAt_set inside, if_neg away, List.length_set, keyAt]
  rw [strays, strays, List.length_set, ← Finset.add_sum_erase _ _ member,
    ← Finset.add_sum_erase _ (stray home slots) member, others]
  omega

-- The gap

/-- A table with one empty cell, whose `i - 1` keys behind it have kept their cells. -/
structure Gap (home : Nat → κ → Nat) (slots : Slots κ ν) (gap i : Nat) : Prop where
  inside : gap < slots.length
  vacant : cellAt slots gap = none
  occupied : ∀ pos < slots.length, pos ≠ gap → cellAt slots pos ≠ none
  unique
    : ∀ pos pos' key, keyAt slots pos = some key → keyAt slots pos' = some key → pos = pos'
  settled
    : ∀ pos key, keyAt slots pos = some key → distance slots.length gap pos < i →
        ∃ steps < slots.length, (step slots.length)^[steps] (home slots.length key) = pos
          ∧ ∀ earlier < steps,
              keyAt slots ((step slots.length)^[earlier] (home slots.length key)) ≠ none

theorem cellAt_of_keyAt {pos : Nat} {key : κ} (present : keyAt slots pos = some key)
    : cellAt slots pos ≠ none := by
  rw [Ne, ← keyAt_eq_none, present]
  exact Option.some_ne_none key

/-- Every key is behind the gap. -/
theorem distance_gap_pos {gap pos : Nat} {key : κ} (inside : gap < slots.length)
    (vacant : cellAt slots gap = none) (present : keyAt slots pos = some key)
    : ¬ distance slots.length gap pos < 1 := by
  intro near
  have here := iterate_distance inside (lt_of_cellAt (cellAt_of_keyAt present))
  rw [Nat.lt_one_iff.mp near, Function.iterate_zero_apply] at here
  rw [← here] at present
  exact cellAt_of_keyAt present vacant

/-- After a round without a move the searches are whole. -/
theorem Gap.placed {gap : Nat} (gapped : Gap home slots gap slots.length)
    (homeInside : ∀ key, home slots.length key < slots.length)
    : Placed home slots where
  inside := homeInside
  probed :=
    { reach := fun pos key present =>
        gapped.settled pos key present
          (distance_lt (Nat.zero_lt_of_lt gapped.inside) gap pos)
      unique := gapped.unique }

/-- The gap of a key taken out of a full table. -/
theorem Placed.gap (placed : Placed home slots) (full : used slots = slots.length) {pos : Nat}
    (inside : pos < slots.length) : Gap home (slots.set pos none) pos 1 := by
  have keys := keyAt_set_none inside
  have insideSet : pos < (slots.set pos none).length := by rwa [List.length_set]
  have vacant : cellAt (slots.set pos none) pos = none := by rw [cellAt_set inside, if_pos rfl]
  refine
    { inside := insideSet
      vacant := vacant
      occupied := ?_
      unique := ?_
      settled := fun other key present near =>
        absurd near (distance_gap_pos insideSet vacant present) }
  · intro other otherInside away
    rw [List.length_set] at otherInside
    rw [cellAt_set inside, if_neg away]
    exact used_eq_length_iff.mp full other otherInside
  · have kept : ∀ other key, keyAt (slots.set pos none) other = some key →
        keyAt slots other = some key := by
      intro other key present
      rw [keys] at present
      by_cases same : other = pos
      · rw [same, Function.update_self] at present
        cases present
      · rwa [Function.update_of_ne same] at present
    intro left right key atLeft atRight
    exact placed.probed.unique left right key (kept left key atLeft) (kept right key atRight)

section Turn

variable {gap i : Nat} {key : κ} {value : ν}

section

variable (gapped : Gap home slots gap i)
include gapped

/-- The entry that has its turn finds the gap, or its own cell. -/
theorem Gap.finds [DecidableEq κ] (homeInside : ∀ key, home slots.length key < slots.length)
    {pos : Nat} (held : cellAt slots pos = some (key, value))
    : ∃ slot, vacancy (slots.set pos none) slots.length (home slots.length key) = some slot
        ∧ (slot = gap ∨ slot = pos)
        ∧ ∃ walked < slots.length, (step slots.length)^[walked] (home slots.length key) = slot
          ∧ ∀ earlier < walked,
              (step slots.length)^[earlier] (home slots.length key) ≠ pos
                ∧ keyAt slots ((step slots.length)^[earlier] (home slots.length key)) ≠ none := by
  have inside : pos < slots.length :=
    lt_of_cellAt (by rw [held]; exact Option.some_ne_none (key, value))
  have keys := keyAt_set_none inside
  have absent : ∀ other, keyAt (slots.set pos none) other ≠ some key := by
    intro other present
    rw [keys] at present
    by_cases same : other = pos
    · rw [same, Function.update_self] at present
      cases present
    · rw [Function.update_of_ne same] at present
      exact same (gapped.unique other pos key present (keyAt_of_cellAt held))
  have sought := seek_eq_vacancy absent slots.length (home slots.length key)
  rw [List.length_set] at sought
  cases free : vacancy (slots.set pos none) slots.length (home slots.length key) with
  | none =>
    rw [free] at sought
    obtain ⟨steps, bound, arrives⟩ := exists_steps (homeInside key) inside
    exfalso
    apply seek_exhausted_occupied sought steps bound
    rw [arrives, keys, Function.update_self]
  | some slot =>
    rw [free] at sought
    obtain ⟨vacant, walked, bound, arrives, path⟩ := seek_free sought
    have slotInside : slot < slots.length := by
      rw [← arrives]
      exact iterate_step_lt (homeInside key) walked
    refine ⟨slot, rfl, ?_, walked, bound, arrives, ?_⟩
    · by_contra neither
      push Not at neither
      rw [keys, Function.update_of_ne neither.2, keyAt_eq_none] at vacant
      exact gapped.occupied slot slotInside neither.1 vacant
    · intro earlier before
      have occupied := (path earlier before).1
      rw [keys] at occupied
      have away : (step slots.length)^[earlier] (home slots.length key) ≠ pos := by
        intro same
        rw [same, Function.update_self] at occupied
        exact occupied rfl
      rw [Function.update_of_ne away] at occupied
      exact ⟨away, occupied⟩

/-- An entry that finds its own cell stays there, and its search is whole. -/
theorem Gap.stay (held : cellAt slots ((step slots.length)^[i] gap) = some (key, value))
    (found : ∃ walked < slots.length, (step slots.length)^[walked] (home slots.length key) =
      (step slots.length)^[i] gap ∧
      ∀ earlier < walked,
        keyAt slots ((step slots.length)^[earlier] (home slots.length key)) ≠ none)
    : Gap home slots gap (i + 1) := by
  refine { gapped with settled := ?_ }
  intro pos otherKey present near
  rcases Nat.lt_succ_iff_lt_or_eq.mp near with before | here
  · exact gapped.settled pos otherKey present before
  · have place := iterate_distance gapped.inside (lt_of_cellAt (cellAt_of_keyAt present))
    rw [here] at place
    rw [← place] at present ⊢
    rw [keyAt_of_cellAt held] at present
    obtain rfl := Option.some.inj present
    exact found

/-- An entry that finds the gap moves there, nearer to its home, and leaves a gap. -/
theorem Gap.move (homeInside : ∀ key, home slots.length key < slots.length) {pos : Nat}
    (held : cellAt slots pos = some (key, value))
    (found : ∃ walked < slots.length, (step slots.length)^[walked] (home slots.length key) = gap ∧
      ∀ earlier < walked, (step slots.length)^[earlier] (home slots.length key) ≠ pos)
    : Gap home ((slots.set pos none).set gap (some (key, value))) pos 1
      ∧ strays home ((slots.set pos none).set gap (some (key, value))) < strays home slots := by
  have inside : pos < slots.length :=
    lt_of_cellAt (by rw [held]; exact Option.some_ne_none (key, value))
  have gapInside : gap < (slots.set pos none).length := by
    rw [List.length_set]
    exact gapped.inside
  have apart : pos ≠ gap := by
    rintro rfl
    rw [gapped.vacant] at held
    cases held
  have sameLength : ((slots.set pos none).set gap (some (key, value))).length = slots.length := by
    rw [List.length_set, List.length_set]
  have cells : ∀ other, cellAt ((slots.set pos none).set gap (some (key, value))) other
      = if other = gap then some (key, value) else if other = pos then none
        else cellAt slots other := by
    intro other
    rw [cellAt_set gapInside, cellAt_set inside]
  have vacant : cellAt ((slots.set pos none).set gap (some (key, value))) pos = none := by
    rw [cells, if_neg apart, if_pos rfl]
  constructor
  · have posInside : pos < ((slots.set pos none).set gap (some (key, value))).length := by
      rwa [sameLength]
    refine
      { inside := posInside
        vacant := vacant
        occupied := ?_
        unique := ?_
        settled := fun other otherKey present near =>
          absurd near (distance_gap_pos posInside vacant present) }
    · intro other otherInside away
      rw [sameLength] at otherInside
      rw [cells, if_neg away]
      split
      · exact Option.some_ne_none _
      · rename_i elsewhere
        exact gapped.occupied other otherInside elsewhere
    · have kept : ∀ other otherKey,
          keyAt ((slots.set pos none).set gap (some (key, value))) other = some otherKey →
          other = gap ∧ otherKey = key ∨ other ≠ pos ∧ keyAt slots other = some otherKey := by
        intro other otherKey present
        rw [keyAt, cells] at present
        split at present
        · rename_i same
          exact .inl ⟨same, (Option.some.inj present).symm⟩
        · split at present
          · cases present
          · rename_i away
            exact .inr ⟨away, present⟩
      have gone : ∀ other, other ≠ pos → keyAt slots other ≠ some key := by
        intro other away present
        exact away (gapped.unique other pos key present (keyAt_of_cellAt held))
      intro left right shared atLeft atRight
      rcases kept left shared atLeft with ⟨rfl, rfl⟩ | ⟨leftAway, leftKept⟩
      · rcases kept right shared atRight with ⟨rfl, _⟩ | ⟨rightAway, rightKept⟩
        · rfl
        · exact absurd rightKept (gone right rightAway)
      · rcases kept right shared atRight with ⟨rfl, rfl⟩ | ⟨rightAway, rightKept⟩
        · exact absurd leftKept (gone left leftAway)
        · exact gapped.unique left right shared leftKept rightKept
  · obtain ⟨walked, bound, arrives, path⟩ := found
    -- the walk to the gap does not pass the old cell, which lies behind it
    have nearer : walked < distance slots.length (home slots.length key) pos := by
      have reaches := iterate_distance (homeInside key) inside
      rcases Nat.lt_trichotomy walked (distance slots.length (home slots.length key) pos)
        with before | same | behind
      · exact before
      · rw [← same, arrives] at reaches
        exact absurd reaches.symm apart
      · exact absurd reaches (path _ behind)
    have emptied := @strays_set κ ν home slots pos inside none
    have written := @strays_set κ ν home (slots.set pos none) gap gapInside (some (key, value))
    have strayHere : stray home slots pos = distance slots.length (home slots.length key) pos := by
      rw [stray, keyAt_of_cellAt held]
      rfl
    have strayGone : stray home (slots.set pos none) pos = 0 := by
      rw [stray, keyAt, cellAt_set inside, if_pos rfl]
      rfl
    have strayGap : stray home (slots.set pos none) gap = 0 := by
      rw [stray, keyAt, cellAt_set inside, if_neg apart.symm, gapped.vacant]
      rfl
    have strayNew : stray home ((slots.set pos none).set gap (some (key, value))) gap = walked := by
      rw [stray, sameLength, keyAt, cells, if_pos rfl]
      change distance slots.length (home slots.length key) gap = walked
      rw [← arrives, distance_iterate (homeInside key) bound]
    omega

/-- The entry behind the settled ones is taken out and written again. -/
theorem Gap.turn [DecidableEq κ] (homeInside : ∀ key, home slots.length key < slots.length)
    {pos : Nat} (place : (step slots.length)^[i] gap = pos)
    (held : cellAt slots pos = some (key, value))
    : ∃ slot, vacancy (slots.set pos none) slots.length (home slots.length key) = some slot
        ∧ SameEntries slots ((slots.set pos none).set slot (some (key, value)))
        ∧ ((slots.set pos none).set slot (some (key, value)) = slots
            ∧ Gap home slots gap (i + 1)
          ∨ Gap home ((slots.set pos none).set slot (some (key, value))) pos 1
            ∧ strays home ((slots.set pos none).set slot (some (key, value)))
              < strays home slots) := by
  have inside : pos < slots.length :=
    lt_of_cellAt (by rw [held]; exact Option.some_ne_none (key, value))
  obtain ⟨slot, free, which, walked, bound, arrives, path⟩ := gapped.finds homeInside held
  refine ⟨slot, free, ?_, ?_⟩
  · apply sameEntries_moved gapped.unique held
    · rcases which with rfl | rfl
      · rw [List.length_set]
        exact gapped.inside
      · rwa [List.length_set]
    · rw [cellAt_set inside]
      rcases which with rfl | rfl
      · rw [gapped.vacant, ite_self]
      · rw [if_pos rfl]
  · rcases which with rfl | rfl
    · exact .inr (gapped.move homeInside held
        ⟨walked, bound, arrives, fun earlier before => (path earlier before).1⟩)
    · refine .inl ⟨?_, ?_⟩
      · rw [List.set_set, set_cellAt held]
      · subst place
        exact gapped.stay held
          ⟨walked, bound, arrives, fun earlier before => (path earlier before).2⟩

end

end Turn

end Z23.Lib.ProbeTable
