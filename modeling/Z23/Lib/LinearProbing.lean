import Mathlib.Logic.Function.Iterate

/-!
Open addressing: a search that walks from a key's home position along a successor function
until it meets the key, an empty cell or its probe limit.
-/

namespace Z23.Lib.LinearProbing

variable {π κ : Type}

/-- How a probe sequence ends. -/
inductive Outcome (π : Type) where
  | found (pos : π)
  | free (pos : π)
  | exhausted
deriving DecidableEq, Repr

/-- Probe at most `fuel` cells, starting at `pos`. -/
def seek [DecidableEq κ] (next : π → π) (cells : π → Option κ) (key : κ)
    : Nat → π → Outcome π
  | 0, _ => .exhausted
  | fuel + 1, pos =>
    match cells pos with
    | none => .free pos
    | some other =>
      if other = key then .found pos else seek next cells key fuel (next pos)

/-- The keys of a probed table: each is reachable from its home through occupied cells. -/
structure Probed (next : π → π) (home : κ → π) (limit : Nat) (cells : π → Option κ)
    : Prop where
  reach
    : ∀ pos key, cells pos = some key →
        ∃ steps < limit, next^[steps] (home key) = pos
          ∧ ∀ earlier < steps, cells (next^[earlier] (home key)) ≠ none
  unique
    : ∀ pos pos' key, cells pos = some key → cells pos' = some key → pos = pos'

theorem Probed.empty (next : π → π) (home : κ → π) (limit : Nat)
    : Probed next home limit (fun _ => none) where
  reach := fun _ _ found => by simp at found
  unique := fun _ _ _ found => by simp at found

variable [DecidableEq κ] {next : π → π} {cells : π → Option κ} {key : κ}

theorem seek_found {fuel : Nat} {start pos : π}
    (outcome : seek next cells key fuel start = .found pos)
    : cells pos = some key := by
  induction fuel generalizing start with
  | zero => simp [seek] at outcome
  | succ fuel ih =>
    rw [seek] at outcome
    split at outcome
    · simp at outcome
    · rename_i other occupied
      split at outcome
      · rename_i same
        obtain rfl := Outcome.found.inj outcome
        rw [occupied, same]
      · exact ih outcome

/-- A free cell is found after a walk through cells occupied by other keys. -/
theorem seek_free {fuel : Nat} {start pos : π}
    (outcome : seek next cells key fuel start = .free pos)
    : cells pos = none
        ∧ ∃ steps < fuel, next^[steps] start = pos
          ∧ ∀ earlier < steps,
              cells (next^[earlier] start) ≠ none
                ∧ cells (next^[earlier] start) ≠ some key := by
  induction fuel generalizing start with
  | zero => simp [seek] at outcome
  | succ fuel ih =>
    rw [seek] at outcome
    split at outcome
    · rename_i vacant
      obtain rfl := Outcome.free.inj outcome
      exact ⟨vacant, 0, Nat.succ_pos _, rfl, by simp⟩
    · rename_i other occupied
      split at outcome
      · simp at outcome
      · rename_i differs
        obtain ⟨vacant, steps, bound, arrives, before⟩ := ih outcome
        refine ⟨vacant, steps + 1, Nat.succ_lt_succ bound, arrives, ?_⟩
        intro earlier earlierBound
        cases earlier with
        | zero => simp [occupied, differs]
        | succ earlier => exact before earlier (Nat.lt_of_succ_lt_succ earlierBound)

theorem seek_exhausted {fuel : Nat} {start : π}
    (outcome : seek next cells key fuel start = .exhausted)
    : ∀ steps < fuel, cells (next^[steps] start) ≠ some key := by
  induction fuel generalizing start with
  | zero => simp
  | succ fuel ih =>
    rw [seek] at outcome
    split at outcome
    · simp at outcome
    · rename_i other occupied
      split at outcome
      · simp at outcome
      · rename_i differs
        intro steps bound
        cases steps with
        | zero => simp [occupied, differs]
        | succ steps => exact ih outcome steps (Nat.lt_of_succ_lt_succ bound)

/-- A search that runs out of fuel met no empty cell. -/
theorem seek_exhausted_occupied {fuel : Nat} {start : π}
    (outcome : seek next cells key fuel start = .exhausted)
    : ∀ steps < fuel, cells (next^[steps] start) ≠ none := by
  induction fuel generalizing start with
  | zero => simp
  | succ fuel ih =>
    rw [seek] at outcome
    split at outcome
    · cases outcome
    · rename_i other occupied
      split at outcome
      · cases outcome
      · intro steps bound
        cases steps with
        | zero => simp [occupied]
        | succ steps => exact ih outcome steps (Nat.lt_of_succ_lt_succ bound)

variable {home : κ → π} {limit : Nat}

/-- A search that does not find a key proves the key absent. -/
theorem Probed.absent_of_not_found (probed : Probed next home limit cells) (key : κ)
    (missed : ∀ pos, seek next cells key limit (home key) ≠ .found pos)
    : ∀ pos, cells pos ≠ some key := by
  intro pos present
  obtain ⟨steps, bound, arrives, path⟩ := probed.reach pos key present
  cases outcome : seek next cells key limit (home key) with
  | found other => exact missed other outcome
  | exhausted => exact seek_exhausted outcome steps bound (arrives ▸ present)
  | free gap =>
    obtain ⟨vacant, walked, _, gapArrives, walkedPath⟩ := seek_free outcome
    -- The gap lies before, at or behind the key; each contradicts one of the two walks.
    rcases Nat.lt_trichotomy walked steps with before | same | behind
    · exact path walked before (gapArrives ▸ vacant)
    · subst same
      rw [← arrives, gapArrives, vacant] at present
      simp at present
    · exact (walkedPath steps behind).2 (arrives ▸ present)

/-- Writing a key into the free cell its search ends at keeps the table probed. -/
theorem Probed.insert [DecidableEq π] (probed : Probed next home limit cells) {pos : π}
    (outcome : seek next cells key limit (home key) = .free pos)
    : Probed next home limit (Function.update cells pos (some key)) := by
  obtain ⟨vacant, walked, walkedBound, arrives, walkedPath⟩ := seek_free outcome
  have absent := probed.absent_of_not_found key (by simp [outcome])
  have keepsOccupied : ∀ other, cells other ≠ none →
      Function.update cells pos (some key) other ≠ none := by
    intro other occupied
    by_cases same : other = pos
    · simp [same]
    · rwa [Function.update_of_ne same]
  constructor
  · intro other otherKey present
    by_cases same : other = pos
    · subst same
      rw [Function.update_self] at present
      obtain rfl := Option.some.inj present
      exact ⟨walked, walkedBound, arrives, fun earlier bound =>
        keepsOccupied _ (walkedPath earlier bound).1⟩
    · rw [Function.update_of_ne same] at present
      obtain ⟨steps, bound, reaches, path⟩ := probed.reach other otherKey present
      exact ⟨steps, bound, reaches, fun earlier bound => keepsOccupied _ (path earlier bound)⟩
  · intro left right sharedKey atLeft atRight
    by_cases leftNew : left = pos <;> by_cases rightNew : right = pos
    · rw [leftNew, rightNew]
    · rw [leftNew, Function.update_self] at atLeft
      rw [Function.update_of_ne rightNew] at atRight
      exact absurd (Option.some.inj atLeft ▸ atRight) (absent right)
    · rw [rightNew, Function.update_self] at atRight
      rw [Function.update_of_ne leftNew] at atLeft
      exact absurd (Option.some.inj atRight ▸ atLeft) (absent left)
    · rw [Function.update_of_ne leftNew] at atLeft
      rw [Function.update_of_ne rightNew] at atRight
      exact probed.unique left right sharedKey atLeft atRight

-- Removal

/--
A table while the run of cells behind a removed key is written again, from place `i` of the run
on. Only keys that are still to be written may be out of reach, and only behind cells of the run
that have had their turn.
-/
structure Repairing (next : π → π) (home : κ → π) (limit : Nat) (start : π) (len i : Nat)
    (cells : π → Option κ) : Prop where
  ends : cells (next^[len] start) = none
  run : ∀ j, i ≤ j → j < len → cells (next^[j] start) ≠ none
  apart : ∀ j < len, next^[j] start ≠ next^[len] start
  unique
    : ∀ pos pos' key, cells pos = some key → cells pos' = some key → pos = pos'
  reach
    : ∀ pos key, cells pos = some key →
        ∃ steps < limit, next^[steps] (home key) = pos
          ∧ ∀ earlier < steps, cells (next^[earlier] (home key)) ≠ none
            ∨ (∃ j < i, next^[earlier] (home key) = next^[j] start)
              ∧ ∃ j, i ≤ j ∧ j < len ∧ pos = next^[j] start

omit [DecidableEq κ] in
/-- Behind the run the table is as a table should be. -/
theorem Repairing.probed {start : π} {len : Nat}
    (repairing : Repairing next home limit start len len cells)
    : Probed next home limit cells where
  unique := repairing.unique
  reach := by
    intro pos key present
    obtain ⟨steps, bound, arrives, path⟩ := repairing.reach pos key present
    refine ⟨steps, bound, arrives, fun earlier before => ?_⟩
    rcases path earlier before with occupied | ⟨_, j, low, high, _⟩
    · exact occupied
    · omega

omit [DecidableEq κ] in
/-- A walk through occupied cells from a place of the run to another cell stays in the run. -/
theorem run_of_walk {start pos : π} {len i steps : Nat} (ends : cells (next^[len] start) = none)
    (inside : i < len) (arrives : next^[steps] (next^[i] start) = pos)
    (walk : ∀ earlier < steps, cells (next^[earlier] (next^[i] start)) ≠ none)
    (occupied : cells pos ≠ none)
    : i + steps < len ∧ pos = next^[i + steps] start := by
  have joined : ∀ k, next^[k] (next^[i] start) = next^[i + k] start := by
    intro k
    rw [Nat.add_comm, Function.iterate_add_apply]
  have place : pos = next^[i + steps] start := by rw [← arrives, joined]
  refine ⟨?_, place⟩
  by_contra beyond
  rcases Nat.eq_or_lt_of_le (Nat.le_of_not_lt beyond) with same | further
  · rw [place, ← same] at occupied
    exact occupied ends
  · apply walk (len - i) (by omega)
    rw [joined, Nat.add_sub_cancel' (Nat.le_of_lt inside)]
    exact ends

omit [DecidableEq κ] in
/-- The run behind a removed key. -/
theorem Probed.repairing [DecidableEq π] (probed : Probed next home limit cells) {start : π}
    {len : Nat} (some_run : 0 < len) (ends : cells (next^[len] start) = none)
    (run : ∀ j < len, cells (next^[j] start) ≠ none)
    : Repairing next home limit start len 1 (Function.update cells start none) := by
  have apart : ∀ j < len, next^[j] start ≠ next^[len] start := by
    intro j inside same
    exact run j inside (same ▸ ends)
  have apartStart : ∀ j, 1 ≤ j → j < len → next^[j] start ≠ start := by
    intro j low inside same
    -- a run that comes back to its start never ends
    apply apart (len - j) (by omega)
    have split : next^[len] start = next^[len - j] (next^[j] start) := by
      rw [← Function.iterate_add_apply, Nat.sub_add_cancel (Nat.le_of_lt inside)]
    rw [split, same]
  refine { ends := ?_, run := ?_, apart := apart, unique := ?_, reach := ?_ }
  · have away : next^[len] start ≠ start := (apart 0 some_run).symm
    rw [Function.update_of_ne away]
    exact ends
  · intro j low inside
    rw [Function.update_of_ne (apartStart j low inside)]
    exact run j inside
  · intro pos pos' key present present'
    have kept : ∀ p, Function.update cells start none p = some key → cells p = some key := by
      intro p present
      by_cases same : p = start
      · rw [same, Function.update_self] at present
        cases present
      · rwa [Function.update_of_ne same] at present
    exact probed.unique pos pos' key (kept pos present) (kept pos' present')
  · intro pos key present
    have away : pos ≠ start := by
      intro same
      rw [same, Function.update_self] at present
      cases present
    rw [Function.update_of_ne away] at present
    obtain ⟨steps, bound, arrives, path⟩ := probed.reach pos key present
    refine ⟨steps, bound, arrives, fun earlier before => ?_⟩
    by_cases atStart : next^[earlier] (home key) = start
    · right
      refine ⟨⟨0, Nat.one_pos, atStart⟩, ?_⟩
      have tail : ∀ k, next^[k] start = next^[k + earlier] (home key) := by
        intro k
        rw [Function.iterate_add_apply, atStart]
      have arrivesTail : next^[steps - earlier] (next^[0] start) = pos := by
        rw [Function.iterate_zero_apply, tail, Nat.sub_add_cancel (Nat.le_of_lt before), arrives]
      obtain ⟨inside, place⟩ := run_of_walk ends some_run arrivesTail
        (fun k below => by
          rw [Function.iterate_zero_apply, tail]
          exact path (k + earlier) (by omega))
        (by rw [present]; exact Option.some_ne_none key)
      rw [Nat.zero_add] at inside place
      exact ⟨steps - earlier, by omega, inside, place⟩
    · left
      rw [Function.update_of_ne atStart]
      exact path earlier before

section Turn

variable [DecidableEq π] {start : π} {len i : Nat}
  (repairing : Repairing next home limit start len i cells) (inside : i < len)
  (present : cells (next^[i] start) = some key)
include repairing inside present

omit [DecidableEq π] [DecidableEq κ] inside present in
/-- The places of the run from its turn on are apart. -/
theorem Repairing.apart_turn {j : Nat} (low : i < j) (high : j < len)
    : next^[j] start ≠ next^[i] start := by
  intro same
  apply repairing.apart (len - j + i) (by omega)
  have split : next^[len] start = next^[len - j] (next^[j] start) := by
    rw [← Function.iterate_add_apply, Nat.sub_add_cancel (Nat.le_of_lt high)]
  rw [split, same, Function.iterate_add_apply]

/-- The key that has its turn finds a free cell, at the latest the one it comes from. -/
theorem Repairing.finds
    : ∃ pos, seek next (Function.update cells (next^[i] start) none) key limit (home key)
        = .free pos ∧ pos ≠ next^[len] start := by
  obtain ⟨steps, bound, arrives, path⟩ := repairing.reach _ key present
  have emptied : Function.update cells (next^[i] start) none (next^[steps] (home key)) = none := by
    rw [arrives, Function.update_self]
  cases outcome : seek next (Function.update cells (next^[i] start) none) key limit (home key) with
  | found pos =>
    have found := seek_found outcome
    by_cases same : pos = next^[i] start
    · rw [same, Function.update_self] at found
      cases found
    · rw [Function.update_of_ne same] at found
      exact absurd (repairing.unique _ _ _ found present) same
  | exhausted => exact absurd emptied (seek_exhausted_occupied outcome steps bound)
  | free pos =>
    obtain ⟨-, walked, -, walkArrives, walk⟩ := seek_free outcome
    have early : walked ≤ steps := by
      by_contra late
      exact (walk steps (Nat.lt_of_not_le late)).1 emptied
    refine ⟨pos, rfl, fun atEnd => ?_⟩
    rcases Nat.eq_or_lt_of_le early with same | before
    · rw [← walkArrives, same, arrives] at atEnd
      exact repairing.apart i inside atEnd
    · rcases path walked before with occupied | ⟨⟨j, below, place⟩, _⟩
      · apply occupied
        rw [walkArrives, atEnd]
        exact repairing.ends
      · rw [walkArrives] at place
        exact repairing.apart j (by omega) (place.symm.trans atEnd)

/-- Taking the key of the next place of the run out and writing it again. -/
theorem Repairing.turn {pos : π}
    (outcome : seek next (Function.update cells (next^[i] start) none) key limit (home key)
      = .free pos)
    (notEnd : pos ≠ next^[len] start)
    : Repairing next home limit start len (i + 1)
        (Function.update (Function.update cells (next^[i] start) none) pos (some key)) := by
  obtain ⟨_, walked, walkedBound, walkArrives, walk⟩ := seek_free outcome
  -- every cell but the one that had its turn keeps its key or gets one
  have keeps : ∀ other, other ≠ next^[i] start → cells other ≠ none →
      Function.update (Function.update cells (next^[i] start) none) pos (some key) other
        ≠ none := by
    intro other away occupied
    by_cases same : other = pos
    · rw [same, Function.update_self]
      exact Option.some_ne_none key
    · rwa [Function.update_of_ne same, Function.update_of_ne away]
  have old : ∀ other otherKey, other ≠ pos →
      Function.update (Function.update cells (next^[i] start) none) pos (some key) other
        = some otherKey →
      other ≠ next^[i] start ∧ cells other = some otherKey := by
    intro other otherKey away found
    rw [Function.update_of_ne away] at found
    by_cases same : other = next^[i] start
    · rw [same, Function.update_self] at found
      cases found
    · rw [Function.update_of_ne same] at found
      exact ⟨same, found⟩
  have notKey : ∀ other, other ≠ pos →
      Function.update (Function.update cells (next^[i] start) none) pos (some key) other
        ≠ some key := by
    intro other away found
    obtain ⟨away', found'⟩ := old other key away found
    exact away' (repairing.unique _ _ _ found' present)
  refine { ends := ?_, run := ?_, apart := repairing.apart, unique := ?_, reach := ?_ }
  · rw [Function.update_of_ne notEnd.symm,
      Function.update_of_ne (repairing.apart i inside).symm]
    exact repairing.ends
  · intro j low high
    exact keeps _ (repairing.apart_turn (by omega) high)
      (repairing.run j (by omega) high)
  · intro left right shared atLeft atRight
    by_cases leftNew : left = pos
    · subst leftNew
      rw [Function.update_self] at atLeft
      cases atLeft
      by_contra apart
      exact notKey right (Ne.symm apart) atRight
    · by_cases rightNew : right = pos
      · subst rightNew
        rw [Function.update_self] at atRight
        cases atRight
        exact absurd atLeft (notKey left leftNew)
      · exact repairing.unique left right shared (old left shared leftNew atLeft).2
          (old right shared rightNew atRight).2
  · intro other otherKey found
    by_cases new : other = pos
    · subst new
      rw [Function.update_self] at found
      cases found
      refine ⟨walked, walkedBound, walkArrives, fun earlier before => .inl ?_⟩
      obtain ⟨occupied, _⟩ := walk earlier before
      by_cases same : next^[earlier] (home key) = other
      · rw [same, Function.update_self]
        exact Option.some_ne_none key
      · rwa [Function.update_of_ne same]
    · obtain ⟨away, held⟩ := old other otherKey new found
      obtain ⟨steps, bound, arrives, path⟩ := repairing.reach other otherKey held
      refine ⟨steps, bound, arrives, fun earlier before => ?_⟩
      -- a key of the run that is not at its turn comes later in it
      have later : (∃ j, i ≤ j ∧ j < len ∧ other = next^[j] start) →
          ∃ j, i + 1 ≤ j ∧ j < len ∧ other = next^[j] start := by
        rintro ⟨j, low, high, place⟩
        refine ⟨j, ?_, high, place⟩
        rcases Nat.eq_or_lt_of_le low with same | above
        · exact absurd (same ▸ place) away
        · exact above
      by_cases turned : next^[earlier] (home otherKey) = next^[i] start
      · refine .inr ⟨⟨i, Nat.lt_succ_self i, turned⟩, later ?_⟩
        by_contra outside
        have strict : ∀ step < steps, cells (next^[step] (home otherKey)) ≠ none := by
          intro step below
          rcases path step below with occupied | ⟨_, pending⟩
          · exact occupied
          · exact absurd pending outside
        have tail : ∀ k, next^[k] (next^[i] start) = next^[k + earlier] (home otherKey) := by
          intro k
          rw [Function.iterate_add_apply, turned]
        have arrivesTail : next^[steps - earlier] (next^[i] start) = other := by
          rw [tail, Nat.sub_add_cancel (Nat.le_of_lt before), arrives]
        obtain ⟨within, place⟩ := run_of_walk repairing.ends inside arrivesTail
          (fun k below => by
            rw [tail]
            exact strict (k + earlier) (by omega))
          (by rw [held]; exact Option.some_ne_none otherKey)
        exact outside ⟨i + (steps - earlier), by omega, within, place⟩
      · rcases path earlier before with occupied | ⟨⟨j, below, place⟩, pending⟩
        · exact .inl (keeps _ turned occupied)
        · exact .inr ⟨⟨j, by omega, place⟩, later pending⟩

end Turn

end Z23.Lib.LinearProbing
