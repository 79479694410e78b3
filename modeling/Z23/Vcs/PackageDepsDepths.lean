import Z23.Vcs.PackageDepsWalk

/-!
The reverse pass over a finished walk gives every node the length of the longest path to it. A
dependent stands behind its dependencies, so its own depth is final when its edges are relaxed.
-/

namespace Z23.Vcs

open Z23.Lib.OrderedGraph

variable {load : Loader} {target root : Root} {release : Release} {edge : Dep}
variable {rows : List (LockNode × List Dep)} {row : LockNode × List Dep} {path : List Nat}
variable {i j k : Nat}

-- Where the nodes of a finished walk stand

theorem roots_getElem?
    : (roots rows)[k]? = some root ↔ ∃ row, rows[k]? = some row ∧ row.1.root = root := by
  rw [roots, List.getElem?_map, Option.map_eq_some_iff]

section

variable (finished : Finished load target rows)
include finished

theorem Finished.reported (here : rows[i]? = some row)
    : ∃ release, Reported load row release :=
  finished.emitted.reported row (List.mem_of_getElem? here)

theorem Finished.index_unique (one : (roots rows)[j]? = some root)
    (other : (roots rows)[k]? = some root)
    : j = k := by
  obtain ⟨inside, here⟩ := List.getElem?_eq_some_iff.mp one
  obtain ⟨inside', here'⟩ := List.getElem?_eq_some_iff.mp other
  exact (List.Nodup.getElem_inj_iff finished.once).mp (here.trans here'.symm)

theorem Finished.edge_before (here : rows[i]? = some row) (declared : edge ∈ row.2)
    (there : (roots rows)[k]? = some edge.root)
    : k < i := by
  obtain ⟨inside, same⟩ := List.getElem?_eq_some_iff.mp here
  have split : rows = rows.take i ++ row :: rows.drop (i + 1) := by
    rw [← same, ← List.drop_eq_getElem_cons, List.take_append_drop]
  have earlier := finished.emitted.behind _ _ _ split edge declared
  obtain ⟨j, within, found⟩ := List.getElem_of_mem earlier
  have place : (roots rows)[j]? = some edge.root := by
    have read := List.getElem?_eq_getElem within
    rw [found] at read
    rw [roots, List.length_map, List.length_take] at within
    rw [roots, List.getElem?_map, List.getElem?_take_of_lt (by omega)] at read
    rw [roots, List.getElem?_map, read]
  rw [roots, List.length_map, List.length_take] at within
  have unique := finished.index_unique there place
  omega

theorem Finished.reached_iff : root ∈ roots rows ↔ Reaches (successors load) target root := by
  constructor
  · intro member
    obtain ⟨row, held, rfl⟩ := List.mem_map.mp member
    exact finished.emitted.reached row held
  · intro reaches
    exact finished.emitted.reaches (List.mem_of_getLast? finished.last) reaches

theorem Finished.index (reaches : Reaches (successors load) target root)
    : ∃ k : Nat, (roots rows)[k]? = some root := by
  obtain ⟨k, inside, here⟩ := List.getElem_of_mem (finished.reached_iff.mpr reaches)
  exact ⟨k, by rw [List.getElem?_eq_getElem inside, here]⟩

theorem Finished.edge_of_successor (here : (roots rows)[j]? = some root) {position : Nat}
    {next : Root} (child : (successors load root)[position]? = some next)
    : ∃ row edge, rows[j]? = some row ∧ row.2[position]? = some edge ∧ edge.root = next := by
  obtain ⟨row, read, rfl⟩ := roots_getElem?.mp here
  obtain ⟨release, reported⟩ := finished.reported read
  rw [successors_eq reported.loaded, ← reported.edges, List.getElem?_map, Option.map_eq_some_iff]
    at child
  obtain ⟨edge, declared, same⟩ := child
  exact ⟨row, edge, read, declared, same⟩

theorem Finished.successor_of_edge (here : rows[i]? = some row) (declared : edge ∈ row.2)
    : edge.root ∈ successors load row.1.root := by
  obtain ⟨release, reported⟩ := finished.reported here
  rw [successors_eq reported.loaded, ← reported.edges]
  exact List.mem_map.mpr ⟨edge, declared, rfl⟩

end

-- Rows with their depths

/-- The nodes of the rows with the depths the pass has given them. -/
def withDepths (rows : List (LockNode × List Dep)) (depths : Nat → Nat) : List LockNode :=
  rows.mapIdx fun k row => { row.1 with depth := depths k }

theorem withDepths_getElem? (depths : Nat → Nat)
    : (withDepths rows depths)[k]? = (rows[k]?).map fun row => { row.1 with depth := depths k } := by
  rw [withDepths, List.getElem?_mapIdx]

theorem withDepths_zero
    : (rows.map fun row => { row.1 with depth := 0 }) = withDepths rows fun _ => 0 := by
  apply List.ext_getElem?
  intro k
  rw [withDepths_getElem?, List.getElem?_map]

theorem Finished.lockFind (finished : Finished load target rows) (depths : Nat → Nat)
    (here : (roots rows)[k]? = some root)
    : Walk.lockFind (withDepths rows depths) root = some k := by
  obtain ⟨row, read, rfl⟩ := roots_getElem?.mp here
  obtain ⟨inside, same⟩ := List.getElem?_eq_some_iff.mp read
  rw [Walk.lockFind, List.findIdx?_eq_some_iff_getElem]
  refine ⟨by rwa [withDepths, List.length_mapIdx], ?_, ?_⟩
  · simp [withDepths, same]
  · intro j before
    simp only [withDepths, List.getElem_mapIdx, decide_eq_true_eq]
    intro equal
    have place : (roots rows)[j]? = some row.1.root :=
      roots_getElem?.mpr ⟨rows[j], List.getElem?_eq_getElem (by omega), equal⟩
    have unique := finished.index_unique place here
    omega

theorem Finished.relaxDepth (finished : Finished load target rows) (depths : Nat → Nat)
    (depth : Nat) (here : (roots rows)[k]? = some edge.root) (before : k < i)
    : Vcs.relaxDepth i depth (withDepths rows depths) edge
        = .ok (withDepths rows (Function.update depths k (max (depths k) depth))) := by
  rw [Vcs.relaxDepth, finished.lockFind depths here]
  simp only [Nat.not_le.mpr before, if_false]
  congr 1
  apply List.ext_getElem?
  intro place
  rw [List.getElem?_modify, withDepths_getElem?, withDepths_getElem?]
  cases rows[place]? with
  | none => rfl
  | some row =>
    by_cases same : k = place
    · subst same
      simp only [Option.map_some, if_true, Function.update_self, Option.map_eq_map]
      split
      · rename_i raised
        rw [Nat.max_eq_right raised.le]
      · rename_i kept
        rw [Nat.max_eq_left (Nat.not_lt.mp kept)]
    · simp only [Option.map_some, if_neg same, Function.update_of_ne (Ne.symm same),
        Option.map_eq_map]

theorem Finished.relaxAll (finished : Finished load target rows) (depth : Nat) (edges : List Dep)
    (standing : ∀ edge ∈ edges, ∃ k < i, (roots rows)[k]? = some edge.root) (depths : Nat → Nat)
    : ∃ depths', edges.foldlM (Vcs.relaxDepth i depth) (withDepths rows depths)
          = .ok (withDepths rows depths')
        ∧ (∀ k, depths k ≤ depths' k)
        ∧ (∀ k, depths' k = depths k
            ∨ depths' k = depth ∧ ∃ edge ∈ edges, (roots rows)[k]? = some edge.root)
        ∧ ∀ edge ∈ edges, ∀ k, (roots rows)[k]? = some edge.root → depth ≤ depths' k := by
  induction edges generalizing depths with
  | nil =>
    refine ⟨depths, rfl, fun k => Nat.le_refl _, fun k => .inl rfl, ?_⟩
    intro edge member
    cases member
  | cons edge edges ih =>
    obtain ⟨k, before, here⟩ := standing edge List.mem_cons_self
    obtain ⟨depths', ran, grows, source, reaches⟩ :=
      ih (List.forall_mem_cons.mp standing).2
        (Function.update depths k (max (depths k) depth))
    refine ⟨depths', ?_, ?_, ?_, ?_⟩
    · rw [List.foldlM_cons, finished.relaxDepth depths depth here before]
      exact ran
    · intro place
      refine Nat.le_trans ?_ (grows place)
      by_cases same : place = k
      · rw [same, Function.update_self]
        exact Nat.le_max_left _ _
      · rw [Function.update_of_ne same]
    · intro place
      rcases source place with kept | ⟨raised, other, member, there⟩
      · by_cases same : place = k
        · rw [same] at kept ⊢
          rw [Function.update_self] at kept
          rcases Nat.le_total (depths k) depth with low | high
          · rw [Nat.max_eq_right low] at kept
            exact .inr ⟨kept, edge, List.mem_cons_self, here⟩
          · rw [Nat.max_eq_left high] at kept
            exact .inl kept
        · rw [Function.update_of_ne same] at kept
          exact .inl kept
      · exact .inr ⟨raised, other, List.mem_cons_of_mem _ member, there⟩
    · intro other member place there
      rcases List.mem_cons.mp member with rfl | later
      · obtain rfl := finished.index_unique here there
        refine Nat.le_trans ?_ (grows k)
        rw [Function.update_self]
        exact Nat.le_max_right _ _
      · exact reaches other later place there

-- The reverse pass

/-- The nodes from `i` on have been settled. -/
structure Settling (load : Loader) (target : Root) (rows : List (LockNode × List Dep)) (i : Nat)
    (depths : Nat → Nat)
    : Prop where
  attained
    : ∀ k root, (roots rows)[k]? = some root → 0 < depths k →
        ∃ path, path.length = depths k ∧ follow (successors load) target path = some root
  relaxed
    : ∀ j row edge k, i ≤ j → rows[j]? = some row → edge ∈ row.2 →
        (roots rows)[k]? = some edge.root → depths j + 1 ≤ depths k
  bounded : ∀ j row, i ≤ j → rows[j]? = some row → row.2 ≠ [] → depths j < lockMaxDepth

section

variable (finished : Finished load target rows)
include finished

/-- A node whose dependents are settled has a path of its depth: only the target has none before
it. -/
theorem Settling.attained_at {depths : Nat → Nat}
    (settling : Settling load target rows (i + 1) depths) (here : (roots rows)[i]? = some root)
    : ∃ path, path.length = depths i ∧ follow (successors load) target path = some root := by
  rcases Nat.eq_zero_or_pos (depths i) with zero | positive
  · obtain ⟨path, leads⟩ := finished.reached_iff.mp (List.mem_of_getElem? here)
    rcases List.eq_nil_or_concat' path with rfl | ⟨front, position, rfl⟩
    · exact ⟨[], zero.symm, leads⟩
    · obtain ⟨parent, before, last⟩ := follow_append_eq_some leads
      obtain ⟨j, place⟩ := finished.index ⟨front, before⟩
      rw [follow] at last
      obtain ⟨next, child, same⟩ := Option.bind_eq_some_iff.mp last
      cases same
      obtain ⟨row, edge, read, declared, same⟩ := finished.edge_of_successor place child
      have member := List.mem_of_getElem? declared
      rw [← same] at here
      have earlier := finished.edge_before read member here
      have raised := settling.relaxed j row edge i earlier read member here
      omega
  · exact settling.attained i root here positive

theorem Settling.node {depths : Nat → Nat} (settling : Settling load target rows (i + 1) depths)
    (inside : i < rows.length)
    : (∃ depths', settleNode (rows.map Prod.snd) i (withDepths rows depths)
            = .ok (withDepths rows depths')
          ∧ Settling load target rows i depths')
        ∨ (∃ refusal, settleNode (rows.map Prod.snd) i (withDepths rows depths) = .error refusal)
          ∧ ¬ Resolvable load target := by
  have read := List.getElem?_eq_getElem inside
  generalize rows[i] = row at read
  have place : (roots rows)[i]? = some row.1.root := roots_getElem?.mpr ⟨row, read, rfl⟩
  obtain ⟨path, length, leads⟩ := settling.attained_at finished place
  have standing : ∀ edge ∈ row.2, ∃ k < i, (roots rows)[k]? = some edge.root := by
    intro edge declared
    have next := finished.successor_of_edge read declared
    obtain ⟨k, there⟩ := finished.index (Reaches.trans ⟨path, leads⟩ (reaches_of_mem next))
    exact ⟨k, finished.edge_before read declared there, there⟩
  rw [settleNode, withDepths_getElem?, List.getElem?_map, read]
  simp only [Option.map_some]
  split
  · rename_i deep
    refine .inr ⟨⟨_, rfl⟩, fun resolvable => ?_⟩
    obtain ⟨edge, declared⟩ := List.exists_mem_of_length_pos deep.2
    obtain ⟨more, onward⟩ := reaches_of_mem (finished.successor_of_edge read declared)
    have bound := resolvable.shallow (path ++ more) edge.root (by
      rw [follow_append, leads, Option.bind_some, onward])
    have some : more ≠ [] := by
      rintro rfl
      rw [Option.some.inj onward] at place
      have before := finished.edge_before read declared place
      omega
    have long := List.length_pos_iff.mpr some
    rw [List.length_append, length] at bound
    have low := deep.1
    omega
  · rename_i low
    obtain ⟨depths', ran, grows, source, reaches⟩ :=
      finished.relaxAll (depths i + 1) row.2 standing depths
    have fixed : ∀ k, i ≤ k → depths' k = depths k := by
      intro k behind
      rcases source k with kept | ⟨-, edge, declared, there⟩
      · exact kept
      · have before := finished.edge_before read declared there
        omega
    refine .inl ⟨depths', ran, ?_, ?_, ?_⟩
    · intro k root there positive
      rcases source k with kept | ⟨raised, edge, declared, here⟩
      · rw [kept] at positive ⊢
        exact settling.attained k root there positive
      · rw [there, Option.some.injEq] at here
        obtain ⟨position, within, last⟩ :=
          List.getElem_of_mem (finished.successor_of_edge read declared)
        refine ⟨path ++ [position], by rw [List.length_append, length, raised]; rfl, ?_⟩
        rw [follow_snoc leads, List.getElem?_eq_getElem within, last, here]
    · intro j other edge k behind found declared there
      rw [fixed j behind]
      rcases Nat.lt_or_ge i j with later | least
      · exact Nat.le_trans (settling.relaxed j other edge k later found declared there) (grows k)
      · obtain rfl : j = i := Nat.le_antisymm least behind
        rw [read] at found
        cases found
        exact reaches edge declared k there
    · intro j other behind found nonempty
      rw [fixed j behind]
      rcases Nat.lt_or_ge i j with later | least
      · exact settling.bounded j other later found nonempty
      · obtain rfl : j = i := Nat.le_antisymm least behind
        rw [read] at found
        cases found
        by_contra high
        exact low ⟨Nat.not_lt.mp high, List.length_pos_iff.mpr nonempty⟩

theorem Settling.below {depths : Nat → Nat} (settling : Settling load target rows i depths)
    (inside : i ≤ rows.length)
    : (∃ depths', settleBelow (rows.map Prod.snd) i (withDepths rows depths)
            = .ok (withDepths rows depths')
          ∧ Settling load target rows 0 depths')
        ∨ (∃ refusal, settleBelow (rows.map Prod.snd) i (withDepths rows depths) = .error refusal)
          ∧ ¬ Resolvable load target := by
  induction i generalizing depths with
  | zero => exact .inl ⟨depths, rfl, settling⟩
  | succ i ih =>
    rw [settleBelow]
    rcases settling.node finished inside with ⟨depths', ran, next⟩ | ⟨⟨refusal, refused⟩, bad⟩
    · rw [ran]
      exact ih next (Nat.le_of_succ_le inside)
    · rw [refused]
      exact .inr ⟨⟨refusal, rfl⟩, bad⟩

theorem Finished.normalizeDepths
    : (∃ depths, Vcs.normalizeDepths rows = .ok (withDepths rows depths)
          ∧ Settling load target rows 0 depths)
        ∨ (∃ refusal, Vcs.normalizeDepths rows = .error refusal) ∧ ¬ Resolvable load target := by
  rw [Vcs.normalizeDepths, withDepths_zero]
  refine Settling.below finished ?_ (Nat.le_refl _)
  refine ⟨?_, ?_, ?_⟩
  · intro k root here positive
    exact absurd positive (Nat.lt_irrefl 0)
  · intro j row edge k behind found
    rw [List.getElem?_eq_none behind] at found
    cases found
  · intro j row behind found
    rw [List.getElem?_eq_none behind] at found
    cases found

end

-- What the depths are

section Settled

variable {depths : Nat → Nat} (finished : Finished load target rows)
variable (settled : Settling load target rows 0 depths)

include finished settled

theorem Settling.greatest (leads : follow (successors load) target path = some root)
    (here : (roots rows)[k]? = some root)
    : path.length ≤ depths k ∧ path.length ≤ lockMaxDepth := by
  generalize size : path.length = n
  induction n generalizing path root k with
  | zero => exact ⟨Nat.zero_le _, Nat.zero_le _⟩
  | succ n ih =>
    obtain ⟨front, position, parent, rfl, before, child⟩ :=
      last_edge leads (List.ne_nil_of_length_eq_add_one size)
    obtain ⟨j, place⟩ := finished.index ⟨front, before⟩
    obtain ⟨row, edge, read, declared, rfl⟩ := finished.edge_of_successor place child
    have member := List.mem_of_getElem? declared
    rw [List.length_append, List.length_singleton, Nat.add_right_cancel_iff] at size
    have deep := (ih before place size).1
    have raised := settled.relaxed j row edge k (Nat.zero_le _) read member here
    have low := settled.bounded j row (Nat.zero_le _) read (List.ne_nil_of_mem member)
    omega

theorem Settling.longest (here : (roots rows)[k]? = some root)
    : Longest (successors load) target root (depths k) where
  attained := by
    rcases Nat.eq_zero_or_pos (depths k) with zero | positive
    · obtain ⟨path, leads⟩ := finished.reached_iff.mp (List.mem_of_getElem? here)
      have bound := (settled.greatest finished leads here).1
      rw [zero, Nat.le_zero, List.length_eq_zero_iff] at bound
      subst bound
      exact ⟨[], zero.symm, leads⟩
    · exact settled.attained k root here positive
  greatest := fun path leads => (settled.greatest finished leads here).1

end Settled

-- What the walk says of the graph

theorem Finished.path_before (finished : Finished load target rows) {other : Root}
    (here : (roots rows)[i]? = some root) (there : (roots rows)[j]? = some other)
    (leads : follow (successors load) root path = some other)
    : path = [] ∨ j < i := by
  induction path generalizing root i with
  | nil => exact .inl rfl
  | cons position path ih =>
    right
    rw [follow] at leads
    obtain ⟨next, child, onward⟩ := Option.bind_eq_some_iff.mp leads
    obtain ⟨row, edge, read, declared, rfl⟩ := finished.edge_of_successor here child
    have reached := finished.reached_iff.mp (List.mem_of_getElem? here)
    obtain ⟨k, place⟩ := finished.index (reached.trans (reaches_of_mem (List.mem_of_getElem? child)))
    have before := finished.edge_before read (List.mem_of_getElem? declared) place
    rcases ih place onward with rfl | earlier
    · cases onward
      have unique := finished.index_unique there place
      omega
    · omega

theorem Finished.resolvable {depths : Nat → Nat} (finished : Finished load target rows)
    (settled : Settling load target rows 0 depths)
    : Resolvable load target where
  loads := by
    intro root reaches
    obtain ⟨k, here⟩ := finished.index reaches
    obtain ⟨row, read, rfl⟩ := roots_getElem?.mp here
    obtain ⟨release, reported⟩ := finished.reported read
    exact ⟨release, reported.loaded⟩
  acyclic := by
    intro root path reaches around
    obtain ⟨k, here⟩ := finished.index reaches
    exact (finished.path_before here here around).resolve_right (Nat.lt_irrefl k)
  shallow := by
    intro path root leads
    obtain ⟨k, here⟩ := finished.index ⟨path, leads⟩
    exact (settled.greatest finished leads here).2
  few := by
    have counted := @encard_eq_length _ _ finished.once
      {root | Reaches (successors load) target root} fun root => finished.reached_iff
    rw [counted, Nat.cast_le, roots, List.length_map]
    exact finished.emitted.few

theorem Finished.firstLabels {depths : Nat → Nat} (finished : Finished load target rows)
    (settled : Settling load target rows 0 depths)
    : FirstLabels load target := by
  intro path i parent release edge found first leads loaded here resolved
  have member := finished.reached_iff.mpr ⟨_, first.leads⟩
  rcases finished.entered edge.root member with same | entered
  · have around := first.leads
    rw [same] at around
    have empty := (finished.resolvable settled).acyclic target _ Reaches.refl around
    exact absurd empty (List.append_ne_nil_of_right_ne_nil _ (List.cons_ne_nil _ _))
  · obtain ⟨path', i', parent', release', edge', found', first', leads', loaded', here', resolved',
      agree⟩ := entered
    obtain ⟨rfl, same⟩ := List.append_inj' (first.unique first') rfl
    cases same
    rw [leads] at leads'
    cases leads'
    rw [loaded] at loaded'
    cases loaded'
    rw [here] at here'
    cases here'
    rw [resolved] at resolved'
    cases resolved'
    exact agree

end Z23.Vcs
