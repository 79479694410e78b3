import Z23.Vcs.PackageDeps

/-!
What a walk has done so far. The stack spells the first path to its top, every root an earlier
path leads to has been given out or is on the stack, and what has been given out is closed under
dependencies.
-/

namespace Z23.Vcs

open Z23.Lib.OrderedGraph

-- The graph of a loader

def successors (load : Loader) (root : Root) : List Root :=
  (load root).elim [] fun release => release.deps.map Dep.root

/-- The declared labels are those of the release; an empty label declares nothing. -/
def LabelsAgree (edge : Dep) (release : Release) : Prop :=
  (edge.name = [] ∨ edge.name = release.name) ∧ (edge.semver = [] ∨ edge.semver = release.semver)

/-- Everything a resolution asks of the graph besides the labels. -/
structure Resolvable (load : Loader) (target : Root) : Prop where
  loads : ∀ root, Reaches (successors load) target root → ∃ release, load root = some release
  acyclic : Acyclic (successors load) target
  shallow
    : ∀ path root, follow (successors load) target path = some root → path.length ≤ lockMaxDepth
  few : {root | Reaches (successors load) target root}.encard ≤ (lockMaxNodes : ℕ∞)

/-- Every edge that can be reached bears the labels of the release it points to. -/
def AllLabels (load : Loader) (target : Root) : Prop :=
  ∀ root release edge found, Reaches (successors load) target root → load root = some release →
    edge ∈ release.deps → load edge.root = some found → LabelsAgree edge found

/-- The labels are right on the last edge of the first path to each root. -/
def FirstLabels (load : Loader) (target : Root) : Prop :=
  ∀ path i parent release edge found,
    First (successors load) target edge.root (path ++ [i]) →
    follow (successors load) target path = some parent → load parent = some release →
    release.deps[i]? = some edge → load edge.root = some found → LabelsAgree edge found

variable {load : Loader} {target root parent : Root} {release found : Release} {edge : Dep}
variable {top frame : Frame} {below stack : List Frame} {path : List Nat} {i : Nat}
variable {rows : List (LockNode × List Dep)}

theorem labelClash_eq_none : labelClash root edge release = none ↔ LabelsAgree edge release := by
  rw [labelClash, LabelsAgree]
  split
  · rename_i clash
    simp only [reduceCtorEq, false_iff]
    exact fun agree => agree.1.elim clash.1 clash.2
  · rename_i named
    split
    · rename_i clash
      simp only [reduceCtorEq, false_iff]
      exact fun agree => agree.2.elim clash.1 clash.2
    · rename_i versioned
      simp only [true_iff]
      exact ⟨by tauto, by tauto⟩

theorem successors_eq (loaded : load root = some release)
    : successors load root = release.deps.map Dep.root := by
  rw [successors, loaded]
  rfl

theorem successors_getElem? (loaded : load root = some release)
    (here : release.deps[i]? = some edge)
    : (successors load root)[i]? = some edge.root := by
  rw [successors_eq loaded, List.getElem?_map, here]
  rfl

theorem AllLabels.firstLabels (labels : AllLabels load target) : FirstLabels load target := by
  intro path i parent release edge found first leads loaded here resolved
  exact labels parent release edge found ⟨path, leads⟩ loaded (List.mem_of_getElem? here) resolved

-- The stack

/-- Every frame was entered by the last edge the frame below it has taken; the positions of those
edges are the path. -/
inductive Stacked (load : Loader) (target : Root) : List Frame → List Nat → Prop
  | bottom {frame : Frame} (root : frame.root = target)
    (loaded : load frame.root = some frame.release)
    : Stacked load target [frame] []
  | push {frame parent : Frame} {below : List Frame} {path : List Nat} {i : Nat} {edge : Dep}
    (rest : Stacked load target (parent :: below) path) (next : parent.next = i + 1)
    (taken : parent.release.deps[i]? = some edge)
    (root : edge.root = frame.root) (loaded : load frame.root = some frame.release)
    : Stacked load target (frame :: parent :: below) (path ++ [i])

theorem Stacked.loaded (stacked : Stacked load target (top :: below) path)
    : load top.root = some top.release := by
  cases stacked with
  | bottom _ loaded => exact loaded
  | push _ _ _ _ loaded => exact loaded

theorem Stacked.leads (stacked : Stacked load target (top :: below) path)
    : follow (successors load) target path = some top.root := by
  generalize whole : top :: below = stack at stacked
  induction stacked generalizing top below with
  | bottom root loaded =>
    cases whole
    rw [root]
    rfl
  | push rest next taken root loaded ih =>
    cases whole
    rw [follow_snoc (ih rfl), successors_getElem? rest.loaded taken, root]

theorem Stacked.length (stacked : Stacked load target stack path)
    : stack.length = path.length + 1 := by
  induction stacked with
  | bottom _ _ => rfl
  | push _ _ _ _ _ ih => rw [List.length_cons, ih, List.length_append, List.length_singleton]

theorem Stacked.advance (stacked : Stacked load target (top :: below) path) (next : Nat)
    : Stacked load target ({ top with next } :: below) path := by
  cases stacked with
  | bottom root loaded => exact .bottom root loaded
  | push rest taken here root loaded => exact .push rest taken here root loaded

theorem Stacked.above (stacked : Stacked load target (top :: below) path)
    (member : frame ∈ top :: below)
    : Reaches (successors load) frame.root top.root := by
  generalize whole : top :: below = stack at stacked
  induction stacked generalizing top below with
  | bottom root loaded =>
    cases whole
    obtain rfl := List.mem_singleton.mp member
    exact .refl
  | push rest next taken root loaded ih =>
    cases whole
    rcases List.mem_cons.mp member with rfl | deeper
    · exact .refl
    · refine (ih deeper rfl).trans (reaches_of_mem ?_)
      rw [← root]
      exact List.mem_of_getElem? (successors_getElem? rest.loaded taken)

-- What has been given out

def roots (rows : List (LockNode × List Dep)) : List Root := rows.map fun row => row.1.root

/-- A row tells what the loader reports of its root. -/
structure Reported (load : Loader) (row : LockNode × List Dep) (release : Release) : Prop where
  loaded : load row.1.root = some release
  edges : row.2 = release.deps
  name : row.1.name = release.name
  semver : row.1.semver = release.semver
  directDeps : row.1.directDeps = release.deps.length

/-- Each row is reported right, can be reached, and stands behind its dependencies. -/
structure Emitted (load : Loader) (target : Root) (rows : List (LockNode × List Dep)) : Prop where
  reported : ∀ row ∈ rows, ∃ release, Reported load row release
  reached : ∀ row ∈ rows, Reaches (successors load) target row.1.root
  behind
    : ∀ front row back, rows = front ++ row :: back → ∀ edge ∈ row.2, edge.root ∈ roots front
  few : rows.length ≤ lockMaxNodes

theorem Emitted.nil : Emitted load target [] where
  reported := fun row member => by cases member
  reached := fun row member => by cases member
  behind := fun front row back split => by simp at split
  few := Nat.zero_le _

theorem Emitted.closed (emitted : Emitted load target rows) (root : Root)
    (member : root ∈ roots rows)
    : ∀ next ∈ successors load root, next ∈ roots rows := by
  intro next child
  obtain ⟨row, held, rfl⟩ := List.mem_map.mp member
  obtain ⟨front, back, split⟩ := List.append_of_mem held
  obtain ⟨release, reported⟩ := emitted.reported row held
  rw [successors_eq reported.loaded, ← reported.edges] at child
  obtain ⟨edge, declared, rfl⟩ := List.mem_map.mp child
  have earlier := emitted.behind front row back split edge declared
  rw [roots] at earlier ⊢
  rw [split, List.map_append]
  exact List.mem_append_left _ earlier

theorem Emitted.reaches (emitted : Emitted load target rows) (member : root ∈ roots rows)
    {other : Root} (reaches : Reaches (successors load) root other)
    : other ∈ roots rows :=
  @mem_of_reaches _ _ _ _ (· ∈ roots rows) emitted.closed member reaches

theorem Emitted.snoc (emitted : Emitted load target rows) {row : LockNode × List Dep}
    (reported : Reported load row release) (reached : Reaches (successors load) target row.1.root)
    (ready : ∀ edge ∈ row.2, edge.root ∈ roots rows) (room : rows.length < lockMaxNodes)
    : Emitted load target (rows ++ [row]) where
  reported := by
    intro other member
    rcases List.mem_append.mp member with old | new
    · exact emitted.reported other old
    · obtain rfl := List.mem_singleton.mp new
      exact ⟨release, reported⟩
  reached := by
    intro other member
    rcases List.mem_append.mp member with old | new
    · exact emitted.reached other old
    · obtain rfl := List.mem_singleton.mp new
      exact reached
  behind := by
    intro front other back split
    rcases List.eq_nil_or_concat' back with rfl | ⟨back, last, rfl⟩
    · obtain ⟨rfl, same⟩ := List.append_inj' split rfl
      cases same
      exact ready
    · rw [← List.cons_append, ← List.append_assoc] at split
      obtain ⟨rfl, -⟩ := List.append_inj' split rfl
      exact emitted.behind front other back rfl
  few := by
    rw [List.length_append, List.length_singleton]
    exact room

-- The state between turns

/-- The root was entered by the last edge of its first path, and the labels on it were right. -/
def Entered (load : Loader) (target root : Root) : Prop :=
  ∃ path i parent release edge found, First (successors load) target root (path ++ [i])
    ∧ follow (successors load) target path = some parent ∧ load parent = some release
    ∧ release.deps[i]? = some edge ∧ load root = some found ∧ LabelsAgree edge found

def stackRoots (stack : List Frame) : List Root := stack.map Frame.root

structure Walking (load : Loader) (target : Root) (top : Frame) (below : List Frame)
    (rows : List (LockNode × List Dep)) (path : List Nat)
    : Prop where
  stacked : Stacked load target (top :: below) path
  emitted : Emitted load target rows
  once : (stackRoots (top :: below) ++ roots rows).Nodup
  done : ∀ i edge, i < top.next → top.release.deps[i]? = some edge → edge.root ∈ roots rows
  doneBelow
    : ∀ frame ∈ below, ∀ i edge, i + 1 < frame.next → frame.release.deps[i]? = some edge →
        edge.root ∈ roots rows
  swept
    : ∀ other root, follow (successors load) target other = some root →
        Before other (path ++ [top.next]) → root ∈ stackRoots (top :: below) ∨ root ∈ roots rows
  entered
    : ∀ root, root ∈ stackRoots (top :: below) ∨ root ∈ roots rows →
        root = target ∨ Entered load target root
  low : below.length ≤ lockMaxDepth

/-- The walk is over. -/
structure Finished (load : Loader) (target : Root) (rows : List (LockNode × List Dep)) : Prop where
  emitted : Emitted load target rows
  once : (roots rows).Nodup
  last : (roots rows).getLast? = some target
  entered : ∀ root ∈ roots rows, root = target ∨ Entered load target root

/-- The walk goes on with something on the stack, or it is over. -/
def Continues (load : Loader) (target : Root) (w : Walk) : Prop :=
  (∃ top below path, w.stack = top :: below ∧ Walking load target top below w.emitted path)
    ∨ w.stack = [] ∧ Finished load target w.emitted

/-- The node and edges a frame is given out with. -/
def frameRow (frame : Frame) : LockNode × List Dep :=
  ({ root := frame.root
     name := frame.release.name
     semver := frame.release.semver
     depth := frame.depth
     directDeps := frame.release.deps.length }, frame.release.deps)

theorem frameRow_reported (loaded : load frame.root = some frame.release)
    : Reported load (frameRow frame) frame.release where
  loaded := loaded
  edges := rfl
  name := rfl
  semver := rfl
  directDeps := rfl

theorem roots_snoc (rows : List (LockNode × List Dep)) (frame : Frame)
    : roots (rows ++ [frameRow frame]) = roots rows ++ [frame.root] := by
  rw [roots, List.map_append]
  rfl

theorem stackRoots_cons (frame : Frame) (stack : List Frame)
    : stackRoots (frame :: stack) = frame.root :: stackRoots stack := rfl

section Turns

variable (walking : Walking load target top below rows path)

include walking

-- Giving out the top

theorem Walking.top_reached : Reaches (successors load) target top.root :=
  ⟨path, walking.stacked.leads⟩

theorem Walking.all_ready (drained : top.release.deps[top.next]? = none)
    : ∀ edge ∈ top.release.deps, edge.root ∈ roots rows := by
  intro edge declared
  obtain ⟨i, inside, here⟩ := List.getElem_of_mem declared
  have ended := List.getElem?_eq_none_iff.mp drained
  refine walking.done i edge (by omega) ?_
  rw [List.getElem?_eq_getElem inside, here]

theorem Walking.emitted_snoc (drained : top.release.deps[top.next]? = none)
    (room : rows.length < lockMaxNodes)
    : Emitted load target (rows ++ [frameRow top]) :=
  walking.emitted.snoc (frameRow_reported walking.stacked.loaded) walking.top_reached
    (walking.all_ready drained) room

theorem Walking.overfull (full : lockMaxNodes ≤ rows.length) : ¬ Resolvable load target := by
  intro resolvable
  have once := walking.once
  rw [stackRoots_cons, List.cons_append, List.nodup_cons, List.mem_append, not_or] at once
  have distinct : (top.root :: roots rows).Nodup :=
    List.nodup_cons.mpr ⟨once.1.2, (List.nodup_append.mp once.2).2.1⟩
  have counted := @length_le_encard _ _ distinct
    {root | Reaches (successors load) target root} (by
      intro root member
      rcases List.mem_cons.mp member with rfl | given
      · exact walking.top_reached
      · obtain ⟨row, held, rfl⟩ := List.mem_map.mp given
        exact walking.emitted.reached row held)
  have bound := counted.trans resolvable.few
  rw [List.length_cons, roots, List.length_map, Nat.cast_le] at bound
  omega

omit walking in
theorem Walking.emit_last (walking : Walking load target top [] rows path)
    (drained : top.release.deps[top.next]? = none) (room : rows.length < lockMaxNodes)
    : Finished load target (rows ++ [frameRow top]) := by
  have once := walking.once
  rw [stackRoots_cons, List.cons_append, List.nodup_cons] at once
  refine ⟨walking.emitted_snoc drained room, ?_, ?_, ?_⟩
  · rw [roots_snoc, List.nodup_append]
    refine ⟨once.2, List.nodup_singleton _, ?_⟩
    intro root member other single same
    obtain rfl := List.mem_singleton.mp single
    exact once.1 (same ▸ member)
  · have bottom : top.root = target := by
      have stacked := walking.stacked
      cases stacked with
      | bottom root _ => exact root
    rw [roots_snoc, List.getLast?_append, bottom]
    rfl
  · intro root member
    apply walking.entered
    rw [roots_snoc, List.mem_append, List.mem_singleton] at member
    rw [stackRoots_cons, List.mem_cons]
    tauto

omit walking in
theorem Walking.emit_pop {parent : Frame}
    (walking : Walking load target top (parent :: below) rows path)
    (drained : top.release.deps[top.next]? = none) (room : rows.length < lockMaxNodes)
    : ∃ path', Walking load target parent below (rows ++ [frameRow top]) path' := by
  have emitted := walking.emitted_snoc drained room
  have stacked := walking.stacked
  have moved : ∀ root, root ∈ stackRoots (top :: parent :: below) ∨ root ∈ roots rows ↔
      root ∈ stackRoots (parent :: below) ∨ root ∈ roots (rows ++ [frameRow top]) := by
    intro root
    rw [roots_snoc, stackRoots_cons, List.mem_cons, List.mem_append, List.mem_singleton]
    tauto
  cases stacked with
  | @push _ _ _ path' i edge rest next taken root loaded =>
    refine ⟨path', rest, emitted, ?_, ?_, ?_, ?_, ?_, ?_⟩
    · have once := walking.once
      rw [stackRoots_cons] at once
      rw [roots_snoc, ← List.append_assoc]
      exact (List.perm_append_singleton _ _).nodup_iff.mpr once
    · intro j dep before here
      rw [roots_snoc, List.mem_append, List.mem_singleton]
      rcases Nat.lt_or_ge j i with less | least
      · exact .inl (walking.doneBelow parent List.mem_cons_self j dep (by omega) here)
      · obtain rfl : j = i := by omega
        rw [taken] at here
        cases here
        exact .inr root
    · intro frame member j dep before here
      rw [roots_snoc, List.mem_append]
      exact .inl (walking.doneBelow frame (List.mem_cons_of_mem _ member) j dep before here)
    · intro other found leads before
      rw [next, before_succ] at before
      rcases before with earlier | through
      · exact (moved found).mp (walking.swept other found leads (earlier.append _))
      · obtain ⟨more, rfl⟩ := through
        obtain ⟨middle, front, onward⟩ := follow_append_eq_some leads
        rw [walking.stacked.leads] at front
        cases front
        refine .inr (emitted.reaches ?_ ⟨more, onward⟩)
        rw [roots_snoc]
        exact List.mem_append_right _ List.mem_cons_self
    · intro root member
      exact walking.entered root ((moved root).mpr member)
    · have low := walking.low
      rw [List.length_cons] at low
      omega

-- Taking an edge

variable (here : top.release.deps[top.next]? = some edge)

include here

theorem Walking.edge_leads
    : follow (successors load) target (path ++ [top.next]) = some edge.root := by
  rw [follow_snoc walking.stacked.leads, successors_getElem? walking.stacked.loaded here]

theorem Walking.skip (shared : edge.root ∈ roots rows)
    : Walking load target { top with next := top.next + 1 } below rows path := by
  refine ⟨walking.stacked.advance _, walking.emitted, walking.once, ?_, walking.doneBelow, ?_,
    walking.entered, walking.low⟩
  · intro i dep before found
    rcases Nat.lt_or_ge i top.next with less | least
    · exact walking.done i dep less found
    · obtain rfl : i = top.next := Nat.le_antisymm (Nat.lt_succ_iff.mp before) least
      rw [here] at found
      cases found
      exact shared
  · intro other root leads before
    rcases before_succ.mp before with earlier | through
    · exact walking.swept other root leads earlier
    · obtain ⟨more, rfl⟩ := through
      obtain ⟨middle, front, onward⟩ := follow_append_eq_some leads
      rw [walking.edge_leads here] at front
      cases front
      exact .inr (walking.emitted.reaches shared ⟨more, onward⟩)

theorem Walking.edge_first (unseen : edge.root ∉ stackRoots (top :: below))
    (unshared : edge.root ∉ roots rows)
    : First (successors load) target edge.root (path ++ [top.next]) := by
  refine ⟨walking.edge_leads here, ?_⟩
  intro other leads before
  exact (walking.swept other edge.root leads before).elim unseen unshared

theorem Walking.descend (unseen : edge.root ∉ stackRoots (top :: below))
    (unshared : edge.root ∉ roots rows) (loaded : load edge.root = some found)
    (agree : LabelsAgree edge found) (low : below.length < lockMaxDepth) (depth : Nat)
    : Walking load target { root := edge.root, release := found, next := 0, depth }
        ({ top with next := top.next + 1 } :: below) rows (path ++ [top.next]) := by
  have first := walking.edge_first here unseen unshared
  refine ⟨.push (walking.stacked.advance _) rfl here rfl loaded, walking.emitted, ?_, ?_, ?_, ?_,
    ?_, low⟩
  · rw [stackRoots_cons, List.cons_append, List.nodup_cons, List.mem_append, not_or]
    exact ⟨⟨unseen, unshared⟩, walking.once⟩
  · intro i dep before
    exact absurd before (Nat.not_lt_zero i)
  · intro frame member i dep before found
    rcases List.mem_cons.mp member with rfl | deeper
    · exact walking.done i dep (Nat.lt_of_succ_lt_succ before) found
    · exact walking.doneBelow frame deeper i dep before found
  · intro other root leads before
    rcases before_zero.mp before with earlier | rfl
    · exact (walking.swept other root leads earlier).imp_left (List.mem_cons_of_mem _)
    · rw [walking.edge_leads here] at leads
      cases leads
      exact .inl List.mem_cons_self
  · intro root member
    by_cases same : root = edge.root
    · subst same
      exact .inr ⟨path, top.next, top.root, top.release, edge, found, first,
        walking.stacked.leads, walking.stacked.loaded, here, loaded, agree⟩
    · apply walking.entered
      rw [stackRoots_cons, List.mem_cons, or_iff_right same] at member
      exact member

end Turns

-- One turn

theorem isEmitted_iff {w : Walk} : w.isEmitted root ↔ root ∈ roots w.emitted := by
  rw [Walk.isEmitted, Walk.lockFind, List.findIdx?_isSome, List.any_eq_true, roots, List.mem_map]
  simp only [List.mem_map, decide_eq_true_eq]
  constructor
  · intro found
    obtain ⟨node, ⟨row, held, rfl⟩, same⟩ := found
    exact ⟨row, held, same⟩
  · intro found
    obtain ⟨row, held, same⟩ := found
    exact ⟨row.1, ⟨row, held, rfl⟩, same⟩

theorem onStack_iff : Walk.onStack stack root ↔ root ∈ stackRoots stack := by
  rw [Walk.onStack, List.any_eq_true, stackRoots, List.mem_map]
  simp only [decide_eq_true_eq]

theorem depsPush_cases (load : Loader) (root : Root) (depth : Nat) (edge : Option Dep)
    : (∃ found, load root = some found ∧ (∀ dep, edge = some dep → LabelsAgree dep found)
          ∧ root ∉ found.deps.map Dep.root
          ∧ depsPush load root depth edge = .ok { root, release := found, next := 0, depth })
        ∨ (∃ refusal, depsPush load root depth edge = .error refusal)
          ∧ (load root = none
            ∨ (∃ found dep, load root = some found ∧ edge = some dep ∧ ¬ LabelsAgree dep found)
            ∨ ∃ found, load root = some found ∧ root ∈ found.deps.map Dep.root) := by
  rw [depsPush]
  cases loaded : load root with
  | none => exact .inr ⟨⟨_, rfl⟩, .inl rfl⟩
  | some found =>
    dsimp only
    cases clash : edge.bind fun dep => labelClash root dep found with
    | some detail =>
      obtain ⟨dep, declared, clash⟩ := Option.bind_eq_some_iff.mp clash
      refine .inr ⟨⟨_, rfl⟩, .inr (.inl ⟨found, dep, rfl, declared, ?_⟩)⟩
      intro agree
      rw [labelClash_eq_none.mpr agree] at clash
      cases clash
    | none =>
      have selfish : (found.deps.any fun dep => dep.root = root) = true
          ↔ root ∈ found.deps.map Dep.root := by
        simp [List.any_eq_true, List.mem_map]
      dsimp only
      split
      · rename_i own
        exact .inr ⟨⟨_, rfl⟩, .inr (.inr ⟨found, rfl, selfish.mp own⟩)⟩
      · rename_i other
        refine .inl ⟨found, rfl, ?_, fun member => other (selfish.mpr member), rfl⟩
        intro dep declared
        rw [declared, Option.bind_some] at clash
        exact labelClash_eq_none.mp clash

/-- The turns a walk can still take. -/
def turnsLeft (stack : List Frame) (count : Nat) : Nat :=
  (lockMaxNodes + lockMaxDepth + 1 - (count + stack.length)) * (depsMaxDirect + 2)
    + (stack.map fun frame => frame.release.deps.length - frame.next + 1).sum

/-- A turn of the loop makes progress, or refuses a graph that is not to be resolved. -/
def TurnOutcome (load : Loader) (target : Root) (top : Frame) (below : List Frame)
    (rows : List (LockNode × List Dep)) (outcome : Except Refusal Walk)
    : Prop :=
  (∃ w, outcome = .ok w ∧ Continues load target w
      ∧ turnsLeft w.stack w.emitted.length < turnsLeft (top :: below) rows.length)
    ∨ (∃ refusal, outcome = .error refusal)
      ∧ ¬ (Resolvable load target ∧ FirstLabels load target)

section

variable (walking : Walking load target top below rows path)
include walking

theorem Walking.turn_over (drained : top.release.deps[top.next]? = none)
    : TurnOutcome load target top below rows (Walk.turn load top below rows) := by
  have ended := List.getElem?_eq_none_iff.mp drained
  rw [Walk.turn, drained]
  dsimp only
  rw [Walk.depsEmit]
  split
  · rename_i full
    exact .inr ⟨⟨_, rfl⟩, fun good => walking.overfull full good.1⟩
  · rename_i full
    have room := Nat.not_le.mp full
    refine .inl ⟨⟨below, rows ++ [frameRow top]⟩, rfl, ?_, ?_⟩
    · cases below with
      | nil => exact .inr ⟨rfl, walking.emit_last drained room⟩
      | cons parent below =>
        obtain ⟨path', next⟩ := walking.emit_pop drained room
        exact .inl ⟨parent, below, path', rfl, next⟩
    · have same : rows.length + 1 + below.length = rows.length + (below.length + 1) := by omega
      simp only [turnsLeft, List.length_append, List.length_cons, List.length_nil, Nat.zero_add,
        List.map_cons, List.sum_cons, same]
      omega

theorem Walking.cycle_refused (here : top.release.deps[top.next]? = some edge)
    (circular : edge.root ∈ stackRoots (top :: below))
    : ¬ Resolvable load target := by
  intro resolvable
  obtain ⟨frame, member, same⟩ := List.mem_map.mp circular
  obtain ⟨back, onward⟩ := walking.stacked.above member
  have around : follow (successors load) frame.root (back ++ [top.next]) = some frame.root := by
    rw [follow_snoc onward, successors_getElem? walking.stacked.loaded here, same]
  have reached : Reaches (successors load) target frame.root := same ▸ ⟨_, walking.edge_leads here⟩
  exact List.append_ne_nil_of_right_ne_nil _ (List.cons_ne_nil _ _)
    (resolvable.acyclic frame.root _ reached around)

theorem Walking.depth_refused (here : top.release.deps[top.next]? = some edge)
    (deep : lockMaxDepth ≤ below.length)
    : ¬ Resolvable load target := by
  intro resolvable
  have length := walking.stacked.length
  have bound := resolvable.shallow _ _ (walking.edge_leads here)
  rw [List.length_append, List.length_singleton] at bound
  rw [List.length_cons] at length
  omega

theorem Walking.push_refused (here : top.release.deps[top.next]? = some edge)
    (first : First (successors load) target edge.root (path ++ [top.next]))
    (why : load edge.root = none ∨
      (∃ found dep, load edge.root = some found ∧ some edge = some dep ∧
        ¬ LabelsAgree dep found) ∨ ∃ found, load edge.root = some found ∧
      edge.root ∈ found.deps.map Dep.root)
    : ¬ (Resolvable load target ∧ FirstLabels load target) := by
  intro good
  have leads := walking.edge_leads here
  rcases why with missing | ⟨found, dep, loaded, same, clash⟩ | ⟨found, loaded, own⟩
  · obtain ⟨release, loaded⟩ := good.1.loads edge.root ⟨_, leads⟩
    rw [missing] at loaded
    cases loaded
  · cases same
    exact clash (good.2 path top.next top.root top.release edge found first walking.stacked.leads
      walking.stacked.loaded here loaded)
  · rw [← successors_eq loaded] at own
    obtain ⟨i, within, back⟩ := List.getElem_of_mem own
    have around : follow (successors load) edge.root [i] = some edge.root := by
      rw [follow, List.getElem?_eq_getElem within, back]
      rfl
    exact List.cons_ne_nil _ _ (good.1.acyclic edge.root [i] ⟨_, leads⟩ around)

theorem Walking.turn_edge (here : top.release.deps[top.next]? = some edge)
    : TurnOutcome load target top below rows (Walk.turn load top below rows) := by
  have few := walking.emitted.few
  obtain ⟨inside, -⟩ := List.getElem?_eq_some_iff.mp here
  rw [Walk.turn, here]
  dsimp only
  split
  · rename_i shared
    have next := walking.skip here (isEmitted_iff.mp shared)
    refine .inl ⟨_, rfl, .inl ⟨_, below, path, rfl, next⟩, ?_⟩
    simp only [turnsLeft, List.length_cons, List.map_cons, List.sum_cons]
    omega
  · rename_i fresh
    have unshared : edge.root ∉ roots rows := fun member => fresh (isEmitted_iff.mpr member)
    split
    · rename_i circular
      exact .inr ⟨⟨_, rfl⟩, fun good =>
        walking.cycle_refused here (onStack_iff.mp circular) good.1⟩
    · rename_i open'
      have unseen : edge.root ∉ stackRoots (top :: below) := fun member =>
        open' (onStack_iff.mpr member)
      split
      · rename_i deep
        exact .inr ⟨⟨_, rfl⟩, fun good =>
          walking.depth_refused here (Nat.lt_succ_iff.mp deep) good.1⟩
      · rename_i shallow
        rw [List.length_cons] at shallow
        rcases depsPush_cases load edge.root (top.depth + 1) (some edge) with
          ⟨found, loaded, agree, -, pushed⟩ | ⟨⟨refusal, refused⟩, why⟩
        · have fits := found.deps_fit
          have next := walking.descend here unseen unshared loaded (agree edge rfl) (by omega)
            (top.depth + 1)
          refine .inl ⟨_, by rw [pushed]; rfl, .inl ⟨_, _, _, rfl, next⟩, ?_⟩
          have budget : lockMaxNodes + lockMaxDepth + 1 - (rows.length + (below.length + 1))
              = lockMaxNodes + lockMaxDepth + 1 - (rows.length + (below.length + 1 + 1)) + 1 := by
            omega
          simp only [turnsLeft, List.length_cons, List.map_cons, List.sum_cons, budget,
            Nat.succ_mul]
          omega
        · exact .inr ⟨⟨refusal, by rw [refused]; rfl⟩,
            walking.push_refused here (walking.edge_first here unseen unshared) why⟩

theorem Walking.turn : TurnOutcome load target top below rows (Walk.turn load top below rows) := by
  cases here : top.release.deps[top.next]? with
  | none => exact walking.turn_over here
  | some edge => exact walking.turn_edge here

end

-- The whole walk

/-- With fuel for its turns the walk comes to an end, and refuses only graphs that are not to be
resolved. -/
theorem Continues.loop {w : Walk} (continues : Continues load target w) {fuel : Nat}
    (enough : turnsLeft w.stack w.emitted.length ≤ fuel)
    : (∃ rows, Walk.loop load fuel w = some (.ok rows) ∧ Finished load target rows)
        ∨ (∃ refusal, Walk.loop load fuel w = some (.error refusal))
          ∧ ¬ (Resolvable load target ∧ FirstLabels load target) := by
  induction fuel generalizing w with
  | zero =>
    rcases continues with ⟨top, below, path, stack, walking⟩ | ⟨stack, finished⟩
    · rw [stack, turnsLeft, List.map_cons, List.sum_cons] at enough
      omega
    · obtain ⟨stack', rows⟩ := w
      cases stack
      exact .inl ⟨rows, rfl, finished⟩
  | succ fuel ih =>
    obtain ⟨stack', rows⟩ := w
    rcases continues with ⟨top, below, path, stack, walking⟩ | ⟨stack, finished⟩
    · obtain rfl : stack' = top :: below := stack
      rcases walking.turn with ⟨next, turned, onward, fewer⟩ | ⟨⟨refusal, refused⟩, bad⟩
      · rw [Walk.loop, turned]
        exact ih onward (Nat.le_of_lt_succ (Nat.lt_of_lt_of_le fewer enough))
      · rw [Walk.loop, refused]
        exact .inr ⟨⟨refusal, rfl⟩, bad⟩
    · cases stack
      exact .inl ⟨rows, rfl, finished⟩

theorem walking_start (loaded : load target = some release)
    : Walking load target { root := target, release, next := 0, depth := 0 } [] [] [] where
  stacked := .bottom rfl loaded
  emitted := .nil
  once := List.nodup_singleton _
  done := fun i edge before => absurd before (Nat.not_lt_zero i)
  doneBelow := fun frame member => by cases member
  swept := by
    intro other root leads before
    rcases before_zero.mp before with earlier | rfl
    · exact absurd earlier not_before_nil
    · cases leads
      exact .inl List.mem_cons_self
  entered := by
    intro root member
    rcases member with held | given
    · exact .inl (List.mem_singleton.mp held)
    · cases given
  low := Nat.zero_le _

end Z23.Vcs
