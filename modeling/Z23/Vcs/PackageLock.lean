import Z23.Vcs.PackageDepsDepths

/-!
When a resolution gives a lock and what the lock lists. The labels are read on the first edge
the walk finds a root by; the edges that lead to it again are not looked at.
-/

namespace Z23.Vcs

open Z23.Lib.OrderedGraph

variable {load : Loader} {target root : Root}

-- The outcome of a resolution

/-- The lock lists what the target needs in build order, with the longest distances. -/
structure ExactLock (load : Loader) (target : Root) (nodes : List LockNode) : Prop where
  once : (nodes.map LockNode.root).Nodup
  lists : ∀ root, root ∈ nodes.map LockNode.root ↔ Reaches (successors load) target root
  reported
    : ∀ node ∈ nodes, ∃ release, load node.root = some release ∧ node.name = release.name
        ∧ node.semver = release.semver ∧ node.directDeps = release.deps.length
  ordered
    : ∀ (i j : Nat) (node dependency : LockNode), nodes[i]? = some node →
        nodes[j]? = some dependency →
        dependency.root ∈ successors load node.root → j < i
  last : (nodes.map LockNode.root).getLast? = some target
  depths : ∀ node ∈ nodes, Longest (successors load) target node.root node.depth

theorem withDepths_roots (rows : List (LockNode × List Dep)) (depths : Nat → Nat)
    : (withDepths rows depths).map LockNode.root = roots rows := by
  apply List.ext_getElem?
  intro k
  rw [List.getElem?_map, withDepths_getElem?, roots, List.getElem?_map, Option.map_map]
  rfl

theorem Finished.exactLock {rows : List (LockNode × List Dep)} {depths : Nat → Nat}
    (finished : Finished load target rows) (settled : Settling load target rows 0 depths)
    : ExactLock load target (withDepths rows depths) where
  once := by
    rw [withDepths_roots]
    exact finished.once
  lists := by
    intro root
    rw [withDepths_roots]
    exact finished.reached_iff
  reported := by
    intro node member
    obtain ⟨k, inside, here⟩ := List.getElem_of_mem member
    have read := List.getElem?_eq_getElem inside
    rw [here, withDepths_getElem?] at read
    obtain ⟨row, found, rfl⟩ := Option.map_eq_some_iff.mp read
    obtain ⟨release, reported⟩ := finished.reported found
    exact ⟨release, reported.loaded, reported.name, reported.semver, reported.directDeps⟩
  ordered := by
    intro i j node dependency here there child
    rw [withDepths_getElem?] at here there
    obtain ⟨row, found, rfl⟩ := Option.map_eq_some_iff.mp here
    obtain ⟨other, found', rfl⟩ := Option.map_eq_some_iff.mp there
    obtain ⟨position, within, same⟩ := List.getElem_of_mem child
    have place : (roots rows)[i]? = some row.1.root := roots_getElem?.mpr ⟨row, found, rfl⟩
    have taken : (successors load row.1.root)[position]? = some other.1.root := by
      rw [List.getElem?_eq_getElem within, same]
    obtain ⟨row', edge, read, declared, goal⟩ := finished.edge_of_successor place taken
    refine finished.edge_before read (List.mem_of_getElem? declared) ?_
    rw [goal]
    exact roots_getElem?.mpr ⟨other, found', rfl⟩
  last := by
    rw [withDepths_roots]
    exact finished.last
  depths := by
    intro node member
    obtain ⟨k, inside, here⟩ := List.getElem_of_mem member
    have read := List.getElem?_eq_getElem inside
    rw [here, withDepths_getElem?] at read
    obtain ⟨row, found, rfl⟩ := Option.map_eq_some_iff.mp read
    exact settled.longest finished (roots_getElem?.mpr ⟨row, found, rfl⟩)

/-- A resolution ends. It gives an exact lock of a graph to be resolved, or refuses one that is
not. -/
theorem lockResolve_cases (load : Loader) (target : Root)
    : (∃ nodes, lockResolve load target = some (.ok nodes) ∧ rootIsZero target = false
          ∧ Resolvable load target ∧ FirstLabels load target ∧ ExactLock load target nodes)
        ∨ (∃ refusal, lockResolve load target = some (.error refusal))
          ∧ (rootIsZero target ∨ ¬ (Resolvable load target ∧ FirstLabels load target)) := by
  rw [lockResolve]
  cases zero : rootIsZero target with
  | true => exact .inr ⟨⟨_, rfl⟩, .inl rfl⟩
  | false =>
    simp only [Bool.false_eq_true, if_false, false_or]
    rcases depsPush_cases load target 0 none with
      ⟨release, loaded, -, -, pushed⟩ | ⟨⟨refusal, refused⟩, why⟩
    · rw [pushed]
      have start : Continues load target ⟨[⟨target, release, 0, 0⟩], []⟩ :=
        .inl ⟨_, [], [], rfl, walking_start loaded⟩
      have fits := release.deps_fit
      have enough : turnsLeft [⟨target, release, 0, 0⟩] 0 ≤ walkBudget := by
        simp only [turnsLeft, walkBudget, lockMaxNodes, lockMaxDepth, depsMaxDirect,
          List.map_cons, List.map_nil, List.sum_cons, List.sum_nil, List.length_cons,
          List.length_nil] at fits ⊢
        omega
      rcases start.loop enough with ⟨rows, walked, finished⟩ | ⟨⟨refusal, refused⟩, bad⟩
      · dsimp only
        rw [walked]
        rcases finished.normalizeDepths with ⟨depths, settled, settling⟩ | ⟨⟨refusal, refused⟩, bad⟩
        · refine .inl ⟨withDepths rows depths, ?_, trivial, finished.resolvable settling,
            finished.firstLabels settling, finished.exactLock settling⟩
          exact congrArg some settled
        · exact .inr ⟨⟨refusal, congrArg some refused⟩, fun good => bad good.1⟩
      · dsimp only
        rw [refused]
        exact .inr ⟨⟨refusal, rfl⟩, bad⟩
    · rw [refused]
      refine .inr ⟨⟨refusal, rfl⟩, fun good => ?_⟩
      rcases why with missing | ⟨found, dep, -, same, -⟩ | ⟨found, loaded, own⟩
      · obtain ⟨release, loaded⟩ := good.1.loads target Reaches.refl
        rw [missing] at loaded
        cases loaded
      · cases same
      · rw [← successors_eq loaded] at own
        obtain ⟨i, within, back⟩ := List.getElem_of_mem own
        have around : follow (successors load) target [i] = some target := by
          rw [follow, List.getElem?_eq_getElem within, back]
          rfl
        exact List.cons_ne_nil _ _ (good.1.acyclic target [i] Reaches.refl around)

/-- The target resolves exactly when its graph is sound and every label in it is right, and its
lock is exact. -/
def ResolvesExactly (load : Loader) (target : Root) : Prop :=
  ((∃ nodes, lockResolve load target = some (.ok nodes))
      ↔ Resolvable load target ∧ AllLabels load target)
    ∧ ∀ nodes, lockResolve load target = some (.ok nodes) → ExactLock load target nodes

/-- The resolver is exact unless a wrong label stands on an edge to a root that an earlier path
has led to, or an all-zero target, which is refused, has a graph that would resolve. -/
theorem resolvesExactly_iff (load : Loader) (target : Root)
    : ResolvesExactly load target
        ↔ (rootIsZero target = false → Resolvable load target → FirstLabels load target →
              AllLabels load target)
          ∧ (rootIsZero target = true → Resolvable load target → ¬ AllLabels load target) := by
  rw [ResolvesExactly]
  rcases lockResolve_cases load target with
    ⟨nodes, resolved, nonzero, resolvable, first, lock⟩ | ⟨⟨refusal, refused⟩, why⟩
  · have exact : ∀ other, lockResolve load target = some (.ok other) →
        ExactLock load target other := by
      intro other same
      rw [resolved] at same
      cases same
      exact lock
    constructor
    · intro claim
      exact ⟨fun _ _ _ => (claim.1.mp ⟨nodes, resolved⟩).2,
        fun zero => absurd (nonzero.symm.trans zero) Bool.false_ne_true⟩
    · intro condition
      exact ⟨⟨fun _ => ⟨resolvable, condition.1 nonzero resolvable first⟩,
        fun _ => ⟨nodes, resolved⟩⟩, exact⟩
  · have none : ¬ ∃ nodes, lockResolve load target = some (.ok nodes) := by
      intro found
      obtain ⟨nodes, resolved⟩ := found
      rw [refused] at resolved
      cases resolved
    have vacuous : ∀ nodes, lockResolve load target = some (.ok nodes) →
        ExactLock load target nodes := fun nodes resolved => absurd ⟨nodes, resolved⟩ none
    constructor
    · intro claim
      have bad := mt claim.1.mpr none
      exact ⟨fun nonzero resolvable first => absurd ⟨resolvable, first⟩
          (why.resolve_left (by rw [nonzero]; exact Bool.false_ne_true)),
        fun _ resolvable labels => bad ⟨resolvable, labels⟩⟩
    · intro condition
      refine ⟨⟨fun found => absurd found none, fun good => ?_⟩, vacuous⟩
      rcases why with zero | bad
      · exact absurd good.2 (condition.2 zero good.1)
      · exact absurd ⟨good.1, good.2.firstLabels⟩ bad

-- A wrong label on a shared dependency

def sampleRoot (first : UInt8) : Root := ⟨first :: List.replicate 31 0, rfl⟩

def sampleRelease (name : Label) (deps : List Dep) (few : deps.length ≤ 2) (short : name.length ≤ 2)
    : Release where
  name := name
  semver := [49]
  deps := deps
  name_fits := Nat.le_trans short (by decide)
  semver_fits := by decide
  deps_fit := Nat.le_trans few (by decide)

/-- The second dependency of the target names the first by a name that its release does not
have. -/
def sampleLoad : Loader := fun root =>
  if root = sampleRoot 1 then
    some (sampleRelease [116] [⟨sampleRoot 2, [], []⟩, ⟨sampleRoot 3, [], []⟩] (by decide)
      (by decide))
  else if root = sampleRoot 2 then some (sampleRelease [97] [] (by decide) (by decide))
  else if root = sampleRoot 3 then
    some (sampleRelease [98] [⟨sampleRoot 2, [120], []⟩] (by decide) (by decide))
  else none

theorem sampleLoad_resolves
    : ∃ nodes, lockResolve sampleLoad (sampleRoot 1) = some (.ok nodes) := by
  have evaluated : (lockResolve sampleLoad (sampleRoot 1)).map (fun outcome =>
      outcome.toOption.isSome) = some true := by decide +kernel
  obtain ⟨outcome, found, succeeded⟩ := Option.map_eq_some_iff.mp evaluated
  cases outcome with
  | error refusal => cases succeeded
  | ok nodes => exact ⟨nodes, found⟩

theorem shared_label_unchecked : ¬ ResolvesExactly sampleLoad (sampleRoot 1) := by
  intro claim
  have labels := (claim.1.mp sampleLoad_resolves).2
  have agree := labels (sampleRoot 3)
    (sampleRelease [98] [⟨sampleRoot 2, [120], []⟩] (by decide) (by decide))
    ⟨sampleRoot 2, [120], []⟩ (sampleRelease [97] [] (by decide) (by decide))
    ⟨[1], by decide +kernel⟩ (by decide +kernel) List.mem_cons_self (by decide +kernel)
  rcases agree.1 with empty | same
  · cases empty
  · cases same

end Z23.Vcs
