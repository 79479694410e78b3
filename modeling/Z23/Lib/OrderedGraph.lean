import Mathlib.Data.List.Basic
import Mathlib.Data.Set.Card

/-!
Graphs whose vertices list their successors in order. A path is the list of the positions it
takes, so that two paths from one vertex can be compared by the first position they differ in.
-/

namespace Z23.Lib.OrderedGraph

variable {V : Type} (succ : V → List V)

-- Paths

/-- The vertex a path leads to. -/
def follow : V → List Nat → Option V
  | v, [] => some v
  | v, i :: path => (succ v)[i]?.bind fun w => follow w path

def Reaches (u v : V) : Prop := ∃ path, follow succ u path = some v

/-- No vertex that can be reached leads back to itself. -/
def Acyclic (source : V) : Prop :=
  ∀ v path, Reaches succ source v → follow succ v path = some v → path = []

/-- The length of the longest path from the source to a vertex. -/
structure Longest (source v : V) (length : Nat) : Prop where
  attained : ∃ path, path.length = length ∧ follow succ source path = some v
  greatest : ∀ path, follow succ source path = some v → path.length ≤ length

/-- The path comes before another: it stops short of it, or takes an earlier position where they
part. -/
def Before (path other : List Nat) : Prop := List.Lex (· < ·) path other

/-- No path to the same vertex comes before this one. -/
structure First (source v : V) (path : List Nat) : Prop where
  leads : follow succ source path = some v
  first : ∀ other, follow succ source other = some v → ¬ Before other path

variable {succ} {u v w source : V} {path path' : List Nat} {i : Nat}

theorem follow_append
    : follow succ u (path ++ path') = (follow succ u path).bind fun v => follow succ v path' := by
  induction path generalizing u with
  | nil => rfl
  | cons i path ih =>
    rw [List.cons_append, follow, follow, Option.bind_assoc]
    exact Option.bind_congr fun w _ => ih

theorem follow_snoc (leads : follow succ u path = some v)
    : follow succ u (path ++ [i]) = (succ v)[i]? := by
  rw [follow_append, leads, Option.bind_some, follow]
  cases (succ v)[i]? with
  | none => rfl
  | some w => rfl

theorem follow_append_eq_some (leads : follow succ u (path ++ path') = some w)
    : ∃ v, follow succ u path = some v ∧ follow succ v path' = some w := by
  rw [follow_append] at leads
  exact Option.bind_eq_some_iff.mp leads

theorem Reaches.refl : Reaches succ u u := ⟨[], rfl⟩

theorem Reaches.trans (first : Reaches succ u v) (second : Reaches succ v w)
    : Reaches succ u w := by
  obtain ⟨path, leads⟩ := first
  obtain ⟨path', leads'⟩ := second
  exact ⟨path ++ path', by rw [follow_append, leads, Option.bind_some, leads']⟩

theorem reaches_of_mem (next : w ∈ succ v) : Reaches succ v w := by
  obtain ⟨i, inside, here⟩ := List.getElem_of_mem next
  refine ⟨[i], ?_⟩
  rw [follow, List.getElem?_eq_getElem inside, here]
  rfl

/-- A set that is closed under successors holds what can be reached from it. -/
theorem mem_of_reaches {members : V → Prop} (closed : ∀ v, members v → ∀ w ∈ succ v, members w)
    (start : members u) (reaches : Reaches succ u v)
    : members v := by
  obtain ⟨path, leads⟩ := reaches
  induction path generalizing u with
  | nil =>
    cases leads
    exact start
  | cons i path ih =>
    rw [follow] at leads
    obtain ⟨w, next, leads⟩ := Option.bind_eq_some_iff.mp leads
    exact ih (closed u start w (List.mem_of_getElem? next)) leads

/-- A nonempty path ends with an edge. -/
theorem last_edge (leads : follow succ u path = some v) (nonempty : path ≠ [])
    : ∃ front i w, path = front ++ [i] ∧ follow succ u front = some w ∧ (succ w)[i]? = some v := by
  obtain ⟨front, i, rfl⟩ := (List.eq_nil_or_concat' path).resolve_left nonempty
  obtain ⟨w, before, last⟩ := follow_append_eq_some leads
  rw [follow] at last
  obtain ⟨x, next, same⟩ := Option.bind_eq_some_iff.mp last
  cases same
  exact ⟨front, i, w, rfl, before, next⟩

-- The order of paths

theorem before_cons {j : Nat}
    : Before (i :: path) (j :: path') ↔ i < j ∨ i = j ∧ Before path path' := by
  rw [Before, List.cons_lex_cons_iff]
  rfl

theorem nil_before : Before [] (i :: path) := .nil

theorem not_before_nil : ¬ Before path [] := by
  intro before
  cases before

theorem Before.append (before : Before path path') (more : List Nat)
    : Before path (path' ++ more) := by
  induction before with
  | nil => exact .nil
  | cons _ ih => exact .cons ih
  | rel less => exact .rel less

/-- What comes before the next position either came before this one or goes through it. -/
theorem before_succ
    : Before path (path' ++ [i + 1]) ↔ Before path (path' ++ [i]) ∨ path' ++ [i] <+: path := by
  induction path' generalizing path with
  | nil =>
    cases path with
    | nil => simp [nil_before]
    | cons j path =>
      simp only [List.nil_append, before_cons, not_before_nil, and_false, or_false,
        List.cons_prefix_cons, List.nil_prefix, and_true]
      omega
  | cons k path' ih =>
    cases path with
    | nil => simp [nil_before]
    | cons j path =>
      simp only [List.cons_append, before_cons, List.cons_prefix_cons, ih]
      tauto

/-- What comes before a path extended by its first position is the path or came before it. -/
theorem before_zero : Before path (path' ++ [0]) ↔ Before path path' ∨ path = path' := by
  induction path' generalizing path with
  | nil =>
    cases path with
    | nil => simp [nil_before]
    | cons j path => simp [before_cons, not_before_nil]
  | cons k path' ih =>
    cases path with
    | nil => simp [nil_before]
    | cons j path =>
      simp only [List.cons_append, before_cons, ih, List.cons.injEq]
      tauto

theorem before_trichotomy (path path' : List Nat)
    : Before path path' ∨ path = path' ∨ Before path' path := by
  induction path generalizing path' with
  | nil =>
    cases path' with
    | nil => exact .inr (.inl rfl)
    | cons j path' => exact .inl .nil
  | cons i path ih =>
    cases path' with
    | nil => exact .inr (.inr .nil)
    | cons j path' =>
      rcases Nat.lt_trichotomy i j with less | rfl | more
      · exact .inl (.rel less)
      · rcases ih path' with before | rfl | after
        · exact .inl (.cons before)
        · exact .inr (.inl rfl)
        · exact .inr (.inr (.cons after))
      · exact .inr (.inr (.rel more))

theorem First.unique (one : First succ source v path) (other : First succ source v path')
    : path = path' := by
  rcases before_trichotomy path path' with before | same | after
  · exact absurd before (other.first path one.leads)
  · exact same
  · exact absurd after (one.first path' other.leads)

-- How many vertices are reached

theorem length_le_encard {vertices : List V} (once : vertices.Nodup) {members : Set V}
    (inside : ∀ v ∈ vertices, v ∈ members)
    : (vertices.length : ℕ∞) ≤ members.encard := by
  classical
  have counted : ((vertices.toFinset : Set V)).encard = vertices.length := by
    rw [Set.encard_coe_eq_coe_finsetCard, List.toFinset_card_of_nodup once]
  rw [← counted]
  apply Set.encard_le_encard
  intro v member
  exact inside v (List.mem_toFinset.mp member)

theorem encard_eq_length {vertices : List V} (once : vertices.Nodup) {members : Set V}
    (exact : ∀ v, v ∈ vertices ↔ v ∈ members)
    : members.encard = vertices.length := by
  classical
  have same : (vertices.toFinset : Set V) = members := by
    ext v
    rw [Finset.mem_coe, List.mem_toFinset, exact]
  rw [← same, Set.encard_coe_eq_coe_finsetCard, List.toFinset_card_of_nodup once]

end Z23.Lib.OrderedGraph
