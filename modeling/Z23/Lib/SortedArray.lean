import Mathlib.Data.List.Perm.Basic
import Mathlib.Data.List.Pairwise

/-!
An array kept sorted by a preorder: a binary search for the place of a new element, the insertion
there, a forward merge of two sorted arrays and the removal of an ascending list of places in one
pass.
-/

namespace Z23.Lib.SortedArray

variable {α : Type}

-- Operations

/-- Narrow `[lo, hi)` to the first place where `low` fails; `fuel` bounds the turns. -/
def search (low : Nat → Bool) : Nat → Nat → Nat → Nat
  | 0, lo, _ => lo
  | fuel + 1, lo, hi =>
    if lo < hi then
      let mid := lo + (hi - lo) / 2
      if low mid then search low fuel (mid + 1) hi else search low fuel lo mid
    else lo

def insertAt (xs : List α) (pos : Nat) (x : α) : List α := xs.take pos ++ x :: xs.drop pos

/-- Write `rows` rows from two arrays; the second goes first where its element is `ahead`. -/
def merge (ahead : α → α → Bool) : Nat → List α → List α → List α
  | 0, _, _ => []
  | _ + 1, [], [] => []
  | rows + 1, [], y :: ys => y :: merge ahead rows [] ys
  | rows + 1, x :: xs, [] => x :: merge ahead rows xs []
  | rows + 1, x :: xs, y :: ys =>
    if ahead y x then y :: merge ahead rows (x :: xs) ys
    else x :: merge ahead rows xs (y :: ys)

/-- The runs of survivors behind each removed place. -/
def runsAfter (xs : List α) : Nat → List Nat → List α
  | pos, [] => xs.drop (pos + 1)
  | pos, next :: rest => (xs.drop (pos + 1)).take (next - (pos + 1)) ++ runsAfter xs next rest

/-- Remove an ascending list of places. -/
def removeSorted (xs : List α) : List Nat → List α
  | [] => xs
  | pos :: rest => xs.take pos ++ runsAfter xs pos rest

-- Search and insertion

theorem search_spec {low : Nat → Bool} {fuel lo hi : Nat} (ordered : lo ≤ hi)
    (enough : hi - lo ≤ fuel) (falling : ∀ i j, i ≤ j → j < hi → low j → low i)
    : lo ≤ search low fuel lo hi ∧ search low fuel lo hi ≤ hi
        ∧ (∀ i, lo ≤ i → i < search low fuel lo hi → low i)
        ∧ ∀ i, search low fuel lo hi ≤ i → i < hi → ¬ low i := by
  induction fuel generalizing lo hi with
  | zero =>
    obtain rfl : lo = hi := by omega
    exact ⟨Nat.le_refl _, Nat.le_refl _, fun i low high => by rw [search] at high; omega,
      fun i low high => by rw [search] at low; omega⟩
  | succ fuel ih =>
    rw [search]
    by_cases more : lo < hi
    · rw [if_pos more]
      dsimp only
      generalize half : lo + (hi - lo) / 2 = mid
      have bounds : lo ≤ mid ∧ mid < hi := by omega
      by_cases below : low mid
      · rw [if_pos below]
        obtain ⟨least, most, under, above⟩ := @ih (mid + 1) hi (by omega) (by omega) falling
        refine ⟨by omega, most, ?_, above⟩
        intro i _ small
        by_cases early : i ≤ mid
        · exact falling i mid early bounds.2 below
        · exact under i (by omega) small
      · rw [if_neg below]
        obtain ⟨least, most, under, above⟩ :=
          @ih lo mid (by omega) (by omega) (fun i j le lt => falling i j le (by omega))
        refine ⟨least, by omega, under, ?_⟩
        intro i large small holds
        by_cases early : i < mid
        · exact above i large early holds
        · exact below (falling mid i (by omega) small holds)
    · rw [if_neg more]
      obtain rfl : lo = hi := by omega
      exact ⟨Nat.le_refl _, Nat.le_refl _, fun i low high => by omega,
        fun i low high => by omega⟩

theorem insertAt_perm (xs : List α) (pos : Nat) (x : α) : (insertAt xs pos x).Perm (x :: xs) := by
  rw [insertAt]
  refine List.perm_middle.trans ?_
  rw [List.take_append_drop]

/-- An element goes behind those before `pos` and ahead of those from `pos` on. -/
theorem insertAt_pairwise {R : α → α → Prop} {xs : List α} (sorted : xs.Pairwise R) {pos : Nat}
    {x : α} (before : ∀ i (inside : i < xs.length), i < pos → R xs[i] x)
    (behind : ∀ i (inside : i < xs.length), pos ≤ i → R x xs[i])
    : (insertAt xs pos x).Pairwise R := by
  have parts : (xs.take pos ++ xs.drop pos).Pairwise R := by rwa [List.take_append_drop]
  obtain ⟨left, right, across⟩ := List.pairwise_append.mp parts
  refine List.pairwise_append.mpr ⟨left, List.pairwise_cons.mpr ⟨?_, right⟩, ?_⟩
  · intro y member
    obtain ⟨i, inside, rfl⟩ := List.getElem_of_mem member
    rw [List.getElem_drop]
    exact behind _ _ (Nat.le_add_right pos i)
  · intro y member z later
    rcases List.mem_cons.mp later with rfl | later
    · obtain ⟨i, inside, rfl⟩ := List.getElem_of_mem member
      rw [List.getElem_take]
      exact before i _ (by rw [List.length_take] at inside; omega)
    · exact across y member z later

-- Merging

theorem merge_perm (ahead : α → α → Bool) {rows : Nat} {xs ys : List α}
    (enough : xs.length + ys.length ≤ rows)
    : (merge ahead rows xs ys).Perm (xs ++ ys) := by
  induction rows generalizing xs ys with
  | zero =>
    have emptyXs : xs = [] := List.length_eq_zero_iff.mp (by omega)
    have emptyYs : ys = [] := List.length_eq_zero_iff.mp (by omega)
    subst emptyXs emptyYs
    exact List.Perm.refl _
  | succ rows ih =>
    cases xs with
    | nil =>
      cases ys with
      | nil => exact List.Perm.refl _
      | cons y ys =>
        rw [List.length_cons] at enough
        exact (ih (by omega)).cons y
    | cons x xs =>
      rw [List.length_cons] at enough
      cases ys with
      | nil => exact (ih (by omega)).cons x
      | cons y ys =>
        rw [List.length_cons] at enough
        rw [merge]
        split
        · have rest := @ih (x :: xs) ys (by rw [List.length_cons]; omega)
          exact (rest.cons y).trans List.perm_middle.symm
        · exact (@ih xs (y :: ys) (by rw [List.length_cons]; omega)).cons x

/-- Merging two sorted arrays gives a sorted one. -/
theorem merge_pairwise {R : α → α → Prop} (trans : ∀ {a b c}, R a b → R b c → R a c)
    {ahead : α → α → Bool} (front : ∀ {a b}, ahead a b → R a b)
    (back : ∀ {a b}, ¬ ahead a b → R b a) {rows : Nat} {xs ys : List α}
    (enough : xs.length + ys.length ≤ rows) (left : xs.Pairwise R) (right : ys.Pairwise R)
    : (merge ahead rows xs ys).Pairwise R := by
  induction rows generalizing xs ys with
  | zero => exact List.Pairwise.nil
  | succ rows ih =>
    cases xs with
    | nil =>
      cases ys with
      | nil => exact List.Pairwise.nil
      | cons y ys =>
        rw [List.length_cons] at enough
        rw [List.pairwise_cons] at right
        have few : ([] : List α).length + ys.length ≤ rows := by
          rw [List.length_nil]
          omega
        refine List.pairwise_cons.mpr ⟨?_, ih few left right.2⟩
        intro z member
        exact right.1 z ((merge_perm ahead few).mem_iff.mp member)
    | cons x xs =>
      rw [List.length_cons] at enough
      rw [List.pairwise_cons] at left
      cases ys with
      | nil =>
        have few : xs.length + ([] : List α).length ≤ rows := by
          rw [List.length_nil]
          omega
        refine List.pairwise_cons.mpr ⟨?_, ih few left.2 right⟩
        intro z member
        have known := (merge_perm ahead few).mem_iff.mp member
        rw [List.append_nil] at known
        exact left.1 z known
      | cons y ys =>
        rw [List.length_cons] at enough
        rw [List.pairwise_cons] at right
        rw [merge]
        split
        · rename_i first
          have few : (x :: xs).length + ys.length ≤ rows := by
            rw [List.length_cons]
            omega
          refine List.pairwise_cons.mpr
            ⟨?_, ih few (List.pairwise_cons.mpr left) right.2⟩
          intro z member
          rcases List.mem_append.mp ((merge_perm ahead few).mem_iff.mp member) with inLeft | inRight
          · rcases List.mem_cons.mp inLeft with rfl | inLeft
            · exact front first
            · exact trans (front first) (left.1 z inLeft)
          · exact right.1 z inRight
        · rename_i second
          have few : xs.length + (y :: ys).length ≤ rows := by
            rw [List.length_cons]
            omega
          refine List.pairwise_cons.mpr
            ⟨?_, ih few left.2 (List.pairwise_cons.mpr right)⟩
          intro z member
          rcases List.mem_append.mp ((merge_perm ahead few).mem_iff.mp member) with inLeft | inRight
          · exact left.1 z inLeft
          · rcases List.mem_cons.mp inRight with rfl | inRight
            · exact back second
            · exact trans (back second) (right.1 z inRight)

-- Removal of an ascending list of places

theorem runsAfter_sublist (xs : List α) {pos : Nat} {rest : List Nat}
    (ascending : (pos :: rest).Pairwise (· < ·))
    : (runsAfter xs pos rest).Sublist (xs.drop (pos + 1)) := by
  induction rest generalizing pos with
  | nil => exact List.Sublist.refl _
  | cons next rest ih =>
    rw [List.pairwise_cons] at ascending
    have later := ascending.1 next List.mem_cons_self
    have tail : xs.drop next = (xs.drop (pos + 1)).drop (next - (pos + 1)) := by
      rw [List.drop_drop]
      congr 1
      omega
    have sub := (ih ascending.2).trans (List.drop_sublist_drop_left xs (Nat.le_succ next))
    rw [tail] at sub
    rw [runsAfter]
    calc ((xs.drop (pos + 1)).take (next - (pos + 1)) ++ runsAfter xs next rest).Sublist
          ((xs.drop (pos + 1)).take (next - (pos + 1))
            ++ (xs.drop (pos + 1)).drop (next - (pos + 1))) := sub.append_left _
      _ = xs.drop (pos + 1) := List.take_append_drop _ _

theorem removeSorted_sublist (xs : List α) {places : List Nat} (ascending : places.Pairwise (· < ·))
    : (removeSorted xs places).Sublist xs := by
  cases places with
  | nil => exact List.Sublist.refl _
  | cons pos rest =>
    have sub := (runsAfter_sublist xs ascending).trans
      (List.drop_sublist_drop_left xs (Nat.le_succ pos))
    calc (xs.take pos ++ runsAfter xs pos rest).Sublist (xs.take pos ++ xs.drop pos) :=
          sub.append_left _
      _ = xs := List.take_append_drop _ _

theorem runsAfter_perm (xs : List α) {pos : Nat} {rest : List Nat}
    (ascending : (pos :: rest).Pairwise (· < ·)) (within : ∀ i ∈ pos :: rest, i < xs.length)
    : (xs.drop pos).Perm ((pos :: rest).filterMap (xs[·]?) ++ runsAfter xs pos rest) := by
  induction rest generalizing pos with
  | nil =>
    have inside := within pos List.mem_cons_self
    rw [List.filterMap_cons, List.getElem?_eq_getElem inside, runsAfter,
      List.drop_eq_getElem_cons inside]
    exact List.Perm.refl _
  | cons next rest ih =>
    have inside := within pos List.mem_cons_self
    rw [List.pairwise_cons] at ascending
    have later := ascending.1 next List.mem_cons_self
    have tail : (xs.drop (pos + 1)).drop (next - (pos + 1)) = xs.drop next := by
      rw [List.drop_drop]
      congr 1
      omega
    have rec_ := ih ascending.2 (List.forall_mem_cons.mp within).2
    rw [List.filterMap_cons, List.getElem?_eq_getElem inside, runsAfter,
      List.drop_eq_getElem_cons inside]
    refine List.Perm.cons _ ?_
    calc (xs.drop (pos + 1)).Perm
          ((xs.drop (pos + 1)).take (next - (pos + 1)) ++ xs.drop next) := by
            rw [← tail, List.take_append_drop]
      _ |>.Perm ((xs.drop (pos + 1)).take (next - (pos + 1))
            ++ ((next :: rest).filterMap (xs[·]?) ++ runsAfter xs next rest)) :=
            rec_.append_left _
      _ |>.Perm ((next :: rest).filterMap (xs[·]?)
            ++ ((xs.drop (pos + 1)).take (next - (pos + 1)) ++ runsAfter xs next rest)) :=
            List.perm_append_comm_assoc _ _ _

/-- The removed elements and the survivors make up the array. -/
theorem removeSorted_perm (xs : List α) {places : List Nat}
    (ascending : places.Pairwise (· < ·)) (within : ∀ i ∈ places, i < xs.length)
    : xs.Perm (places.filterMap (xs[·]?) ++ removeSorted xs places) := by
  cases places with
  | nil => exact List.Perm.refl _
  | cons pos rest =>
    calc xs.Perm (xs.take pos ++ xs.drop pos) := by rw [List.take_append_drop]
      _ |>.Perm (xs.take pos ++ ((pos :: rest).filterMap (xs[·]?) ++ runsAfter xs pos rest)) :=
          (runsAfter_perm xs ascending within).append_left _
      _ |>.Perm ((pos :: rest).filterMap (xs[·]?) ++ (xs.take pos ++ runsAfter xs pos rest)) :=
          List.perm_append_comm_assoc _ _ _

end Z23.Lib.SortedArray
