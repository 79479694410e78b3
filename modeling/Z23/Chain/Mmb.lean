import Mathlib.Data.List.Induction
import Z23.Lib.Mountains
import Z23.Primitives

/-!
The Merkle mountain belt. An append merges lazily: the last pair of mountains if it is even, and
then one more even pair, the last one there is. The heights are the digits of a redundant binary
counter, and a digit of two always has a zero between it and the next lower one.
-/

namespace Z23.Chain.MountainBelt

open Z23.Lib.Mountains

-- The structure

structure MmbLeaf where
  blockHash : Uint256
  height : UInt32
  timestamp : UInt32
  nBits : UInt32
  saplingRoot : Uint256
  chainWork : Uint256
  utxoRoot : Uint256
deriving DecidableEq, Repr

/-- The inputs that are hashed; each kind has a tag of its own. -/
inductive MmbInput (W : Type) where
  | leaf (leaf : MmbLeaf)
  | internal (left right : W)
  | root (peaks : List W)
deriving DecidableEq

structure Mountain (W : Type) where
  peak : W
  height : Nat
deriving DecidableEq

/-- The last mountain is the first of the list. -/
structure Mmb (W : Type) where
  numLeaves : Nat
  mountains : List (Mountain W)
  rootCache : W
  rootDirty : Bool
deriving DecidableEq

def mmbMaxMountains : Nat := 64

def mmbMaxHeight : Nat := 64

section

variable {W : Type} (sha3 : MmbInput W → W)

def mmbHashLeaf (leaf : MmbLeaf) : W := sha3 (.leaf leaf)

def mmbHashInternal (left right : W) : W := sha3 (.internal left right)

def mmbInit (zero : W) : Mmb W := ⟨0, [], zero, true⟩

def mergePair (a b : Mountain W) : Mountain W := ⟨mmbHashInternal sha3 a.peak b.peak, a.height + 1⟩

/-- The last two mountains, and the number of merges; the height cap refuses. -/
def mergeRightmost : List (Mountain W) → Option (List (Mountain W) × Nat)
  | b :: a :: rest =>
    if a.height = b.height then
      if mmbMaxHeight ≤ a.height then none else some (mergePair sha3 a b :: rest, 1)
    else some (b :: a :: rest, 0)
  | mountains => some (mountains, 0)

/-- Scans left for one pair of the same height. -/
def mergeDeferred : List (Mountain W) → Option (List (Mountain W) × Nat)
  | b :: a :: rest =>
    if a.height = b.height then
      if mmbMaxHeight ≤ a.height then none else some (mergePair sha3 a b :: rest, 1)
    else (mergeDeferred (a :: rest)).map fun (mountains, merges) => (b :: mountains, merges)
  | mountains => some (mountains, 0)

/-- The mountains after the merges, and their number; `none` where the height cap refuses. -/
def mmbMergeAfterInsert (mountains : List (Mountain W)) : List (Mountain W) × Option Nat :=
  match mergeRightmost sha3 mountains with
  | none => (mountains, none)
  | some (mountains, first) =>
    match mergeDeferred sha3 mountains with
    | none => (mountains, none)
    | some (merged, second) => (merged, some (first + second))

def mmbAppendHash (m : Mmb W) (leafHash : W) : Mmb W × Option Nat :=
  if mmbMaxMountains ≤ m.mountains.length then (m, none)
  else
    let merged := mmbMergeAfterInsert sha3 (⟨leafHash, 0⟩ :: m.mountains)
    ({ m with
        numLeaves := (m.numLeaves + 1) % 2 ^ 64
        mountains := merged.1
        rootDirty := true }, merged.2)

def mmbAppend (m : Mmb W) (leaf : MmbLeaf) : Mmb W × Option Nat :=
  mmbAppendHash sha3 m (mmbHashLeaf sha3 leaf)

/-- The belt after an append that reports its merges. -/
def accepted (result : Mmb W × Option Nat) : Option (Mmb W) := result.2.map fun _ => result.1

/-- Appends leaf hashes in order; `none` where an append is refused. -/
def mmbAppendHashes : Mmb W → List W → Option (Mmb W)
  | m, [] => some m
  | m, leafHash :: rest =>
    (accepted (mmbAppendHash sha3 m leafHash)).bind (mmbAppendHashes · rest)

def mmbAppendAll (m : Mmb W) (leaves : List MmbLeaf) : Option (Mmb W) :=
  mmbAppendHashes sha3 m (leaves.map (mmbHashLeaf sha3))

/-- The peaks from left to right. -/
def Mmb.peaks (m : Mmb W) : List W := (m.mountains.map Mountain.peak).reverse

/-- The root of peaks: a single one stands for itself. -/
def bagPeaks : List W → W
  | [peak] => peak
  | peaks => sha3 (.root peaks)

/-- The root, and the belt with the root in its cache. -/
def mmbRoot (zero : W) (m : Mmb W) : W × Mmb W :=
  if m.mountains = [] then (zero, m)
  else if !m.rootDirty then (m.rootCache, m)
  else
    let root := bagPeaks sha3 m.peaks
    (root, { m with rootCache := root, rootDirty := false })

end

-- Heights

/-- What a merge of a pair of equal heights leaves; the height cap refuses. -/
def carryPair (height : Nat) (rest : List Nat) : Option (List Nat) :=
  if mmbMaxHeight ≤ height then none else some ((height + 1) :: rest)

def carryRightmost : List Nat → Option (List Nat)
  | b :: a :: rest => if a = b then carryPair a rest else some (b :: a :: rest)
  | hs => some hs

def carryDeferred : List Nat → Option (List Nat)
  | b :: a :: rest => if a = b then carryPair a rest else (carryDeferred (a :: rest)).map (b :: ·)
  | hs => some hs

def insertHeight (hs : List Nat) : Option (List Nat) :=
  if mmbMaxMountains ≤ hs.length then none
  else (carryRightmost (0 :: hs)).bind carryDeferred

/-- The heights after a number of appends, from the right; `none` where one is refused. -/
def beltHeights : Nat → Option (List Nat)
  | 0 => some []
  | n + 1 => (beltHeights n).bind insertHeight

variable {W : Type} {sha3 : MmbInput W → W} {k : Nat} {z : Bool} {hs hs' : List Nat}

def Mmb.heights (m : Mmb W) : List Nat := m.mountains.map Mountain.height

theorem mergeRightmost_heights (mountains : List (Mountain W))
    : (mergeRightmost sha3 mountains).map (fun merged => merged.1.map Mountain.height)
        = carryRightmost (mountains.map Mountain.height) := by
  match mountains with
  | [] => rfl
  | [_] => rfl
  | b :: a :: rest =>
    simp only [mergeRightmost, List.map_cons, carryRightmost, carryPair]
    split
    · split
      · rfl
      · rfl
    · rfl

theorem mergeDeferred_heights (mountains : List (Mountain W))
    : (mergeDeferred sha3 mountains).map (fun merged => merged.1.map Mountain.height)
        = carryDeferred (mountains.map Mountain.height) := by
  match mountains with
  | [] => rfl
  | [_] => rfl
  | b :: a :: rest =>
    have tail := mergeDeferred_heights (a :: rest)
    simp only [mergeDeferred, List.map_cons, carryDeferred, carryPair]
    rw [List.map_cons] at tail
    rw [← tail]
    split
    · split
      · rfl
      · rfl
    · rw [Option.map_map, Option.map_map]
      rfl

theorem appendHash_heights (m : Mmb W) (leafHash : W)
    : (accepted (mmbAppendHash sha3 m leafHash)).map Mmb.heights = insertHeight m.heights := by
  have count : m.heights.length = m.mountains.length := List.length_map _
  have first := @mergeRightmost_heights W sha3 (⟨leafHash, 0⟩ :: m.mountains)
  unfold accepted mmbAppendHash insertHeight
  rw [count]
  split
  · rfl
  · unfold mmbMergeAfterInsert
    change _ = (carryRightmost (List.map Mountain.height (⟨leafHash, 0⟩ :: m.mountains))).bind
      carryDeferred
    rw [← first]
    cases rightmost : mergeRightmost sha3 (⟨leafHash, 0⟩ :: m.mountains) with
    | none => rfl
    | some merged =>
      have second := @mergeDeferred_heights W sha3 merged.1
      simp only [Option.map_some, Option.bind_some]
      rw [← second]
      cases deferred : mergeDeferred sha3 merged.1 with
      | none => rfl
      | some final => rfl

theorem appendHashes_append (m : Mmb W) (hashes more : List W)
    : mmbAppendHashes sha3 m (hashes ++ more)
        = (mmbAppendHashes sha3 m hashes).bind (mmbAppendHashes sha3 · more) := by
  induction hashes generalizing m with
  | nil => rfl
  | cons leafHash rest ih =>
    rw [List.cons_append, mmbAppendHashes, mmbAppendHashes, Option.bind_assoc]
    congr 1
    funext next
    exact ih next

theorem appendHashes_heights (zero : W) (hashes : List W)
    : (mmbAppendHashes sha3 (mmbInit zero) hashes).map Mmb.heights
        = beltHeights hashes.length := by
  induction hashes using List.reverseRecOn with
  | nil => rfl
  | append_singleton hashes leafHash ih =>
    rw [List.length_append, List.length_singleton, beltHeights, ← ih, appendHashes_append]
    cases mmbAppendHashes sha3 (mmbInit zero) hashes with
    | none => rfl
    | some m =>
      have step := @appendHash_heights W sha3 m leafHash
      rw [Option.bind_some, Option.map_some, Option.bind_some, ← step, mmbAppendHashes]
      cases accepted (mmbAppendHash sha3 m leafHash) with
      | none => rfl
      | some next => rfl

-- A redundant counter

/--
The heights from a bound on, each once or twice. Between two pairs, and below the first one unless
the flag is set, a height is missing.
-/
inductive Regular : Nat → Bool → List Nat → Prop where
  | nil {k : Nat} {z : Bool} : Regular k z []
  | once {k h : Nat} {z : Bool} {hs : List Nat} (low : k ≤ h)
      (rest : Regular (h + 1) (z || decide (k < h)) hs) : Regular k z (h :: hs)
  | twice {k h : Nat} {z : Bool} {hs : List Nat} (low : k ≤ h) (gap : z = true ∨ k < h)
      (rest : Regular (h + 1) false hs) : Regular k z (h :: h :: hs)

theorem Regular.relax (regular : Regular k z hs) : Regular k true hs := by
  induction regular with
  | nil => exact .nil
  | once low rest ih => exact .once low (by simpa using ih)
  | twice low gap rest ih => exact .twice low (.inl rfl) rest

theorem Regular.skip (regular : Regular k z hs) (above : ∀ h ∈ hs.head?, k < h)
    : Regular (k + 1) true hs := by
  cases regular with
  | nil => exact .nil
  | once low rest =>
    have higher : k < _ := above _ rfl
    rw [decide_eq_true higher, Bool.or_true] at rest
    exact .once higher (by simpa using rest)
  | twice low gap rest => exact .twice (above _ rfl) (.inl rfl) rest

/-- A height right below a regular part joins it, with a gap of its own below it. -/
theorem Regular.carry {h : Nat} (low : k ≤ h) (rest : Regular (h + 1) false hs)
    : Regular k false ((h + 1) :: hs) := by
  have below : k < h + 1 := by omega
  by_cases joins : hs.head? = some (h + 1)
  · cases rest with
    | nil => cases joins
    | @once _ g _ others first rest =>
      obtain rfl : g = h + 1 := by simpa using joins
      exact .twice (by omega) (.inr below) (by simpa using rest)
    | @twice _ g _ others first gap rest =>
      obtain rfl : g = h + 1 := by simpa using joins
      rcases gap with flagged | higher
      · cases flagged
      · omega
  · have above : ∀ g ∈ hs.head?, h + 1 < g := by
      intro g member
      have found : hs.head? = some g := member
      cases rest with
      | nil => cases found
      | once first rest =>
        obtain rfl := Option.some.inj found
        exact lt_of_le_of_ne first (fun same => joins (by rw [found, same]))
      | twice first gap rest =>
        obtain rfl := Option.some.inj found
        exact lt_of_le_of_ne first (fun same => joins (by rw [found, same]))
    have rest := rest.skip above
    exact .once (by omega) (by rw [decide_eq_true below]; exact rest)

theorem Regular.head_le (regular : Regular k z hs) : ∀ h ∈ hs.head?, k ≤ h := by
  intro h member
  have found : hs.head? = some h := member
  cases regular with
  | nil => cases found
  | once low rest =>
    obtain rfl := Option.some.inj found
    exact low
  | twice low gap rest =>
    obtain rfl := Option.some.inj found
    exact low

theorem carryDeferred_cons {h : Nat} (differs : ∀ g ∈ hs.head?, g ≠ h)
    : carryDeferred (h :: hs) = (carryDeferred hs).map (h :: ·) := by
  cases hs with
  | nil => rfl
  | cons g rest =>
    rw [carryDeferred, if_neg]
    exact differs g rfl

theorem carryPair_some {h : Nat} {rest : List Nat} (carried : carryPair h rest = some hs')
    : hs' = (h + 1) :: rest := by
  unfold carryPair at carried
  split at carried
  · cases carried
  · exact (Option.some.inj carried).symm

/-- The deferred merge uses up the gap below the first pair, and leaves one behind. -/
theorem Regular.deferred (regular : Regular k true hs) (merged : carryDeferred hs = some hs')
    : Regular k false hs' := by
  generalize flag : true = z at regular
  induction regular generalizing hs' with
  | nil =>
    obtain rfl := Option.some.inj merged
    exact .nil
  | @once k h z hs low rest ih =>
    have differs : ∀ g ∈ hs.head?, g ≠ h := by
      intro g member
      have above := rest.head_le g member
      omega
    rw [carryDeferred_cons differs] at merged
    obtain ⟨tail, tailMerged, rfl⟩ := Option.map_eq_some_iff.mp merged
    have next := ih tailMerged (by rw [← flag]; rfl)
    cases below : decide (k < h) with
    | false => exact .once low (by rw [below]; exact next)
    | true => exact .once low (by rw [below]; exact next.relax)
  | @twice k h z hs low gap rest ih =>
    rw [carryDeferred, if_pos rfl] at merged
    obtain rfl := carryPair_some merged
    exact .carry low rest

theorem Regular.insertHeight (regular : Regular 0 false hs)
    (inserted : MountainBelt.insertHeight hs = some hs') : Regular 0 false hs' := by
  unfold MountainBelt.insertHeight at inserted
  split at inserted
  · cases inserted
  · obtain ⟨first, rightmost, deferred⟩ := Option.bind_eq_some_iff.mp inserted
    by_cases merges : hs.head? = some 0
    · -- The new leaf meets a single one; the pair may meet a mountain of height one in turn.
      obtain ⟨rest, rfl⟩ : ∃ rest, hs = 0 :: rest := by
        cases hs with
        | nil => cases merges
        | cons h rest => exact ⟨rest, by rw [Option.some.inj merges]⟩
      have tail : Regular 1 false rest := by
        cases regular with
        | once low rest => exact rest
        | twice low gap rest =>
          rcases gap with flagged | higher
          · cases flagged
          · omega
      rw [carryRightmost, if_pos rfl] at rightmost
      obtain rfl := carryPair_some rightmost
      by_cases again : rest.head? = some 1
      · obtain ⟨others, rfl⟩ : ∃ others, rest = 1 :: others := by
          cases rest with
          | nil => cases again
          | cons h others => exact ⟨others, by rw [Option.some.inj again]⟩
        have high : Regular 2 false others := by
          cases tail with
          | once low rest => exact rest
          | twice low gap rest =>
            rcases gap with flagged | higher
            · cases flagged
            · omega
        rw [carryDeferred, if_pos rfl] at deferred
        obtain rfl := carryPair_some deferred
        exact .carry (Nat.zero_le 1) high
      · have above : ∀ g ∈ rest.head?, 1 < g := by
          intro g member
          have low := tail.head_le g member
          have other : g ≠ 1 := fun same => again (same ▸ member)
          omega
        rw [carryDeferred_cons (fun g member => (above g member).ne')] at deferred
        obtain ⟨merged, tailMerged, rfl⟩ := Option.map_eq_some_iff.mp deferred
        exact .once (Nat.zero_le 1) ((tail.skip above).deferred tailMerged).relax
    · have above : ∀ g ∈ hs.head?, 0 < g := by
        intro g member
        exact Nat.pos_of_ne_zero (fun same => merges (same ▸ member))
      have kept : carryRightmost (0 :: hs) = some (0 :: hs) := by
        cases hs with
        | nil => rfl
        | cons h rest =>
          rw [carryRightmost, if_neg]
          exact (above h rfl).ne'
      rw [kept] at rightmost
      obtain rfl := Option.some.inj rightmost
      rw [carryDeferred_cons (fun g member => (above g member).ne')] at deferred
      obtain ⟨merged, tailMerged, rfl⟩ := Option.map_eq_some_iff.mp deferred
      exact .once (Nat.le_refl 0) ((regular.skip above).deferred tailMerged)

theorem Regular.sorted (regular : Regular k z hs) : hs.Pairwise (· ≤ ·) ∧ ∀ h ∈ hs, k ≤ h := by
  induction regular with
  | nil => simp
  | once low rest ih =>
    obtain ⟨order, bounds⟩ := ih
    refine ⟨.cons (fun g member => ?_) order, ?_⟩
    · exact Nat.le_of_succ_le (bounds g member)
    · intro g member
      rcases List.mem_cons.mp member with rfl | later
      · exact low
      · exact le_trans low (Nat.le_of_succ_le (bounds g later))
  | @twice k h z hs low gap rest ih =>
    obtain ⟨order, bounds⟩ := ih
    have above : ∀ g ∈ hs, h ≤ g := fun g member => Nat.le_of_succ_le (bounds g member)
    refine ⟨.cons ?_ (.cons above order), ?_⟩
    · intro g member
      rcases List.mem_cons.mp member with rfl | later
      · exact Nat.le_refl g
      · exact above g later
    · intro g member
      simp only [List.mem_cons] at member
      rcases member with rfl | rfl | later
      · exact low
      · exact low
      · exact le_trans low (above g later)

theorem Regular.count_le (regular : Regular k z hs) (h : Nat) : hs.count h ≤ 2 := by
  have fresh : ∀ {g : Nat} {rest : List Nat} {flag : Bool}, Regular (g + 1) flag rest →
      rest.count g = 0 := by
    intro g rest flag above
    rw [List.count_eq_zero]
    intro member
    have low := above.sorted.2 g member
    omega
  induction regular with
  | nil => simp
  | @once k g z hs low rest ih =>
    rw [List.count_cons]
    by_cases same : g = h
    · rw [← same, fresh rest]
      simp
    · simp [same, ih]
  | @twice k g z hs low gap rest ih =>
    rw [List.count_cons, List.count_cons]
    by_cases same : g = h
    · rw [← same, fresh rest]
      simp
    · simp [same, ih]

/-- Every pair pays for itself with a gap, so there are at most as many mountains as heights. -/
theorem Regular.length_le (regular : Regular k z hs) {top : Nat} (below : ∀ h ∈ hs, h < top)
    (inside : k ≤ top) : hs.length + k ≤ top + z.toNat := by
  induction regular with
  | nil => exact Nat.le_add_right_of_le (by simpa using inside)
  | @once k g z hs low rest ih =>
    have here := below g List.mem_cons_self
    have tail := ih (List.forall_mem_cons.mp below).2 here
    rw [List.length_cons]
    by_cases gap : k < g
    · have flag := Bool.toNat_le (z || decide (k < g))
      omega
    · obtain rfl : k = g := by omega
      rw [decide_eq_false gap, Bool.or_false] at tail
      omega
  | @twice k g z hs low gap rest ih =>
    have here := below g List.mem_cons_self
    have tail := ih (fun h member =>
      below h (List.mem_cons_of_mem _ (List.mem_cons_of_mem _ member))) here
    have plain : (false : Bool).toNat = 0 := rfl
    rw [List.length_cons, List.length_cons]
    rcases gap with rfl | higher
    · have set : (true : Bool).toNat = 1 := rfl
      omega
    · omega

-- Blocks of leaves

/-- The mountains are perfect trees over consecutive blocks of the leaf hashes. -/
def Covers (sha3 : MmbInput W → W) (mountains : List (Mountain W)) (hashes : List W) : Prop :=
  Range (mmbHashInternal sha3) (mountains.map Mountain.height) (mountains.map Mountain.peak) hashes

variable {hashes : List W}

theorem Covers.mergePair {a b : Mountain W} {rest : List (Mountain W)}
    (covers : Covers sha3 (b :: a :: rest) hashes) (even : a.height = b.height)
    : Covers sha3 (mergePair sha3 a b :: rest) hashes := by
  unfold Covers at covers ⊢
  rw [List.map_cons, List.map_cons, ← even] at covers
  exact Range.merge covers

theorem Covers.mergeRightmost {mountains merged : List (Mountain W)} {n : Nat}
    (covers : Covers sha3 mountains hashes)
    (merges : MountainBelt.mergeRightmost sha3 mountains = some (merged, n))
    : Covers sha3 merged hashes := by
  unfold MountainBelt.mergeRightmost at merges
  split at merges
  · split at merges
    · rename_i even
      split at merges
      · cases merges
      · cases merges
        exact covers.mergePair even
    · cases merges
      exact covers
  · cases merges
    exact covers

theorem Covers.mergeDeferred {mountains merged : List (Mountain W)} {n : Nat}
    (covers : Covers sha3 mountains hashes)
    (merges : MountainBelt.mergeDeferred sha3 mountains = some (merged, n))
    : Covers sha3 merged hashes := by
  induction mountains generalizing merged hashes n with
  | nil =>
    cases merges
    exact covers
  | cons b tail ih =>
    cases tail with
    | nil =>
      cases merges
      exact covers
    | cons a rest =>
      rw [MountainBelt.mergeDeferred] at merges
      split at merges
      · rename_i even
        split at merges
        · cases merges
        · cases merges
          exact covers.mergePair even
      · obtain ⟨⟨inner, count⟩, tailMerges, same⟩ := Option.map_eq_some_iff.mp merges
        cases same
        obtain ⟨before, last, rfl, front, peak⟩ := Range.cons_iff.mp covers
        exact .push (ih front tailMerges) peak

/-- What an append that is not refused does. -/
structure Appended (sha3 : MmbInput W → W) (m : Mmb W) (leafHash : W) (next : Mmb W)
    (first : List (Mountain W)) : Prop where
  rightmost : ∃ n, MountainBelt.mergeRightmost sha3 (⟨leafHash, 0⟩ :: m.mountains) = some (first, n)
  deferred : ∃ n, MountainBelt.mergeDeferred sha3 first = some (next.mountains, n)
  counted : next.numLeaves = (m.numLeaves + 1) % 2 ^ 64
  dirty : next.rootDirty = true

theorem accepted_appendHash {m next : Mmb W} {leafHash : W}
    (accepts : accepted (mmbAppendHash sha3 m leafHash) = some next)
    : ∃ first, Appended sha3 m leafHash next first := by
  unfold accepted mmbAppendHash mmbMergeAfterInsert at accepts
  split at accepts
  · cases accepts
  · cases rightmost : MountainBelt.mergeRightmost sha3 (⟨leafHash, 0⟩ :: m.mountains) with
    | none =>
      rw [rightmost] at accepts
      cases accepts
    | some first =>
      rw [rightmost] at accepts
      simp only at accepts
      cases deferred : MountainBelt.mergeDeferred sha3 first.1 with
      | none =>
        rw [deferred] at accepts
        cases accepts
      | some second =>
        rw [deferred] at accepts
        cases accepts
        exact ⟨first.1, ⟨first.2, rightmost⟩, ⟨second.2, deferred⟩, rfl, rfl⟩

theorem Covers.appendHash {m next : Mmb W} {leafHash : W} (covers : Covers sha3 m.mountains hashes)
    (accepts : accepted (mmbAppendHash sha3 m leafHash) = some next)
    : Covers sha3 next.mountains (hashes ++ [leafHash]) := by
  have pushed : Covers sha3 (⟨leafHash, 0⟩ :: m.mountains) (hashes ++ [leafHash]) :=
    .push covers (.leaf leafHash)
  obtain ⟨first, appended⟩ := accepted_appendHash accepts
  obtain ⟨count, rightmost⟩ := appended.rightmost
  obtain ⟨later, deferred⟩ := appended.deferred
  exact (pushed.mergeRightmost rightmost).mergeDeferred deferred

/-- What holds of a belt after its leaf hashes have been appended. -/
structure Built (sha3 : MmbInput W → W) (m : Mmb W) (hashes : List W) : Prop where
  covers : Covers sha3 m.mountains hashes
  counted : m.numLeaves = hashes.length % 2 ^ 64
  dirty : m.rootDirty = true

theorem appendHashes_built {zero : W} {m : Mmb W}
    (appended : mmbAppendHashes sha3 (mmbInit zero) hashes = some m) : Built sha3 m hashes := by
  induction hashes using List.reverseRecOn generalizing m with
  | nil =>
    cases appended
    exact ⟨.nil, rfl, rfl⟩
  | append_singleton hashes leafHash ih =>
    rw [appendHashes_append] at appended
    obtain ⟨before, earlier, last⟩ := Option.bind_eq_some_iff.mp appended
    obtain ⟨next, step, done⟩ := Option.bind_eq_some_iff.mp last
    cases done
    have built := ih earlier
    obtain ⟨first, effect⟩ := accepted_appendHash step
    refine ⟨built.covers.appendHash step, ?_, effect.dirty⟩
    rw [effect.counted, built.counted, Nat.mod_add_mod, List.length_append, List.length_singleton]

-- No append is refused

theorem beltHeights_regular {n : Nat} (heights : beltHeights n = some hs) : Regular 0 false hs := by
  induction n generalizing hs with
  | zero =>
    cases heights
    exact .nil
  | succ n ih =>
    obtain ⟨before, earlier, inserted⟩ := Option.bind_eq_some_iff.mp heights
    exact (ih earlier).insertHeight inserted

theorem beltHeights_sum {n : Nat} (heights : beltHeights n = some hs)
    : (hs.map (2 ^ ·)).sum = n := by
  have run := @appendHashes_heights Unit (fun _ => ()) () (List.replicate n ())
  rw [List.length_replicate, heights] at run
  obtain ⟨m, appended, rfl⟩ := Option.map_eq_some_iff.mp run
  have total := (appendHashes_built appended).covers.sum
  rwa [List.length_replicate] at total

theorem beltHeights_lt {n bound : Nat} (heights : beltHeights n = some hs) (few : n < 2 ^ bound)
    : ∀ h ∈ hs, h < bound := by
  intro h member
  have part : 2 ^ h ≤ (hs.map (2 ^ ·)).sum :=
    List.single_le_sum (fun _ _ => Nat.zero_le _) _ (List.mem_map_of_mem member)
  rw [beltHeights_sum heights] at part
  exact (Nat.pow_lt_pow_iff_right (by decide)).mp (Nat.lt_of_le_of_lt part few)

theorem carryDeferred_isSome (low : ∀ h ∈ hs, h < mmbMaxHeight)
    : ∃ merged, carryDeferred hs = some merged := by
  induction hs with
  | nil => exact ⟨[], rfl⟩
  | cons b tail ih =>
    cases tail with
    | nil => exact ⟨[b], rfl⟩
    | cons a rest =>
      obtain ⟨merged, tailMerged⟩ := ih (List.forall_mem_cons.mp low).2
      have cap := low a (List.mem_cons_of_mem _ List.mem_cons_self)
      rw [carryDeferred]
      split
      · exact ⟨(a + 1) :: rest, if_neg (Nat.not_le.mpr cap)⟩
      · exact ⟨b :: merged, by rw [tailMerged]; rfl⟩

theorem insertHeight_isSome (few : hs.length < mmbMaxMountains)
    (low : ∀ h ∈ hs, h + 1 < mmbMaxHeight) : ∃ inserted, insertHeight hs = some inserted := by
  have first : ∃ merged, carryRightmost (0 :: hs) = some merged
      ∧ ∀ h ∈ merged, h < mmbMaxHeight := by
    have bounded : ∀ h ∈ hs, h < mmbMaxHeight := fun h member => Nat.lt_of_succ_lt (low h member)
    have zero : 0 < mmbMaxHeight := by decide
    cases hs with
    | nil => exact ⟨[0], rfl, by simpa using zero⟩
    | cons a rest =>
      rw [carryRightmost]
      split
      · rename_i even
        refine ⟨(a + 1) :: rest, if_neg (Nat.not_le.mpr (even ▸ zero)), ?_⟩
        intro h member
        rcases List.mem_cons.mp member with rfl | later
        · exact low a List.mem_cons_self
        · exact bounded h (List.mem_cons_of_mem _ later)
      · refine ⟨0 :: a :: rest, rfl, ?_⟩
        intro h member
        rcases List.mem_cons.mp member with rfl | later
        · exact zero
        · exact bounded h later
  obtain ⟨merged, rightmost, capped⟩ := first
  obtain ⟨final, deferred⟩ := carryDeferred_isSome capped
  refine ⟨final, ?_⟩
  rw [insertHeight, if_neg (Nat.not_le.mpr few), rightmost]
  exact deferred

theorem beltHeights_isSome {n : Nat} (few : n < 2 ^ 31) : ∃ hs, beltHeights n = some hs := by
  induction n with
  | zero => exact ⟨[], rfl⟩
  | succ n ih =>
    obtain ⟨hs, heights⟩ := ih (by omega)
    have low := beltHeights_lt heights (show n < 2 ^ 31 by omega)
    have count := (beltHeights_regular heights).length_le low (Nat.zero_le 31)
    have room : hs.length < mmbMaxMountains := by
      have flag : (false : Bool).toNat = 0 := rfl
      have size : mmbMaxMountains = 64 := rfl
      omega
    obtain ⟨inserted, step⟩ := insertHeight_isSome room (by
      intro h member
      have bound := low h member
      have cap : mmbMaxHeight = 64 := rfl
      omega)
    refine ⟨inserted, ?_⟩
    rw [beltHeights, heights]
    exact step

theorem appendHashes_isSome {zero : W} {hashes : List W}
    (fits : ∃ hs, beltHeights hashes.length = some hs)
    : ∃ m, mmbAppendHashes sha3 (mmbInit zero) hashes = some m := by
  obtain ⟨hs, heights⟩ := fits
  have run := @appendHashes_heights W sha3 zero hashes
  rw [heights] at run
  obtain ⟨m, appended, -⟩ := Option.map_eq_some_iff.mp run
  exact ⟨m, appended⟩

/--
A bounded mountain range over the leaves: from left to right the heights fall, none is there three
times, and each mountain is the perfect tree of its block.
-/
structure Belt (sha3 : MmbInput W → W) (m : Mmb W) (leaves : List MmbLeaf) : Prop where
  counted : m.numLeaves = leaves.length
  falling : m.heights.reverse.Pairwise (· ≥ ·)
  twice : ∀ h, m.heights.count h ≤ 2
  total : (m.heights.map (2 ^ ·)).sum = leaves.length
  blocks : Range (mmbHashInternal sha3) m.heights (m.mountains.map Mountain.peak)
    (leaves.map (mmbHashLeaf sha3))

/-- No append of fewer than 2^31 is refused, and the belt stays a bounded mountain range. -/
theorem appendAll_belt (sha3 : MmbInput W → W) (zero : W) (leaves : List MmbLeaf)
    (few : leaves.length < 2 ^ 31)
    : ∃ m, mmbAppendAll sha3 (mmbInit zero) leaves = some m ∧ Belt sha3 m leaves := by
  have count : (leaves.map (mmbHashLeaf sha3)).length = leaves.length := List.length_map _
  have fits := beltHeights_isSome (by rw [count]; exact few :
    (leaves.map (mmbHashLeaf sha3)).length < 2 ^ 31)
  obtain ⟨m, appended⟩ := @appendHashes_isSome W sha3 zero _ fits
  have heights := @appendHashes_heights W sha3 zero (leaves.map (mmbHashLeaf sha3))
  rw [appended, count] at heights
  have built := appendHashes_built appended
  have regular := beltHeights_regular heights.symm
  refine ⟨m, appended, ?_⟩
  refine
    { counted := ?_
      falling := ?_
      twice := regular.count_le
      total := beltHeights_sum heights.symm
      blocks := built.covers }
  · rw [built.counted, count, Nat.mod_eq_of_lt (Nat.lt_trans few (by decide))]
  · rw [List.pairwise_reverse]
    exact regular.sorted.1

/-- Digests as terms: distinct inputs have distinct digests. -/
inductive Digest where
  | zero
  | leaf (contents : MmbLeaf)
  | internal (left right : Digest)
  | root (peaks : Digest)
  | nil
  | cons (peak peaks : Digest)
deriving DecidableEq

def Digest.ofList : List Digest → Digest
  | [] => .nil
  | peak :: peaks => .cons peak (ofList peaks)

def Digest.hash : MmbInput Digest → Digest
  | .leaf contents => .leaf contents
  | .internal left right => .internal left right
  | .root peaks => .root (ofList peaks)

theorem Digest.ofList_injective : Function.Injective ofList := by
  intro xs
  induction xs with
  | nil =>
    intro ys same
    cases ys with
    | nil => rfl
    | cons y ys => cases same
  | cons x xs ih =>
    intro ys same
    cases ys with
    | nil => cases same
    | cons y ys =>
      obtain ⟨rfl, rest⟩ := Digest.cons.inj same
      rw [ih rest]

theorem Digest.hash_injective : Function.Injective hash := by
  intro a b same
  cases a with
  | leaf contents =>
    cases b with
    | leaf contents' => rw [Digest.leaf.inj same]
    | internal left right => cases same
    | root peaks => cases same
  | internal left right =>
    cases b with
    | leaf contents => cases same
    | internal left' right' =>
      obtain ⟨rfl, rfl⟩ := Digest.internal.inj same
      rfl
    | root peaks => cases same
  | root peaks =>
    cases b with
    | leaf contents => cases same
    | internal left right => cases same
    | root peaks' => rw [ofList_injective (Digest.root.inj same)]

/-- A leaf with a height and nothing else. -/
def heightLeaf (height : UInt32) : MmbLeaf :=
  ⟨.fill 0, height, 0, 0, .fill 0, .fill 0, .fill 0⟩

theorem appendAll_belt_three
    : ∃ m, mmbAppendAll Digest.hash (mmbInit .zero) [heightLeaf 0, heightLeaf 1, heightLeaf 2]
        = some m ∧ Belt Digest.hash m [heightLeaf 0, heightLeaf 1, heightLeaf 2] :=
  appendAll_belt Digest.hash .zero _ (by decide)

end Z23.Chain.MountainBelt
