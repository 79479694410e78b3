import Mathlib.Data.List.Lex
import Z23.Lib.FiniteMap

/-!
The byte trie against a finite map: insertion with its roll-back when an allocation is refused,
erasure with its pruning, the longest prefix of a text and the walk below a prefix.
-/

namespace Z23.Commons.ZTrie

open Z23.Lib.FiniteMap

abbrev Key := List UInt8

/-- A pointer to a node, which has a value or none. -/
inductive Link (ν : Type) where
  | null
  | node (value : Option ν) (child : UInt8 → Link ν)

structure Trie (ν : Type) where
  root : Link ν := .null
  len : Nat := 0

section

variable {ν σ : Type}

def fresh : Link ν := .node none fun _ => .null

def valueOf : Link ν → Option ν
  | .null => none
  | .node value _ => value

def findNode : Link ν → Key → Link ν
  | link, [] => link
  | .null, _ :: _ => .null
  | .node _ child, byte :: key => findNode (child byte) key

/-- The value stored for a key. -/
def valueAt (link : Link ν) (key : Key) : Option ν := valueOf (findNode link key)

/-- Where the loop of a put ended: the first link it made, and whether it came to the end. -/
structure Descent (ν : Type) where
  link : Link ν
  first : Option Nat
  reached : Bool

def Descent.below (value : Option ν) (child : UInt8 → Link ν) (byte : UInt8) (end_ : Descent ν)
    : Descent ν :=
  { end_ with link := .node value (Function.update child byte end_.link) }

/-- The node of a link, made when it is missing and its allocation is granted; with the grants left
and whether it was made. -/
def ensureNode (grants : List Bool) : Link ν → Option (Link ν × List Bool × Bool)
  | .null =>
    match grants with
    | true :: grants => some (fresh, grants, true)
    | _ => none
  | .node value child => some (.node value child, grants, false)

/-- The loop of a put at the node of a depth; the link to the root is number 0. -/
def descend : Key → (grants : List Bool) → (depth : Nat) → (first : Option Nat) → Link ν → Descent ν
  | [], _, _, first, link => ⟨link, first, true⟩
  | _ :: _, _, _, first, .null => ⟨.null, first, false⟩
  | byte :: key, grants, depth, first, .node value child =>
    match ensureNode grants (child byte) with
    | none => ⟨.node value child, first, false⟩
    | some (next, grants, made) =>
      let first := if made then first.or (some (depth + 1)) else first
      (descend key grants (depth + 1) first next).below value child byte

/-- Takes the link of this number on the way of the key out of the trie. -/
def unlink : Nat → Key → Link ν → Link ν
  | depth + 1, byte :: key, .node value child =>
    .node value (Function.update child byte (unlink depth key (child byte)))
  | 0, _, _ => .null
  | _, _, link => link

def rollbackBranch (key : Key) (end_ : Descent ν) : Link ν :=
  match end_.first with
  | none => end_.link
  | some number => unlink number key end_.link

def storeValue (stored : ν) : Key → Link ν → Link ν
  | [], .node _ child => .node (some stored) child
  | byte :: key, .node value child =>
    .node value (Function.update child byte (storeValue stored key (child byte)))
  | _, .null => .null

variable (null : ν)

/-- The trie, whether the value was stored, and the value it takes the place of. -/
def finishPut (len : Nat) (key : Key) (value : ν) (end_ : Descent ν) : Trie ν × Bool × ν :=
  if end_.reached then
    let old := valueAt end_.link key
    (⟨storeValue value key end_.link, if old.isSome then len else len + 1⟩, true, old.getD null)
  else (⟨rollbackBranch key end_, len⟩, false, null)

def put (t : Trie ν) (key : Key) (value : ν) (grants : List Bool) : Trie ν × Bool × ν :=
  match ensureNode grants t.root with
  | none => (t, false, null)
  | some (root, grants, made) =>
    finishPut null t.len key value (descend key grants 0 (if made then some 0 else none) root)

def get (t : Trie ν) (key : Key) : ν := (valueAt t.root key).getD null

def contains (t : Trie ν) (key : Key) : Bool := (valueAt t.root key).isSome

def longestLoop : (text : Key) → Link ν → (index : Nat) → (best : ν) → (bestLen : Nat) → ν × Nat
  | byte :: text, .node _ child, index, best, bestLen =>
    match valueOf (child byte) with
    | some value => longestLoop text (child byte) (index + 1) value (index + 1)
    | none => longestLoop text (child byte) (index + 1) best bestLen
  | _, _, _, best, bestLen => (best, bestLen)

def longestPrefix (t : Trie ν) (text : Key) : ν × Nat :=
  longestLoop text t.root 0 ((valueOf t.root).getD null) 0

def allBytes : List UInt8 := (List.range 256).map UInt8.ofNat

def isNull : Link ν → Bool
  | .null => true
  | .node .. => false

def nodeHasChildren (child : UInt8 → Link ν) : Bool := allBytes.any fun byte => !isNull (child byte)

def pruneNode (value : Option ν) (child : UInt8 → Link ν) : Link ν :=
  if value.isNone && !nodeHasChildren child then .null else .node value child

/-- Erases below a link; the value removed is there when the length goes down. -/
def eraseRec : Key → Link ν → Link ν × Option ν
  | _, .null => (.null, none)
  | [], .node none child => (.node none child, none)
  | [], .node (some value) child => (pruneNode none child, some value)
  | byte :: key, .node value child =>
    let (below, removed) := eraseRec key (child byte)
    (pruneNode value (Function.update child byte below), removed)

def erase (t : Trie ν) (key : Key) : Trie ν × ν :=
  match t.root, key with
  | .null, _ => (t, null)
  | .node none _, [] => (t, null)
  | .node (some value) child, [] => (⟨.node none child, t.len - 1⟩, value)
  | .node value child, byte :: key =>
    let (below, removed) := eraseRec key (child byte)
    (⟨.node value (Function.update child byte below), t.len - removed.toList.length⟩,
      removed.getD null)

/-- Goes on unless a visitor has returned false. -/
def andThen (result : Bool × σ) (next : σ → Bool × σ) : Bool × σ :=
  match result with
  | (true, s) => next s
  | (false, s) => (false, s)

/-- Calls the visitor on one item after another until it returns false. -/
def walk {α : Type} (visit : α → σ → Bool × σ) : List α → σ → Bool × σ
  | [], s => (true, s)
  | item :: items, s => andThen (visit item s) (walk visit items)

def foreachRec (fn : Key → ν → σ → Bool × σ) : Link ν → (buf : Key) → σ → Bool × σ
  | .null, _, s => (true, s)
  | .node value child, buf, s =>
    andThen (walk (fn buf) value.toList s)
      (walk (fun byte => foreachRec fn (child byte) (buf ++ [byte])) allBytes)

/-- `granted` says whether the buffer of the key could be allocated. -/
def foreachPrefix (fn : Key → ν → σ → Bool × σ) (granted : Bool) (t : Trie ν) (start : Key) (s : σ)
    : Bool × σ :=
  match findNode t.root start with
  | .null => (true, s)
  | link => if granted then foreachRec fn link start s else (false, s)

inductive Op (ν : Type) where
  | put (key : Key) (value : ν) (grants : List Bool)
  | erase (key : Key)

/-- The trie after an operation, beside the map of the operations that succeeded. -/
def apply (pair : Trie ν × Table Key ν) : Op ν → Trie ν × Table Key ν
  | .put key value grants =>
    let (t, stored, _) := put null pair.1 key value grants
    (t, if stored then pair.2.insert key value else pair.2)
  | .erase key => ((erase null pair.1 key).1, pair.2.erase key)

def run (ops : List (Op ν)) : Trie ν × Table Key ν := ops.foldl (apply null) ({}, ∅)

-- Values and nodes

variable {link next new : Link ν} {child : UInt8 → Link ν} {value : ν} {held : Option ν} {byte : UInt8}
  {key : Key} {grants rest : List Bool} {made : Bool} {depth : Nat} {first : Option Nat}
  {t : Trie ν} {table : Table Key ν}

@[simp]
theorem valueAt_null (key : Key) : valueAt (.null : Link ν) key = none := by
  cases key <;> rfl

@[simp]
theorem valueAt_nil (value : Option ν) (child : UInt8 → Link ν)
    : valueAt (.node value child) [] = value :=
  rfl

@[simp]
theorem valueAt_cons (value : Option ν) (child : UInt8 → Link ν) (byte : UInt8) (key : Key)
    : valueAt (.node value child) (byte :: key) = valueAt (child byte) key :=
  rfl

theorem node_ne_null (value : Option ν) (child : UInt8 → Link ν)
    : Link.node value child ≠ .null := by
  intro same
  cases same

theorem valueAt_fresh (key : Key) : valueAt (fresh : Link ν) key = none := by
  cases key with
  | nil => rfl
  | cons byte key => exact valueAt_null key

theorem findNode_append (link : Link ν) (front key : Key)
    : findNode link (front ++ key) = findNode (findNode link front) key := by
  induction front generalizing link with
  | nil => rw [List.nil_append, findNode]
  | cons byte front ih =>
    cases link with
    | null => cases key <;> rfl
    | node value child => exact ih (child byte)

theorem values_below {stored : Option ν}
    (values : ∀ k, valueAt link k = if k = key then stored else valueAt (child byte) k)
    (held : Option ν) (k : Key)
    : valueAt (.node held (Function.update child byte link)) k
      = if k = byte :: key then stored else valueAt (.node held child) k := by
  cases k with
  | nil => simp
  | cons other k =>
    by_cases same : other = byte
    · subst same
      simp [values]
    · simp [same]

/-- The node holds a value or has a child. -/
def Alive : Link ν → Prop
  | .null => True
  | .node value child => value ≠ none ∨ ∃ byte, child byte ≠ .null

/-- No node below this one is without a value and without a child. -/
def Pruned : Link ν → Prop
  | .null => True
  | .node _ child => ∀ byte, Alive (child byte) ∧ Pruned (child byte)

theorem Pruned.update {value : Option ν} (pruned : Pruned (.node held child)) (alive : Alive link)
    (below : Pruned link) (byte : UInt8)
    : Pruned (.node value (Function.update child byte link)) := by
  intro other
  by_cases same : other = byte
  · subst same
    rw [Function.update_self]
    exact ⟨alive, below⟩
  · rw [Function.update_of_ne same]
    exact pruned other

theorem Pruned.find (pruned : Pruned link) (byte : UInt8) (key : Key)
    : Alive (findNode link (byte :: key)) := by
  induction key generalizing link byte with
  | nil =>
    cases link with
    | null => trivial
    | node value child =>
      rw [findNode, findNode]
      exact (pruned byte).1
  | cons next key ih =>
    cases link with
    | null => trivial
    | node value child => exact ih (pruned byte).2 next

-- Insertion

/-- The new link is the old one with a value stored for the key. -/
structure Stored (value : ν) (key : Key) (old new : Link ν) : Prop where
  values : ∀ k, valueAt new k = if k = key then some value else valueAt old k
  present : new ≠ .null
  alive : Alive new
  pruned : Pruned old → Pruned new

theorem Stored.below (stored : Stored value key (child byte) new) (held : Option ν)
    : Stored value (byte :: key) (.node held child)
        (.node held (Function.update child byte new)) where
  values := values_below stored.values held
  present := node_ne_null _ _
  alive := .inr ⟨byte, by rw [Function.update_self]; exact stored.present⟩
  pruned pruned := pruned.update stored.alive (stored.pruned (pruned byte).2) byte

theorem Stored.of_fresh (stored : Stored value key fresh new)
    : Stored value key .null new where
  values k := by rw [stored.values, valueAt_fresh, valueAt_null]
  present := stored.present
  alive := stored.alive
  pruned _ := stored.pruned fun _ => ⟨trivial, trivial⟩

theorem ensureNode_some (ensured : ensureNode grants link = some (next, rest, made))
    : (made = true ∧ link = .null ∧ next = fresh) ∨
      (made = false ∧ next = link ∧ ∃ value child, link = .node value child) := by
  cases link with
  | null =>
    simp only [ensureNode] at ensured
    split at ensured
    · cases ensured
      exact .inl ⟨rfl, rfl, rfl⟩
    · cases ensured
  | node value child =>
    cases ensured
    exact .inr ⟨rfl, rfl, value, child, rfl⟩

theorem ensureNode_values (ensured : ensureNode grants link = some (next, rest, made)) (key : Key)
    : valueAt next key = valueAt link key := by
  rcases ensureNode_some ensured with ⟨-, rfl, rfl⟩ | ⟨-, rfl, -⟩
  · rw [valueAt_fresh, valueAt_null]
  · rfl

theorem descend_values (key : Key) (grants : List Bool) (depth : Nat) (first : Option Nat)
    (link : Link ν) (k : Key)
    : valueAt (descend key grants depth first link).link k = valueAt link k := by
  induction key generalizing grants depth first link k with
  | nil => rfl
  | cons byte key ih =>
    cases link with
    | null => rfl
    | node held child =>
      rw [descend]
      split
      case h_1 => rfl
      case h_2 next rest made ensured =>
        cases k with
        | nil => rfl
        | cons other k =>
          by_cases same : other = byte
          · subst same
            simp only [Descent.below, valueAt_cons, Function.update_self]
            rw [ih, ensureNode_values ensured]
          · simp [Descent.below, same]

theorem descend_stored (value : ν) (present : link ≠ .null)
    (reached : (descend key grants depth first link).reached = true)
    : Stored value key link (storeValue value key (descend key grants depth first link).link) := by
  induction key generalizing grants depth first link with
  | nil =>
    cases link with
    | null => exact absurd rfl present
    | node held child =>
      refine ⟨fun k => ?_, (node_ne_null _ _), .inl (Option.some_ne_none _), id⟩
      cases k with
      | nil => rfl
      | cons byte k => simp [descend, storeValue]
  | cons byte key ih =>
    cases link with
    | null => exact absurd rfl present
    | node held child =>
      rw [descend] at reached ⊢
      split at reached
      case h_1 => cases reached
      case h_2 next rest made ensured =>
        simp only [Descent.below, storeValue, Function.update_self, Function.update_idem]
        apply Stored.below
        rcases ensureNode_some ensured with ⟨-, absent, rfl⟩ | ⟨-, rfl, held, child, node⟩
        · rw [absent]
          exact Stored.of_fresh (ih (node_ne_null _ _) reached)
        · exact ih (by rw [node]; exact node_ne_null _ _) reached

theorem descend_first (key : Key) (grants : List Bool) (depth number : Nat) (link : Link ν)
    : (descend key grants depth (some number) link).first = some number := by
  induction key generalizing grants depth link with
  | nil => rfl
  | cons byte key ih =>
    cases link with
    | null => rfl
    | node held child =>
      rw [descend]
      split
      · rfl
      · rw [Option.some_or, ite_self]
        exact ih _ _ _

theorem descend_refused (refused : (descend key grants depth none link).reached = false)
    : ((descend key grants depth none link).first = none ∧
        (descend key grants depth none link).link = link) ∨
      ∃ more, (descend key grants depth none link).first = some (depth + (more + 1)) ∧
        unlink (more + 1) key (descend key grants depth none link).link = link := by
  induction key generalizing grants depth link with
  | nil => cases refused
  | cons byte key ih =>
    cases link with
    | null => exact .inl ⟨rfl, rfl⟩
    | node held child =>
      rw [descend] at refused ⊢
      split
      case h_1 => exact .inl ⟨rfl, rfl⟩
      case h_2 next rest made ensured =>
        simp only [ensured] at refused
        rcases ensureNode_some ensured with ⟨rfl, absent, rfl⟩ | ⟨rfl, rfl, -⟩
        · refine .inr ⟨0, descend_first key rest (depth + 1) (depth + 1) fresh, ?_⟩
          rw [Descent.below, unlink, Function.update_idem, unlink, ← absent,
            Function.update_eq_self]
        · rcases ih refused with ⟨none, same⟩ | ⟨more, made, restored⟩
          · refine .inl ⟨none, ?_⟩
            rw [Descent.below, if_neg Bool.false_ne_true, same, Function.update_eq_self]
          · refine .inr ⟨more + 1, ?_, ?_⟩
            · rw [show depth + (more + 1 + 1) = depth + 1 + (more + 1) by omega]
              exact made
            · rw [Descent.below, if_neg Bool.false_ne_true, unlink, Function.update_self,
                Function.update_idem, restored, Function.update_eq_self]

theorem finishPut_refused {null : ν} {len : Nat} {end_ : Descent ν}
    (refused : (finishPut null len key value end_).2.1 = false)
    : end_.reached = false ∧
      (finishPut null len key value end_).1 = ⟨rollbackBranch key end_, len⟩ := by
  cases reached : end_.reached <;> simp_all [finishPut]

theorem finishPut_stored {null : ν} {len : Nat} {end_ : Descent ν}
    (stored : (finishPut null len key value end_).2.1 = true)
    : end_.reached = true ∧ finishPut null len key value end_
        = (⟨storeValue value key end_.link,
            if (valueAt end_.link key).isSome then len else len + 1⟩, true,
          (valueAt end_.link key).getD null) := by
  cases reached : end_.reached <;> simp_all [finishPut]

theorem put_refused (null : ν) (refused : (put null t key value grants).2.1 = false)
    : (put null t key value grants).1 = t := by
  obtain ⟨root, len⟩ := t
  rw [put] at refused ⊢
  split
  case h_1 => rfl
  case h_2 start rest made ensured =>
    simp only [ensured] at refused
    obtain ⟨stopped, result⟩ := finishPut_refused refused
    rw [result, rollbackBranch.eq_def]
    rcases ensureNode_some ensured with ⟨rfl, absent, rfl⟩ | ⟨rfl, rfl, -⟩
    · simp only [if_true, descend_first, unlink]
      exact congrArg (Trie.mk · len) absent.symm
    · rw [if_neg Bool.false_ne_true] at stopped ⊢
      rcases descend_refused stopped with ⟨none, same⟩ | ⟨more, first, restored⟩
      · simp only [none, same]
      · rw [Nat.zero_add] at first
        simp only [first, restored]

theorem put_stored (null : ν) (stored : (put null t key value grants).2.1 = true)
    : Stored value key t.root (put null t key value grants).1.root ∧
      (put null t key value grants).1.len
        = (if (valueAt t.root key).isSome then t.len else t.len + 1) ∧
      (put null t key value grants).2.2 = (valueAt t.root key).getD null := by
  rw [put] at stored ⊢
  split
  case h_1 none =>
    simp only [none] at stored
    cases stored
  case h_2 start rest made ensured =>
    simp only [ensured] at stored
    obtain ⟨reached, result⟩ := finishPut_stored stored
    rw [result, descend_values, ensureNode_values ensured]
    refine ⟨?_, rfl, rfl⟩
    rcases ensureNode_some ensured with ⟨-, absent, rfl⟩ | ⟨-, rfl, held, child, node⟩
    · rw [absent]
      exact Stored.of_fresh (descend_stored value (node_ne_null _ _) reached)
    · exact descend_stored value (by rw [node]; exact node_ne_null _ _) reached

-- Erasure

/-- The new link is the old one without the key. -/
structure Erased (key : Key) (old new : Link ν) : Prop where
  values : ∀ k, valueAt new k = if k = key then none else valueAt old k
  kept : Alive old → Pruned old → Alive new ∧ Pruned new

theorem mem_allBytes (byte : UInt8) : byte ∈ allBytes :=
  List.mem_map.mpr ⟨byte.toNat, List.mem_range.mpr byte.toNat_lt, UInt8.ofNat_toNat⟩

theorem nodeHasChildren_iff
    : nodeHasChildren child = true ↔ ∃ byte, child byte ≠ .null := by
  rw [nodeHasChildren, List.any_eq_true]
  constructor
  · rintro ⟨byte, -, present⟩
    refine ⟨byte, fun null => ?_⟩
    rw [null] at present
    cases present
  · rintro ⟨byte, present⟩
    refine ⟨byte, mem_allBytes byte, ?_⟩
    cases below : child byte with
    | null => exact absurd below present
    | node value child => rfl

theorem pruneNode_values (value : Option ν) (child : UInt8 → Link ν) (key : Key)
    : valueAt (pruneNode value child) key = valueAt (.node value child) key := by
  rw [pruneNode]
  split
  case isFalse => rfl
  case isTrue dead =>
    simp only [Bool.and_eq_true, Option.isNone_iff_eq_none, Bool.not_eq_true',
      Bool.eq_false_iff, ne_eq, nodeHasChildren_iff, not_exists, not_not] at dead
    cases key with
    | nil => rw [dead.1]; rfl
    | cons byte key => rw [valueAt_cons, dead.2 byte, valueAt_null, valueAt_null]

theorem pruneNode_kept {value : Option ν} (pruned : Pruned (.node value child))
    : Alive (pruneNode value child) ∧ Pruned (pruneNode value child) := by
  rw [pruneNode]
  split
  case isTrue => exact ⟨trivial, trivial⟩
  case isFalse live =>
    refine ⟨?_, pruned⟩
    by_contra dead
    simp only [Alive, not_or, not_not, ← nodeHasChildren_iff] at dead
    simp [dead] at live

theorem eraseRec_spec (key : Key) (link : Link ν)
    : Erased key link (eraseRec key link).1 ∧ (eraseRec key link).2 = valueAt link key := by
  induction key generalizing link with
  | nil =>
    cases link with
    | null => exact ⟨⟨fun k => by simp [eraseRec], fun _ _ => ⟨trivial, trivial⟩⟩, rfl⟩
    | node value child =>
      cases value with
      | none =>
        refine ⟨⟨fun k => ?_, fun alive pruned => ⟨alive, pruned⟩⟩, rfl⟩
        cases k <;> simp [eraseRec]
      | some value =>
        refine ⟨⟨fun k => ?_, fun _ pruned => pruneNode_kept pruned⟩, rfl⟩
        rw [eraseRec, pruneNode_values]
        cases k <;> simp
  | cons byte key ih =>
    cases link with
    | null => exact ⟨⟨fun k => by simp [eraseRec], fun _ _ => ⟨trivial, trivial⟩⟩, by simp [eraseRec]⟩
    | node value child =>
      obtain ⟨below, removed⟩ := ih (child byte)
      rw [eraseRec]
      refine ⟨⟨fun k => ?_, fun _ pruned => ?_⟩, removed⟩
      · rw [pruneNode_values]
        exact values_below below.values value k
      · obtain ⟨alive, rest⟩ := below.kept (pruned byte).1 (pruned byte).2
        exact pruneNode_kept (pruned.update alive rest byte)

theorem erase_spec (null : ν) (t : Trie ν) (key : Key)
    : (∀ k, valueAt (erase null t key).1.root k = if k = key then none else valueAt t.root k) ∧
      (Pruned t.root → Pruned (erase null t key).1.root) ∧
      (erase null t key).1.len = t.len - (valueAt t.root key).toList.length ∧
      (erase null t key).2 = (valueAt t.root key).getD null := by
  obtain ⟨root, len⟩ := t
  cases root with
  | null => exact ⟨fun k => by simp [erase], id, by simp [erase], by simp [erase]⟩
  | node value child =>
    cases key with
    | nil =>
      cases value with
      | none => exact ⟨fun k => by cases k <;> simp [erase], id, rfl, rfl⟩
      | some value => exact ⟨fun k => by cases k <;> simp [erase], id, rfl, rfl⟩
    | cons byte key =>
      obtain ⟨below, removed⟩ := eraseRec_spec key (child byte)
      simp only [erase, removed, valueAt_cons, and_true]
      refine ⟨values_below below.values value, fun pruned => ?_⟩
      obtain ⟨alive, rest⟩ := below.kept (pruned byte).1 (pruned byte).2
      exact pruned.update alive rest byte

-- The walk below a prefix

/-- The keys stored below a link with their values, in the order of their bytes. -/
def entries : Link ν → List (Key × ν)
  | .null => []
  | .node value child =>
    value.toList.map (fun value => ([], value)) ++
      allBytes.flatMap fun byte => (entries (child byte)).map fun entry => (byte :: entry.1, entry.2)

theorem mem_entries
    : (key, value) ∈ entries link ↔ valueAt link key = some value := by
  induction link generalizing key value with
  | null => simp [entries]
  | node held child ih => cases key <;> simp [entries, ih, mem_allBytes]

theorem allBytes_ascending : allBytes.Pairwise (· < ·) := by
  refine List.pairwise_map.mpr (List.pairwise_lt_range.imp_of_mem ?_)
  intro a b aByte bByte less
  rw [List.mem_range] at aByte bByte
  rw [UInt8.lt_iff_toNat_lt, UInt8.toNat_ofNat_of_lt' aByte, UInt8.toNat_ofNat_of_lt' bByte]
  exact less

theorem entries_ascending (link : Link ν)
    : (entries link).Pairwise fun a b => a.1 < b.1 := by
  induction link with
  | null => exact List.Pairwise.nil
  | node held child ih =>
    rw [entries, List.pairwise_append, List.pairwise_flatMap]
    refine ⟨?_, ⟨fun byte _ => ?_, allBytes_ascending.imp ?_⟩, ?_⟩
    · cases held <;> simp
    · refine List.pairwise_map.mpr ((ih byte).imp ?_)
      intro a b less
      exact List.cons_lt_cons_iff.mpr (.inr ⟨rfl, less⟩)
    · intro a b less x xIn y yIn
      obtain ⟨x, -, rfl⟩ := List.mem_map.mp xIn
      obtain ⟨y, -, rfl⟩ := List.mem_map.mp yIn
      exact List.cons_lt_cons_iff.mpr (.inl less)
    · intro a own b below
      obtain ⟨value, -, rfl⟩ := List.mem_map.mp own
      obtain ⟨byte, -, inside⟩ := List.mem_flatMap.mp below
      obtain ⟨entry, -, rfl⟩ := List.mem_map.mp inside
      exact List.nil_lt_cons _ _

section Walk

variable {α β : Type}

theorem walk_append (visit : α → σ → Bool × σ) (front back : List α) (s : σ)
    : walk visit (front ++ back) s = andThen (walk visit front s) (walk visit back) := by
  induction front generalizing s with
  | nil => rfl
  | cons item front ih =>
    rw [List.cons_append, walk, walk]
    obtain ⟨more, s⟩ := visit item s
    cases more with
    | false => rfl
    | true => exact ih s

theorem walk_map (visit : β → σ → Bool × σ) (f : α → β) (items : List α)
    : walk visit (items.map f) = walk (fun item => visit (f item)) items := by
  induction items with
  | nil => rfl
  | cons item items ih =>
    funext s
    rw [List.map_cons, walk, walk, ih]

theorem walk_flatMap (visit : β → σ → Bool × σ) (f : α → List β) (items : List α)
    : walk visit (items.flatMap f) = walk (fun item => walk visit (f item)) items := by
  induction items with
  | nil => rfl
  | cons item items ih =>
    funext s
    rw [List.flatMap_cons, walk_append, walk, ih]

end Walk

theorem foreachRec_eq (fn : Key → ν → σ → Bool × σ) (link : Link ν) (buf : Key)
    : foreachRec fn link buf
      = walk (fun entry => fn (buf ++ entry.1) entry.2) (entries link) := by
  induction link generalizing buf with
  | null => rfl
  | node held child ih =>
    funext s
    rw [foreachRec, entries, walk_append, walk_map, walk_flatMap]
    simp only [List.append_nil, walk_map, ih, List.append_assoc, List.singleton_append]

-- The longest prefix

theorem longestLoop_spec (text : Key) (link : Link ν) (index : Nat) (best : ν) (bestLen : Nat)
    : (longestLoop text link index best bestLen = (best, bestLen) ∧
        ∀ n, 0 < n → n ≤ text.length → valueAt link (text.take n) = none) ∨
      ∃ n value, n ≤ text.length ∧
        longestLoop text link index best bestLen = (value, index + n) ∧
        valueAt link (text.take n) = some value ∧
        ∀ m, n < m → m ≤ text.length → valueAt link (text.take m) = none := by
  induction text generalizing link index best bestLen with
  | nil => exact .inl ⟨rfl, fun n some none => absurd some (Nat.not_lt.mpr none)⟩
  | cons byte text ih =>
    cases link with
    | null => exact .inl ⟨rfl, fun n _ _ => valueAt_null _⟩
    | node held child =>
      have deeper : ∀ {low : Nat}, (∀ m, low < m → m ≤ text.length →
          valueAt (child byte) (text.take m) = none) → ∀ m, low + 1 < m → m ≤ text.length + 1 →
          valueAt (.node held child) ((byte :: text).take m) = none := by
        intro low none m above within
        obtain ⟨m, rfl⟩ : ∃ k, m = k + 1 := ⟨m - 1, by omega⟩
        exact none m (by omega) (by omega)
      rw [longestLoop]
      split
      case h_1 value here =>
        rcases ih (child byte) (index + 1) value (index + 1) with
          ⟨result, none⟩ | ⟨n, found, within, result, stored, none⟩
        · refine .inr ⟨1, value, by simp, result, ?_, deeper none⟩
          rw [List.take_succ_cons, List.take_zero, valueAt_cons, valueAt, findNode, here]
        · refine .inr ⟨n + 1, found, by simpa using within, ?_, stored, deeper none⟩
          rw [result, Nat.add_assoc, Nat.add_comm 1]
      case h_2 absent =>
        rcases ih (child byte) (index + 1) best bestLen with
          ⟨result, none⟩ | ⟨n, found, within, result, stored, none⟩
        · refine .inl ⟨result, fun n some within => ?_⟩
          obtain ⟨n, rfl⟩ : ∃ k, n = k + 1 := ⟨n - 1, by omega⟩
          cases n with
          | zero =>
            rw [List.take_succ_cons, List.take_zero, valueAt_cons, valueAt, findNode, absent]
          | succ n => exact none (n + 1) (by omega) (by simpa using within)
        · refine .inr ⟨n + 1, found, by simpa using within, ?_, stored, deeper none⟩
          rw [result, Nat.add_assoc, Nat.add_comm 1]

-- Runs

/-- The trie stores the rows of the map and counts them, and has no dead branch. -/
structure Refines (t : Trie ν) (table : Table Key ν) : Prop where
  values : ∀ key, valueAt t.root key = table.lookup key
  len : t.len = table.keys.card
  pruned : Pruned t.root

theorem Refines.apply (null : ν) {pair : Trie ν × Table Key ν} (refines : Refines pair.1 pair.2)
    (op : Op ν)
    : Refines (apply null pair op).1 (apply null pair op).2 := by
  obtain ⟨t, table⟩ := pair
  cases op with
  | put key value grants =>
    cases result : (put null t key value grants).2.1 with
    | false =>
      simp only [ZTrie.apply, result, put_refused null result]
      exact refines
    | true =>
      obtain ⟨stored, len, -⟩ := put_stored null result
      simp only [ZTrie.apply, result, if_true]
      refine ⟨fun k => ?_, ?_, stored.pruned refines.pruned⟩
      · rw [stored.values, lookup_insert_eq, refines.values]
      · rw [len, card_keys_insert, refines.values, refines.len]
  | erase key =>
    obtain ⟨values, pruned, len, -⟩ := erase_spec null t key
    refine ⟨fun k => ?_, ?_, pruned refines.pruned⟩
    · rw [ZTrie.apply, values, lookup_erase_eq, refines.values]
    · rw [ZTrie.apply, len, card_keys_erase, refines.values, refines.len]

theorem run_refines (null : ν) (ops : List (Op ν)) : Refines (run null ops).1 (run null ops).2 := by
  rw [run]
  induction ops using List.reverseRecOn with
  | nil => exact ⟨valueAt_null, rfl, trivial⟩
  | append_singleton ops op ih =>
    rw [List.foldl_append]
    exact ih.apply null op

/-- The stored prefix of the text that is the longest with its value, or nothing. -/
def IsLongestPrefix (null : ν) (table : Table Key ν) (text : Key) (found : ν × Nat) : Prop :=
  found.2 ≤ text.length ∧ found.1 = (table.lookup (text.take found.2)).getD null ∧
    (table.lookup (text.take found.2) = none → found.2 = 0) ∧
    ∀ m, found.2 < m → m ≤ text.length → table.lookup (text.take m) = none

/-- The walk calls the visitor on the stored keys with the prefix, each once and in ascending
order. -/
def VisitsInOrder (t : Trie ν) (table : Table Key ν) (start : Key) : Prop :=
  ∃ visited : List (Key × ν), visited.Pairwise (fun a b => a.1 < b.1) ∧
    (∀ key value, (key, value) ∈ visited ↔ start <+: key ∧ table.lookup key = some value) ∧
    ∀ {σ : Type} (fn : Key → ν → σ → Bool × σ) (s : σ),
      foreachPrefix fn true t start s = walk (fun entry => fn entry.1 entry.2) visited s

/-- Every operation answers as the map does, and a put that is refused leaves the trie as it
was. -/
structure Answers (null : ν) (t : Trie ν) (table : Table Key ν) : Prop where
  get : ∀ key, get null t key = (table.lookup key).getD null
  contains : ∀ key, contains t key = (table.lookup key).isSome
  len : t.len = table.keys.card
  longestPrefix : ∀ text, IsLongestPrefix null table text (longestPrefix null t text)
  erased : ∀ key, (erase null t key).2 = (table.lookup key).getD null
  replaced : ∀ key value grants, (put null t key value grants).2.1 = true →
    (put null t key value grants).2.2 = (table.lookup key).getD null
  refused : ∀ key value grants, (put null t key value grants).2.1 = false →
    (put null t key value grants).1 = t
  alive : ∀ byte key, Alive (findNode t.root (byte :: key))
  foreachPrefix : ∀ start, VisitsInOrder t table start

theorem Refines.longestPrefix (refines : Refines t table) (null : ν) (text : Key)
    : IsLongestPrefix null table text (longestPrefix null t text) := by
  simp only [IsLongestPrefix, ← refines.values, ZTrie.longestPrefix]
  rcases longestLoop_spec text t.root 0 ((valueOf t.root).getD null) 0 with
    ⟨result, none⟩ | ⟨n, value, within, result, stored, none⟩
  · rw [result]
    exact ⟨Nat.zero_le _, by simp [valueAt, findNode], fun _ => rfl, none⟩
  · rw [result, Nat.zero_add, stored]
    exact ⟨within, rfl, fun absent => absurd absent (Option.some_ne_none _), none⟩

theorem append_lt_append {front a b : Key} (less : a < b) : front ++ a < front ++ b := by
  induction front with
  | nil => exact less
  | cons byte front ih => exact List.cons_lt_cons_iff.mpr (.inr ⟨rfl, ih⟩)

theorem Refines.foreachPrefix (refines : Refines t table) (start : Key)
    : VisitsInOrder t table start := by
  refine ⟨(entries (findNode t.root start)).map fun entry => (start ++ entry.1, entry.2),
    ?_, fun key value => ?_, fun fn s => ?_⟩
  · exact List.pairwise_map.mpr ((entries_ascending _).imp append_lt_append)
  · rw [List.mem_map, ← refines.values]
    constructor
    · rintro ⟨entry, inside, same⟩
      cases same
      refine ⟨List.prefix_append _ _, ?_⟩
      rw [valueAt, findNode_append]
      exact mem_entries.mp inside
    · rintro ⟨⟨rest, rfl⟩, stored⟩
      rw [valueAt, findNode_append] at stored
      exact ⟨(rest, value), mem_entries.mpr stored, rfl⟩
  · rw [walk_map, ← foreachRec_eq, ZTrie.foreachPrefix]
    cases findNode t.root start <;> rfl

theorem run_answers (null : ν) (ops : List (Op ν))
    : Answers null (run null ops).1 (run null ops).2 := by
  have refines := run_refines null ops
  exact {
    get := fun key => by rw [ZTrie.get, refines.values]
    contains := fun key => by rw [ZTrie.contains, refines.values]
    len := refines.len
    longestPrefix := refines.longestPrefix null
    erased := fun key => by rw [(erase_spec null _ key).2.2.2, refines.values]
    replaced := fun key value grants stored => by
      rw [(put_stored null stored).2.2, refines.values]
    refused := fun key value grants refused => put_refused null refused
    alive := refines.pruned.find
    foreachPrefix := refines.foreachPrefix
  }

end

end Z23.Commons.ZTrie
