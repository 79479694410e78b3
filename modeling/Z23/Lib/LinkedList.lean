import Mathlib.Data.List.Nodup
import Mathlib.Logic.Function.Basic

/-!
Doubly linked lists in a heap of nodes. Every read and write goes through an address, and an
access to an address that holds no node fails. What the pointers spell is one list of cells.
-/

namespace Z23.Lib.LinkedList

variable {α σ : Type}

-- Nodes and pointers

abbrev Addr := Nat

structure Node (α : Type) where
  prev : Option Addr
  next : Option Addr
  item : α
deriving DecidableEq, Repr

/-- A heap of nodes and the two ends of one list in it; a freed address holds nothing. -/
structure Links (α : Type) where
  heap : Addr → Option (Node α)
  head : Option Addr
  tail : Option Addr

namespace Links

def empty : Links α := ⟨fun _ => none, none, none⟩

/-- Write through a pointer. -/
def write (l : Links α) (place : Addr) (change : Node α → Node α) : Option (Links α) :=
  (l.heap place).map fun node =>
    { l with heap := Function.update l.heap place (some (change node)) }

/-- The pointer that leads out of `prev`: its node's `next`, or the head of the list. -/
def setNextOf (l : Links α) (prev target : Option Addr) : Option (Links α) :=
  match prev with
  | some place => l.write place ({ · with next := target })
  | none => some { l with head := target }

/-- The pointer that leads back out of `next`: its node's `prev`, or the tail of the list. -/
def setPrevOf (l : Links α) (next target : Option Addr) : Option (Links α) :=
  match next with
  | some place => l.write place ({ · with prev := target })
  | none => some { l with tail := target }

def unlink (l : Links α) (place : Addr) : Option (Links α) := do
  let node ← l.heap place
  let l ← l.setNextOf node.prev node.next
  let l ← l.setPrevOf node.next node.prev
  l.write place ({ · with prev := none, next := none })

def pushHead (l : Links α) (place : Addr) : Option (Links α) := do
  let l ← l.write place ({ · with prev := none, next := l.head })
  let l ← l.setPrevOf l.head (some place)
  some { l with head := some place }

def setItem (l : Links α) (place : Addr) (item : α) : Option (Links α) :=
  l.write place ({ · with item := item })

def alloc (l : Links α) (place : Addr) (item : α) : Links α :=
  { l with heap := Function.update l.heap place (some ⟨none, none, item⟩) }

def free (l : Links α) (place : Addr) : Links α :=
  { l with heap := Function.update l.heap place none }

/-- Follow `next` while the visitor asks for more; `none` once the fuel runs out. -/
def walk (l : Links α) (visit : σ → α → Bool × σ) : Nat → Option Addr → σ → Option σ
  | _, none, ctx => some ctx
  | 0, some _, _ => none
  | fuel + 1, some place, ctx => do
    let node ← l.heap place
    let (more, ctx) := visit ctx node.item
    if more then walk l visit fuel node.next ctx else some ctx

end Links

/-- The visitor's calls on a list of items, up to its first refusal. -/
def visitList (visit : σ → α → Bool × σ) : σ → List α → σ
  | ctx, [] => ctx
  | ctx, item :: rest =>
    if (visit ctx item).1 then visitList visit (visit ctx item).2 rest else (visit ctx item).2

-- Segments

/-- The address a pointer to the cells holds, `next` when there are none. -/
def firstOr : List (Addr × α) → Option Addr → Option Addr
  | [], next => next
  | (place, _) :: _, _ => some place

/-- The address a pointer back to the cells holds, `prev` when there are none. -/
def lastOr : Option Addr → List (Addr × α) → Option Addr
  | prev, [] => prev
  | _, (place, _) :: rest => lastOr (some place) rest

/-- The heap spells the cells between `prev` and `next`. -/
def Seg (heap : Addr → Option (Node α)) : Option Addr → List (Addr × α) → Option Addr → Prop
  | _, [], _ => True
  | prev, (place, item) :: rest, next =>
    heap place = some ⟨prev, firstOr rest next, item⟩ ∧ Seg heap (some place) rest next

variable {heap heap' : Addr → Option (Node α)} {prev next : Option Addr}
variable {cells before after : List (Addr × α)} {place : Addr} {item : α} {l : Links α}

theorem firstOr_append
    : firstOr (before ++ after) next = firstOr before (firstOr after next) := by
  cases before with
  | nil => rfl
  | cons cell rest => rfl

theorem lastOr_append : lastOr prev (before ++ after) = lastOr (lastOr prev before) after := by
  induction before generalizing prev with
  | nil => rfl
  | cons cell rest ih => exact ih

theorem seg_append
    : Seg heap prev (before ++ after) next
        ↔ Seg heap prev before (firstOr after next) ∧ Seg heap (lastOr prev before) after next := by
  induction before generalizing prev with
  | nil => exact (and_iff_right trivial).symm
  | cons cell rest ih =>
    obtain ⟨place, item⟩ := cell
    rw [List.cons_append, Seg, ih, Seg, firstOr_append, and_assoc]
    rfl

/-- A segment depends on the heap at its own addresses only. -/
theorem Seg.congr (seg : Seg heap prev cells next)
    (same : ∀ place ∈ cells.map Prod.fst, heap' place = heap place)
    : Seg heap' prev cells next := by
  induction cells generalizing prev with
  | nil => trivial
  | cons cell rest ih =>
    obtain ⟨place, item⟩ := cell
    rw [List.map_cons, List.forall_mem_cons] at same
    exact ⟨same.1.trans seg.1, ih seg.2 same.2⟩

-- Redirecting one pointer

theorem write_eq {node : Node α} (here : l.heap place = some node) (change : Node α → Node α)
    : l.write place change
        = some { l with heap := Function.update l.heap place (some (change node)) } := by
  rw [Links.write, here]
  rfl

theorem setNextOf_spec (seg : Seg l.heap none before next) (head : l.head = firstOr before next)
    (once : (before.map Prod.fst).Nodup) (target : Option Addr)
    : ∃ l', l.setNextOf (lastOr none before) target = some l' ∧ Seg l'.heap none before target
        ∧ l'.head = firstOr before target ∧ l'.tail = l.tail
        ∧ ∀ other ∉ before.map Prod.fst, l'.heap other = l.heap other := by
  rcases List.eq_nil_or_concat' before with rfl | ⟨front, ⟨place, item⟩, rfl⟩
  · exact ⟨_, rfl, trivial, rfl, rfl, fun _ _ => rfl⟩
  · rw [seg_append] at seg
    rw [List.map_append, List.nodup_append] at once
    have here : l.heap place = some ⟨lastOr none front, next, item⟩ := seg.2.1
    rw [lastOr_append]
    refine ⟨_, write_eq here _, ?_, ?_, rfl, ?_⟩
    · refine seg_append.mpr ⟨seg.1.congr ?_, Function.update_self _ _ _, trivial⟩
      intro other member
      exact Function.update_of_ne (once.2.2 other member place List.mem_cons_self) _ _
    · exact head.trans (by cases front <;> rfl)
    · intro other outside
      refine Function.update_of_ne ?_ _ _
      rintro rfl
      exact outside (by simp)

theorem setPrevOf_spec (seg : Seg l.heap prev after none) (tail : l.tail = lastOr prev after)
    (once : (after.map Prod.fst).Nodup) (target : Option Addr)
    : ∃ l', l.setPrevOf (firstOr after none) target = some l' ∧ Seg l'.heap target after none
        ∧ l'.tail = lastOr target after ∧ l'.head = l.head
        ∧ ∀ other ∉ after.map Prod.fst, l'.heap other = l.heap other := by
  cases after with
  | nil => exact ⟨_, rfl, trivial, rfl, rfl, fun _ _ => rfl⟩
  | cons cell rest =>
    obtain ⟨place, item⟩ := cell
    rw [List.map_cons, List.nodup_cons] at once
    refine ⟨_, write_eq seg.1 _, ⟨Function.update_self _ _ _, seg.2.congr ?_⟩, tail, rfl, ?_⟩
    · intro other member
      refine Function.update_of_ne ?_ _ _
      rintro rfl
      exact once.1 member
    · intro other outside
      refine Function.update_of_ne ?_ _ _
      rintro rfl
      exact outside List.mem_cons_self

-- Addresses in use

/-- No node comes or goes. -/
def Links.SameNodes (l l' : Links α) : Prop := ∀ place, l'.heap place = none ↔ l.heap place = none

variable {l' l'' : Links α}

theorem Links.SameNodes.trans (first : l.SameNodes l') (second : l'.SameNodes l'')
    : l.SameNodes l'' :=
  fun place => (second place).trans (first place)

theorem write_sameNodes {change : Node α → Node α} (done : l.write place change = some l')
    : l.SameNodes l' := by
  obtain ⟨node, here, rfl⟩ := Option.map_eq_some_iff.mp done
  intro other
  dsimp only
  by_cases same : other = place
  · subst same
    rw [Function.update_self, here]
    simp
  · rw [Function.update_of_ne same]

theorem setNextOf_sameNodes {target : Option Addr} (done : l.setNextOf prev target = some l')
    : l.SameNodes l' := by
  cases prev with
  | none =>
    cases done
    exact fun _ => Iff.rfl
  | some place => exact write_sameNodes done

theorem setPrevOf_sameNodes {target : Option Addr} (done : l.setPrevOf next target = some l')
    : l.SameNodes l' := by
  cases next with
  | none =>
    cases done
    exact fun _ => Iff.rfl
  | some place => exact write_sameNodes done

theorem unlink_sameNodes (done : l.unlink place = some l') : l.SameNodes l' := by
  simp only [Links.unlink, Option.bind_eq_bind, Option.bind_eq_some_iff] at done
  obtain ⟨node, -, l₁, first, l₂, second, third⟩ := done
  exact ((setNextOf_sameNodes first).trans (setPrevOf_sameNodes second)).trans
    (write_sameNodes third)

theorem pushHead_sameNodes (done : l.pushHead place = some l') : l.SameNodes l' := by
  simp only [Links.pushHead, Option.bind_eq_bind, Option.bind_eq_some_iff] at done
  obtain ⟨l₁, first, l₂, second, third⟩ := done
  have both := (write_sameNodes first).trans (setPrevOf_sameNodes second)
  cases third
  exact both

theorem setItem_sameNodes (done : l.setItem place item = some l') : l.SameNodes l' :=
  write_sameNodes done

theorem free_none {other : Addr} (dead : l.heap other = none)
    : (l.free place).heap other = none := by
  rw [Links.free]
  by_cases same : other = place
  · rw [same]
    exact Function.update_self _ _ _
  · exact (Function.update_of_ne same _ _).trans dead

theorem alloc_none {other : Addr} (dead : l.heap other = none) (differs : other ≠ place)
    : (l.alloc place item).heap other = none :=
  (Function.update_of_ne differs _ _).trans dead

/-- Freeing what was just allocated gives the heap back. -/
theorem free_alloc (dead : l.heap place = none) : (l.alloc place item).free place = l := by
  rw [Links.free, Links.alloc, Function.update_idem, ← dead, Function.update_eq_self]

-- Whole lists

/-- The pointers spell exactly these cells, from head to tail. -/
structure Linked (l : Links α) (cells : List (Addr × α)) : Prop where
  once : (cells.map Prod.fst).Nodup
  head : l.head = firstOr cells none
  tail : l.tail = lastOr none cells
  seg : Seg l.heap none cells none

theorem linked_empty : Linked (Links.empty : Links α) [] where
  once := List.nodup_nil
  head := rfl
  tail := rfl
  seg := trivial

theorem Linked.node (linked : Linked l (before ++ (place, item) :: after))
    : l.heap place = some ⟨lastOr none before, firstOr after none, item⟩ :=
  (seg_append.mp linked.seg).2.1

theorem Linked.congr (linked : Linked l cells) (head : l'.head = l.head)
    (tail : l'.tail = l.tail) (same : ∀ place ∈ cells.map Prod.fst, l'.heap place = l.heap place)
    : Linked l' cells where
  once := linked.once
  head := head.trans linked.head
  tail := tail.trans linked.tail
  seg := linked.seg.congr same

/-- Taking a cell out joins what stood around it. -/
theorem Linked.unlink (linked : Linked l (before ++ (place, item) :: after))
    : ∃ l', l.unlink place = some l' ∧ Linked l' (before ++ after)
        ∧ l'.heap place = some ⟨none, none, item⟩ := by
  have here := linked.node
  obtain ⟨front, middle⟩ := seg_append.mp linked.seg
  have once := linked.once
  rw [List.map_append, List.map_cons, List.nodup_append, List.nodup_cons] at once
  obtain ⟨onceBefore, ⟨placeAfter, onceAfter⟩, separate⟩ := once
  have placeBefore : place ∉ before.map Prod.fst := fun member =>
    separate place member place List.mem_cons_self rfl
  have apart : ∀ other ∈ after.map Prod.fst, other ∉ before.map Prod.fst := fun other member prior =>
    separate other prior other (List.mem_cons_of_mem _ member) rfl
  have headed : l.head = firstOr before (some place) := linked.head.trans firstOr_append
  have tailed : l.tail = lastOr (some place) after := linked.tail.trans lastOr_append
  obtain ⟨l₁, step₁, seg₁, head₁, tail₁, frame₁⟩ :=
    setNextOf_spec front headed onceBefore (firstOr after none)
  have behind : Seg l₁.heap (some place) after none :=
    middle.2.congr fun other member => frame₁ other (apart other member)
  obtain ⟨l₂, step₂, seg₂, tail₂, head₂, frame₂⟩ :=
    setPrevOf_spec behind (tail₁.trans tailed) onceAfter (lastOr none before)
  have here₂ : l₂.heap place = some ⟨lastOr none before, firstOr after none, item⟩ := by
    rw [frame₂ place placeAfter, frame₁ place placeBefore, here]
  have apart₂ : ∀ other ∈ before.map Prod.fst, l₂.heap other = l₁.heap other := fun other member =>
    frame₂ other fun later => apart other later member
  have joined : Linked l₂ (before ++ after) := {
    once := by
      rw [List.map_append, List.nodup_append]
      exact ⟨onceBefore, onceAfter, fun a member b later same =>
        apart b later (same ▸ member)⟩
    head := by rw [head₂, head₁, firstOr_append]
    tail := by rw [tail₂, lastOr_append]
    seg := seg_append.mpr ⟨seg₁.congr apart₂, seg₂⟩
  }
  have step₃ := write_eq here₂ ({ · with prev := none, next := none })
  refine ⟨{ l₂ with heap := Function.update l₂.heap place (some ⟨none, none, item⟩) }, ?_,
    joined.congr rfl rfl ?_, Function.update_self _ _ _⟩
  · simp only [Links.unlink, here, step₁, step₂, Option.bind_eq_bind, Option.bind_some]
    exact step₃
  · intro other member
    refine Function.update_of_ne ?_ _ _
    rintro rfl
    rw [List.map_append, List.mem_append] at member
    exact member.elim placeBefore placeAfter

/-- A node outside the list becomes its first cell. -/
theorem Linked.pushHead {node : Node α} (linked : Linked l cells) (here : l.heap place = some node)
    (outside : place ∉ cells.map Prod.fst)
    : ∃ l', l.pushHead place = some l' ∧ Linked l' ((place, node.item) :: cells) := by
  have step₁ := write_eq here ({ · with prev := none, next := l.head })
  have linked₁ : Linked
      { l with
        heap := Function.update l.heap place (some { node with prev := none, next := l.head }) }
      cells :=
    linked.congr rfl rfl fun other member =>
      Function.update_of_ne (by rintro rfl; exact outside member) _ _
  obtain ⟨l₂, step₂, seg₂, tail₂, -, frame₂⟩ :=
    setPrevOf_spec linked₁.seg linked₁.tail linked₁.once (some place)
  rw [← linked₁.head] at step₂
  have here₂ := (frame₂ place outside).trans (Function.update_self _ _ _)
  refine ⟨{ l₂ with head := some place }, ?_, ?_⟩
  · simp only [Links.pushHead, step₁, step₂, Option.bind_eq_bind, Option.bind_some]
  · exact {
      once := by
        rw [List.map_cons, List.nodup_cons]
        exact ⟨outside, linked.once⟩
      head := rfl
      tail := tail₂
      seg := ⟨by rw [here₂, linked.head], seg₂⟩
    }

/-- Unlinking and pushing moves a cell to the front. -/
theorem Linked.promote (linked : Linked l (before ++ (place, item) :: after))
    : ∃ l₁ l₂, l.unlink place = some l₁ ∧ l₁.pushHead place = some l₂
        ∧ Linked l₂ ((place, item) :: (before ++ after)) := by
  obtain ⟨l₁, taken, rest, here⟩ := linked.unlink
  have once := linked.once
  rw [List.map_append, List.map_cons, List.nodup_middle, List.nodup_cons, ← List.map_append] at once
  obtain ⟨l₂, pushed, whole⟩ := rest.pushHead here once.1
  exact ⟨l₁, l₂, taken, pushed, whole⟩

theorem Linked.setItem (linked : Linked l (before ++ (place, item) :: after)) (new : α)
    : ∃ l', l.setItem place new = some l' ∧ Linked l' (before ++ (place, new) :: after) := by
  obtain ⟨front, here, behind⟩ := seg_append.mp linked.seg
  have once := linked.once
  rw [List.map_append, List.map_cons, List.nodup_middle, List.nodup_cons, ← List.map_append] at once
  have frame : ∀ other ∈ (before ++ after).map Prod.fst,
      Function.update l.heap place (some ⟨lastOr none before, firstOr after none, new⟩) other
        = l.heap other := by
    intro other member
    refine Function.update_of_ne ?_ _ _
    rintro rfl
    exact once.1 member
  refine ⟨_, write_eq here _, ?_⟩
  exact {
    once := by simpa using linked.once
    head := linked.head.trans (by rw [firstOr_append, firstOr_append]; rfl)
    tail := linked.tail.trans (by rw [lastOr_append, lastOr_append]; rfl)
    seg := by
      refine seg_append.mpr ⟨front.congr ?_, Function.update_self _ _ _, behind.congr ?_⟩
      · exact fun other member => frame other (by simp at member ⊢; exact .inl member)
      · exact fun other member => frame other (by simp at member ⊢; exact .inr member)
  }

/-- Nothing outside the list matters to it. -/
theorem Linked.free (linked : Linked l cells) (outside : place ∉ cells.map Prod.fst)
    : Linked (l.free place) cells :=
  linked.congr rfl rfl fun other member =>
    Function.update_of_ne (by rintro rfl; exact outside member) _ _

theorem Linked.alloc (linked : Linked l cells) (outside : place ∉ cells.map Prod.fst) (item : α)
    : Linked (l.alloc place item) cells :=
  linked.congr rfl rfl fun other member =>
    Function.update_of_ne (by rintro rfl; exact outside member) _ _

/-- With fuel for the cells, the walk calls the visitor on them from head to tail. -/
theorem Seg.walk (seg : Seg l.heap prev cells none) (visit : σ → α → Bool × σ) {fuel : Nat}
    (enough : cells.length ≤ fuel) (ctx : σ)
    : l.walk visit fuel (firstOr cells none) ctx
        = some (visitList visit ctx (cells.map Prod.snd)) := by
  induction cells generalizing prev fuel ctx with
  | nil =>
    cases fuel with
    | zero => rfl
    | succ fuel => rfl
  | cons cell rest ih =>
    obtain ⟨place, item⟩ := cell
    cases fuel with
    | zero => cases enough
    | succ fuel =>
      have later := ih seg.2 (Nat.le_of_succ_le_succ enough) (visit ctx item).2
      simp only [firstOr, Links.walk, seg.1, Option.bind_eq_bind, Option.bind_some,
        List.map_cons, visitList]
      split
      · exact later
      · rfl

end Z23.Lib.LinkedList
