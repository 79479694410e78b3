import Z23.Commons.ZMap
import Z23.Lib.LinkedList
import Z23.Lib.Recency

/-!
The bounded cache: a map from keys to nodes and a doubly linked list of the nodes in order of
use. Both structures hold the same keys after every call, whatever the allocator refuses.
-/

namespace Z23.Commons

open Z23.Lib
open Z23.Lib.LinkedList

-- The cache

variable {ν σ : Type}

/-- A value is a pointer, `none` for null. A node owns its key. -/
abbrev Item (ν : Type) := Key × Option ν

/-- `destroyed` records the destructor's calls, when the cache has one. -/
structure ZLru (ν : Type) where
  map : ZMap Addr
  links : Links (Item ν)
  size : Nat
  capacity : Nat
  dtor : Bool
  destroyed : List (Item ν)
  /-- No node stands at this address or above it. -/
  fresh : Addr

/-- Which allocations of a creation succeed. -/
structure CreateGrants where
  cache : Bool
  map : Bool
  slots : Bool
deriving DecidableEq, Repr

/-- Which allocations of a put succeed: the node, its key, and those of the map. -/
structure PutGrants where
  node : Bool
  nodeKey : Bool
  map : MapGrants
deriving DecidableEq, Repr

namespace ZLru

def create (capacity : Nat) (dtor : Bool) (grants : CreateGrants) : Option (ZLru ν) :=
  if capacity = 0 then none
  else if !grants.cache then none
  else if !(grants.map && grants.slots) then none
  else
    some
      { map := ZMap.create
        links := Links.empty
        size := 0
        capacity
        dtor
        destroyed := []
        fresh := 0 }

def runDtor (c : ZLru ν) (item : Item ν) : ZLru ν :=
  if c.dtor then { c with destroyed := c.destroyed ++ [item] } else c

/-- The outer `none` is a call that does not return or follows a dead pointer. -/
def get (c : ZLru ν) : Option Key → Option (ZLru ν × Option ν)
  | none => some (c, none)
  | some key => do
    match ← c.map.get zmapHashFnv1a key with
    | none => some (c, none)
    | some n =>
      let links ← c.links.unlink n
      let links ← links.pushHead n
      let node ← links.heap n
      some ({ c with links }, node.item.2)

/-- The end of a node's life: out of the list, destructor, free. -/
def dropNode (c : ZLru ν) (n : Addr) : Option (ZLru ν) := do
  let links ← c.links.unlink n
  let node ← links.heap n
  let c := runDtor { c with links } node.item
  some { c with links := c.links.free n, size := c.size - 1 }

def evictTail (c : ZLru ν) : Option (ZLru ν) := do
  let victim ← c.links.tail
  let node ← c.links.heap victim
  let (map, _) ← c.map.erase zmapHashFnv1a node.item.1
  dropNode { c with map } victim

def put (c : ZLru ν) (key : Option Key) (value : Option ν) (grants : PutGrants)
    : Option (ZLru ν × Bool) :=
  match key with
  | none => some (c, false)
  | some key => do
    match ← c.map.get zmapHashFnv1a key with
    | some n =>
      let node ← c.links.heap n
      let c := c.runDtor node.item
      let links ← c.links.setItem n (node.item.1, value)
      let links ← links.unlink n
      let links ← links.pushHead n
      some ({ c with links }, true)
    | none =>
      if !(grants.node && grants.nodeKey) then some (c, false)
      else
        let n := c.fresh
        let links := c.links.alloc n (key, value)
        let (map, stored, _) ← c.map.put zmapHashFnv1a key n grants.map
        if stored then
          let links ← links.pushHead n
          let c := { c with map, links, size := c.size + 1, fresh := n + 1 }
          let c ← if c.size > c.capacity then c.evictTail else some c
          some (c, true)
        else some ({ c with map, links := links.free n }, false)

def erase (c : ZLru ν) : Option Key → Option (ZLru ν)
  | none => some c
  | some key => do
    match ← c.map.erase zmapHashFnv1a key with
    | (_, none) => some c
    | (map, some n) => dropNode { c with map } n

/-- The nodes from the most recently used on, until the callback refuses. -/
def visitMruFirst (c : ZLru ν) (visit : σ → Item ν → Bool × σ) (fuel : Nat) (ctx : σ)
    : Option σ :=
  c.links.walk visit fuel c.links.head ctx

end ZLru

-- Calls and what they are to answer

inductive Call (ν : Type) where
  | put (key : Option Key) (value : Option ν) (grants : PutGrants)
  | get (key : Option Key)
  | erase (key : Option Key)

inductive Reply (ν : Type) where
  | stored (ok : Bool)
  | found (value : Option ν)
  | erased
deriving DecidableEq, Repr

namespace ZLru

def serve (c : ZLru ν) : Call ν → Option (ZLru ν × Reply ν)
  | .put key value grants => (c.put key value grants).map fun (c, ok) => (c, .stored ok)
  | .get key => (c.get key).map fun (c, value) => (c, .found value)
  | .erase key => (c.erase key).map fun c => (c, .erased)

def run (c : ZLru ν) : List (Call ν) → Option (ZLru ν × List (Reply ν))
  | [] => some (c, [])
  | call :: calls => do
    let (c, reply) ← c.serve call
    let (c, replies) ← run c calls
    some (c, reply :: replies)

end ZLru

/-- Every allocation succeeds, and the map may still grow past `count` keys. -/
def PutGrants.Ample (grants : PutGrants) (count : Nat) : Prop :=
  grants.node ∧ grants.nodeKey ∧ grants.map.keyCopy ∧ grants.map.slots
    ∧ (count + 1) * 4 < zmapMaxCap * 3

variable {capacity : Nat}

/-- One call on the most recently used keys: its answer, the keys afterwards, and the values that
leave. A put may be refused only for a new key, when something it needs is not granted. -/
inductive Serves (r : Recency capacity Key (Option ν))
    : Call ν → Reply ν → Recency capacity Key (Option ν) → List (Item ν) → Prop
  | put (key value grants)
    : Serves r (.put (some key) value grants) (.stored true) (r.use key value)
        (r.displaced key value)
  | refuse (key value grants) (new : r.find key = none)
    (short : ¬ PutGrants.Ample grants r.entries.length)
    : Serves r (.put (some key) value grants) (.stored false) r []
  | hit (key value) (known : r.find key = some value)
    : Serves r (.get (some key)) (.found value) (r.use key value) []
  | miss (key) (unknown : r.find key = none) : Serves r (.get (some key)) (.found none) r []
  | erase (key) : Serves r (.erase (some key)) .erased (r.forget key) (Recency.own key r.entries)
  | putNull (value grants) : Serves r (.put none value grants) (.stored false) r []
  | getNull : Serves r (.get none) (.found none) r []
  | eraseNull : Serves r (.erase none) .erased r []

/-- A run of calls, with everything that left on the way in order. -/
inductive ServesAll
    : Recency capacity Key (Option ν) → List (Call ν) → List (Reply ν)
      → Recency capacity Key (Option ν) → List (Item ν) → Prop
  | nil (r) : ServesAll r [] [] r []
  | cons {r r' r'' call reply calls replies left left'} (first : Serves r call reply r' left)
    (others : ServesAll r' calls replies r'' left')
    : ServesAll r (call :: calls) (reply :: replies) r'' (left ++ left')

-- The two structures of a cache

/-- What the map is to hold for the cells of the list: the address of every key's node. -/
def nodeRows (cells : List (Addr × Item ν)) : List (Key × Addr) :=
  cells.map fun cell => (cell.2.1, cell.1)

/-- The list spells the cells, the map leads to them, and `left` is what the destructor has
seen. -/
structure ZLru.Caches (capacity : Nat) (dtor : Bool) (c : ZLru ν) (cells : List (Addr × Item ν))
    (left : List (Item ν))
    : Prop where
  linked : Linked c.links cells
  mapped : c.map.Keeps zmapHashFnv1a (nodeRows cells)
  size : c.size = cells.length
  unused : ∀ n, c.fresh ≤ n → c.links.heap n = none
  limit : c.capacity = capacity
  hooked : c.dtor = dtor
  destroyed : c.destroyed = if dtor then left else []

namespace ZLru

variable {c : ZLru ν} {cells before after : List (Addr × Item ν)} {left : List (Item ν)}
variable {dtor : Bool} {n : Addr} {key : Key} {value : Option ν} {item : Item ν}

theorem mem_nodeRows : (key, n) ∈ nodeRows cells ↔ ∃ value, (n, (key, value)) ∈ cells := by
  rw [nodeRows, List.mem_map]
  constructor
  · intro found
    obtain ⟨⟨place, stored, value⟩, member, same⟩ := found
    cases same
    exact ⟨value, member⟩
  · intro found
    obtain ⟨value, member⟩ := found
    exact ⟨_, member, rfl⟩

theorem absent_nodeRows (absent : key ∉ (cells.map Prod.snd).map Prod.fst) (n : Addr)
    : (key, n) ∉ nodeRows cells := by
  intro member
  obtain ⟨value, held⟩ := mem_nodeRows.mp member
  exact absent (List.mem_map.mpr ⟨_, List.mem_map.mpr ⟨_, held, rfl⟩, rfl⟩)

theorem nodeRows_middle
    : (nodeRows (before ++ (n, (key, value)) :: after)).Perm
        ((key, n) :: nodeRows (before ++ after)) := by
  rw [nodeRows, nodeRows, List.map_append, List.map_cons, List.map_append]
  exact List.perm_middle

theorem create_caches {grants : CreateGrants} (made : create capacity dtor grants = some c)
    : 0 < capacity ∧ c.Caches capacity dtor [] [] := by
  rw [create] at made
  split at made
  · cases made
  · rename_i positive
    split at made
    · cases made
    · split at made
      · cases made
      · cases made
        refine ⟨Nat.pos_of_ne_zero positive, ?_⟩
        exact {
          linked := linked_empty
          mapped := ZMap.create_keeps
          size := rfl
          unused := fun _ _ => rfl
          limit := rfl
          hooked := rfl
          destroyed := by split <;> rfl
        }

theorem runDtor_eq (hooked : c.dtor = dtor) (log : c.destroyed = if dtor then left else [])
    (item : Item ν)
    : c.runDtor item = { c with destroyed := if dtor then left ++ [item] else [] } := by
  rcases c with ⟨map, links, size, capacity, hook, seen, fresh⟩
  obtain rfl : hook = dtor := hooked
  obtain rfl : seen = if hook then left else [] := log
  cases hook with
  | true => rfl
  | false => rfl

theorem Caches.addr_lt (caches : c.Caches capacity dtor cells left) (held : n ∈ cells.map Prod.fst)
    : n < c.fresh := by
  by_contra beyond
  obtain ⟨⟨place, item⟩, member, same⟩ := List.mem_map.mp held
  cases same
  obtain ⟨before, after, split⟩ := List.append_of_mem member
  have linked := caches.linked
  rw [split] at linked
  have here := linked.node
  rw [caches.unused place (Nat.not_lt.mp beyond)] at here
  cases here

theorem Caches.map_get_held
    (caches : c.Caches capacity dtor (before ++ (n, (key, value)) :: after) left)
    : c.map.get zmapHashFnv1a key = some (some n) := by
  apply caches.mapped.get_held
  exact mem_nodeRows.mpr ⟨value, List.mem_append_right _ List.mem_cons_self⟩

theorem Caches.map_get_absent (caches : c.Caches capacity dtor cells left)
    (absent : key ∉ (cells.map Prod.snd).map Prod.fst)
    : c.map.get zmapHashFnv1a key = some none :=
  caches.mapped.get_absent (absent_nodeRows absent)

-- Lookups

theorem Caches.get_held
    (caches : c.Caches capacity dtor (before ++ (n, (key, value)) :: after) left)
    : ∃ c', c.get (some key) = some (c', value)
        ∧ c'.Caches capacity dtor ((n, (key, value)) :: (before ++ after)) left := by
  obtain ⟨l₁, l₂, taken, pushed, linked⟩ := caches.linked.promote
  have here : l₂.heap n = some ⟨none, firstOr (before ++ after) none, (key, value)⟩ := linked.seg.1
  have frame := (unlink_sameNodes taken).trans (pushHead_sameNodes pushed)
  refine ⟨{ c with links := l₂ }, ?_, ?_⟩
  · simp only [get, caches.map_get_held, taken, pushed, here, Option.bind_eq_bind, Option.bind_some]
  · exact {
      linked := linked
      mapped := caches.mapped.perm nodeRows_middle
      size := caches.size.trans List.perm_middle.length_eq
      unused := fun other beyond => (frame other).mpr (caches.unused other beyond)
      limit := caches.limit
      hooked := caches.hooked
      destroyed := caches.destroyed
    }

theorem Caches.get_absent (caches : c.Caches capacity dtor cells left)
    (absent : key ∉ (cells.map Prod.snd).map Prod.fst)
    : c.get (some key) = some (c, none) := by
  simp only [get, caches.map_get_absent absent, Option.bind_eq_bind, Option.bind_some]

-- Removal

theorem Caches.dropNode {map : ZMap Addr}
    (caches : c.Caches capacity dtor (before ++ (n, item) :: after) left)
    (mapped : map.Keeps zmapHashFnv1a (nodeRows (before ++ after)))
    : ∃ c', ({ c with map } : ZLru ν).dropNode n = some c'
        ∧ c'.Caches capacity dtor (before ++ after) (left ++ [item]) := by
  obtain ⟨links, taken, linked, here⟩ := caches.linked.unlink
  have frame := unlink_sameNodes taken
  have outside : n ∉ (before ++ after).map Prod.fst := by
    have once := caches.linked.once
    rw [List.map_append, List.map_cons, List.nodup_middle, List.nodup_cons, ← List.map_append]
      at once
    exact once.1
  have size : c.size = (before ++ after).length + 1 := caches.size.trans List.perm_middle.length_eq
  refine ⟨{ c with
    map, links := links.free n, size := c.size - 1,
    destroyed := if dtor then left ++ [item] else [] }, ?_, ?_⟩
  · have logged := @runDtor_eq _ { c with map, links } left _ caches.hooked caches.destroyed item
    simp only [ZLru.dropNode, taken, here, logged, Option.bind_eq_bind, Option.bind_some]
  · exact {
      linked := linked.free outside
      mapped := mapped
      size := by
        dsimp only
        rw [size, Nat.add_sub_cancel]
      unused := fun other beyond => free_none ((frame other).mpr (caches.unused other beyond))
      limit := caches.limit
      hooked := caches.hooked
      destroyed := rfl
    }

theorem Caches.erase_held
    (caches : c.Caches capacity dtor (before ++ (n, (key, value)) :: after) left)
    : ∃ c', c.erase (some key) = some c'
        ∧ c'.Caches capacity dtor (before ++ after) (left ++ [(key, value)]) := by
  obtain ⟨map, erased, mapped⟩ := caches.mapped.erase_held nodeRows_middle
  obtain ⟨c', dropped, rest⟩ := caches.dropNode mapped
  refine ⟨c', ?_, rest⟩
  simp only [erase, erased, dropped, Option.bind_eq_bind, Option.bind_some]

theorem Caches.erase_absent (caches : c.Caches capacity dtor cells left)
    (absent : key ∉ (cells.map Prod.snd).map Prod.fst)
    : c.erase (some key) = some c := by
  simp only [erase, caches.mapped.erase_absent (absent_nodeRows absent), Option.bind_eq_bind,
    Option.bind_some]

theorem lastOr_concat {α : Type} (front : List (Addr × α)) (item : α) (prev : Option Addr)
    : lastOr prev (front ++ [(n, item)]) = some n := by
  rw [lastOr_append]
  rfl

theorem Caches.evictTail (caches : c.Caches capacity dtor (before ++ [(n, item)]) left)
    : ∃ c', c.evictTail = some c' ∧ c'.Caches capacity dtor before (left ++ [item]) := by
  obtain ⟨key, value⟩ := item
  have tail : c.links.tail = some n := caches.linked.tail.trans (lastOr_concat _ _ _)
  have here := caches.linked.node
  obtain ⟨map, erased, mapped⟩ := caches.mapped.erase_held nodeRows_middle
  obtain ⟨c', dropped, rest⟩ := caches.dropNode mapped
  rw [List.append_nil] at rest
  refine ⟨c', ?_, rest⟩
  simp only [ZLru.evictTail, tail, here, erased, dropped, Option.bind_eq_bind, Option.bind_some]

-- Insertion

theorem Caches.put_held {old : Option ν}
    (caches : c.Caches capacity dtor (before ++ (n, (key, old)) :: after) left)
    (value : Option ν) (grants : PutGrants)
    : ∃ c', c.put (some key) value grants = some (c', true)
        ∧ c'.Caches capacity dtor ((n, (key, value)) :: (before ++ after))
            (left ++ [(key, old)]) := by
  obtain ⟨l₁, written, linked⟩ := caches.linked.setItem (key, value)
  obtain ⟨l₂, l₃, taken, pushed, whole⟩ := linked.promote
  have here := caches.linked.node
  have frame := ((setItem_sameNodes written).trans (unlink_sameNodes taken)).trans
    (pushHead_sameNodes pushed)
  have logged := runDtor_eq caches.hooked caches.destroyed (key, old)
  refine ⟨{ c with links := l₃, destroyed := if dtor then left ++ [(key, old)] else [] }, ?_, ?_⟩
  · simp only [put, caches.map_get_held, here, logged, written, taken, pushed, Option.bind_eq_bind,
      Option.bind_some]
  · exact {
      linked := whole
      mapped := caches.mapped.perm nodeRows_middle
      size := caches.size.trans List.perm_middle.length_eq
      unused := fun other beyond => (frame other).mpr (caches.unused other beyond)
      limit := caches.limit
      hooked := caches.hooked
      destroyed := rfl
    }

theorem Caches.push_new {map : ZMap Addr} (caches : c.Caches capacity dtor cells left)
    (mapped : map.Keeps zmapHashFnv1a ((key, c.fresh) :: nodeRows cells)) (value : Option ν)
    : ∃ links, (c.links.alloc c.fresh (key, value)).pushHead c.fresh = some links
        ∧ ({ c with map, links, size := c.size + 1, fresh := c.fresh + 1 } : ZLru ν).Caches
            capacity dtor ((c.fresh, (key, value)) :: cells) left := by
  have outside : c.fresh ∉ cells.map Prod.fst := fun held =>
    Nat.lt_irrefl _ (caches.addr_lt held)
  obtain ⟨links, pushed, linked⟩ :=
    (caches.linked.alloc outside (key, value)).pushHead (Function.update_self _ _ _) outside
  refine ⟨links, pushed, ?_⟩
  exact {
    linked := linked
    mapped := mapped
    size := congrArg (· + 1) caches.size
    unused := fun other beyond =>
      (pushHead_sameNodes pushed other).mpr
        (alloc_none (caches.unused other (Nat.le_of_succ_le beyond))
          (Nat.ne_of_gt (Nat.lt_of_succ_le beyond)))
    limit := caches.limit
    hooked := caches.hooked
    destroyed := caches.destroyed
  }

/-- The put of a new key is refused and changes nothing, or the key is first and at most the last
cell leaves. -/
theorem Caches.put_new (caches : c.Caches capacity dtor cells left)
    (bounded : cells.length ≤ capacity) (absent : key ∉ (cells.map Prod.snd).map Prod.fst)
    (value : Option ν) (grants : PutGrants)
    : (c.put (some key) value grants = some (c, false) ∧ ¬ grants.Ample cells.length)
        ∨ ∃ c', c.put (some key) value grants = some (c', true)
            ∧ c'.Caches capacity dtor (((c.fresh, (key, value)) :: cells).take capacity)
                (left ++ (((c.fresh, (key, value)) :: cells).drop capacity).map Prod.snd) := by
  have missed := caches.map_get_absent absent
  simp only [put, missed, Option.bind_eq_bind, Option.bind_some]
  split
  · rename_i refused
    refine .inl ⟨rfl, fun ample => ?_⟩
    rw [ample.1, ample.2.1] at refused
    cases refused
  · rcases caches.mapped.put_new (absent_nodeRows absent) c.fresh grants.map with
      ⟨refused, short⟩ | ⟨map, stored, mapped⟩
    · refine .inl ⟨?_, fun ample => short ?_⟩
      · rw [refused, Option.bind_some]
        simp only [Bool.false_eq_true, if_false]
        rw [free_alloc (caches.unused _ (Nat.le_refl _))]
      · rw [nodeRows, List.length_map]
        exact ample.2.2
    · obtain ⟨links, pushed, grown⟩ := caches.push_new mapped value
      have size := caches.size
      simp only [stored, pushed, Option.bind_some, if_true]
      have limit := caches.limit
      refine .inr ?_
      split
      · obtain ⟨front, ⟨last, item⟩, whole⟩ :=
          (List.eq_nil_or_concat' ((c.fresh, (key, value)) :: cells)).resolve_left
            (List.cons_ne_nil _ _)
        have length := congrArg List.length whole
        rw [List.length_cons, List.length_append, List.length_singleton] at length
        have exact : front.length = capacity := by omega
        rw [whole] at grown
        obtain ⟨c', evicted, rest⟩ := grown.evictTail
        rw [whole, List.take_left' exact, List.drop_left' exact]
        exact ⟨c', by rw [evicted]; rfl, rest⟩
      · rw [List.take_of_length_le (by rw [List.length_cons]; omega),
          List.drop_of_length_le (by rw [List.length_cons]; omega), List.map_nil, List.append_nil]
        exact ⟨_, rfl, grown⟩

-- Calls and runs

variable {r : Recency capacity Key (Option ν)}

theorem cells_of_find (same : r.entries = cells.map Prod.snd) (known : r.find key = some value)
    : ∃ before n after, cells = before ++ (n, (key, value)) :: after := by
  obtain ⟨front, behind, split⟩ := Recency.find_eq_some known
  rw [same] at split
  obtain ⟨before, rest, rfl, -, stands⟩ := List.map_eq_append_iff.mp split
  obtain ⟨⟨n, item⟩, after, rfl, first, -⟩ := List.map_eq_cons_iff.mp stands
  cases first
  exact ⟨before, n, after, rfl⟩

theorem used_entries (once : (((before ++ (n, (key, value)) :: after).map Prod.snd).map
      Prod.fst).Nodup) (new : Option ν)
    : Recency.used key new ((before ++ (n, (key, value)) :: after).map Prod.snd)
        = ((n, (key, new)) :: (before ++ after)).map Prod.snd := by
  rw [List.map_append, List.map_cons] at once ⊢
  rw [Recency.used, Recency.others_of_split once, List.map_cons, List.map_append]

/-- The cells of the cache carry the most recently used keys with their values, in order. -/
def Backs (dtor : Bool) (c : ZLru ν) (r : Recency capacity Key (Option ν)) (left : List (Item ν))
    : Prop :=
  ∃ cells, c.Caches capacity dtor cells left ∧ r.entries = cells.map Prod.snd

section

variable (backs : c.Backs dtor r left)
include backs

theorem Backs.put (key : Key) (value : Option ν) (grants : PutGrants)
    : ∃ c' ok r' out, c.put (some key) value grants = some (c', ok)
        ∧ Serves r (.put (some key) value grants) (.stored ok) r' out
        ∧ c'.Backs dtor r' (left ++ out) := by
  obtain ⟨cells, caches, same⟩ := backs
  have once := r.once
  have bounded := r.bounded
  rw [same] at once bounded
  cases found : r.find key with
  | some old =>
    obtain ⟨before, n, after, rfl⟩ := cells_of_find same found
    obtain ⟨c', put, grown⟩ := caches.put_held value grants
    rw [List.length_map, List.perm_middle.length_eq] at bounded
    have own : Recency.own key r.entries = [(key, old)] := by
      rw [same, List.map_append, List.map_cons]
      rw [List.map_append, List.map_cons] at once
      exact Recency.own_of_split once
    refine ⟨c', true, r.use key value, r.displaced key value, put, .put key value grants,
      (n, (key, value)) :: (before ++ after), ?_, ?_⟩
    · rw [Recency.displaced, own, same, used_entries once,
        List.drop_of_length_le (by rwa [List.length_map]), List.append_nil]
      exact grown
    · rw [Recency.use_entries, same, used_entries once,
        List.take_of_length_le (by rwa [List.length_map])]
  | none =>
    have absent := Recency.find_eq_none found
    rw [same] at absent
    rcases caches.put_new (by simpa using bounded) absent value grants with
      ⟨refused, short⟩ | ⟨c', put, grown⟩
    · refine ⟨c, false, r, [], refused, .refuse key value grants found ?_, cells, ?_, same⟩
      · rwa [same, List.length_map]
      · rwa [List.append_nil]
    · have used : Recency.used key value r.entries
          = ((c.fresh, (key, value)) :: cells).map Prod.snd := by
        rw [same, Recency.used, Recency.others_of_absent absent, List.map_cons]
      refine ⟨c', true, r.use key value, r.displaced key value, put, .put key value grants,
        ((c.fresh, (key, value)) :: cells).take capacity, ?_, ?_⟩
      · rw [Recency.displaced, same, Recency.own_of_absent absent, List.nil_append, ← same, used,
          ← List.map_drop]
        exact grown
      · rw [Recency.use_entries, used, List.map_take]

theorem Backs.get (key : Key) : ∃ c' answer r', c.get (some key) = some (c', answer)
        ∧ Serves r (.get (some key)) (.found answer) r' [] ∧ c'.Backs dtor r' left := by
  obtain ⟨cells, caches, same⟩ := backs
  have once := r.once
  have bounded := r.bounded
  rw [same] at once bounded
  cases found : r.find key with
  | some value =>
    obtain ⟨before, n, after, rfl⟩ := cells_of_find same found
    obtain ⟨c', got, promoted⟩ := caches.get_held
    refine ⟨c', value, r.use key value, got, .hit key value found, _, promoted, ?_⟩
    rw [List.length_map, List.perm_middle.length_eq] at bounded
    rw [Recency.use_entries, same, used_entries once,
      List.take_of_length_le (by rwa [List.length_map])]
  | none =>
    have absent := Recency.find_eq_none found
    rw [same] at absent
    exact ⟨c, none, r, caches.get_absent absent, .miss key found, cells, caches, same⟩

theorem Backs.erase (key : Key) : ∃ c', c.erase (some key) = some c'
        ∧ c'.Backs dtor (r.forget key) (left ++ Recency.own key r.entries) := by
  obtain ⟨cells, caches, same⟩ := backs
  have once := r.once
  rw [same] at once
  cases found : r.find key with
  | some value =>
    obtain ⟨before, n, after, rfl⟩ := cells_of_find same found
    obtain ⟨c', erased, rest⟩ := caches.erase_held
    rw [List.map_append, List.map_cons] at once same
    refine ⟨c', erased, before ++ after, ?_, ?_⟩
    · rw [same, Recency.own_of_split once]
      exact rest
    · rw [Recency.forget_entries, same, Recency.others_of_split once, List.map_append]
  | none =>
    have absent := Recency.find_eq_none found
    refine ⟨c, caches.erase_absent (same ▸ absent), cells, ?_, ?_⟩
    · rw [Recency.own_of_absent absent, List.append_nil]
      exact caches
    · rw [Recency.forget_entries, Recency.others_of_absent absent, same]

theorem Backs.serve (call : Call ν)
    : ∃ c' reply r' out, c.serve call = some (c', reply) ∧ Serves r call reply r' out
        ∧ c'.Backs dtor r' (left ++ out) := by
  have idle : c.Backs dtor r (left ++ []) := by rwa [List.append_nil]
  cases call with
  | put key value grants =>
    cases key with
    | none => exact ⟨c, .stored false, r, [], rfl, .putNull value grants, idle⟩
    | some key =>
      obtain ⟨c', ok, r', out, done, serves, next⟩ := backs.put key value grants
      exact ⟨c', .stored ok, r', out, by rw [ZLru.serve, done]; rfl, serves, next⟩
  | get key =>
    cases key with
    | none => exact ⟨c, .found none, r, [], rfl, .getNull, idle⟩
    | some key =>
      obtain ⟨c', answer, r', done, serves, next⟩ := backs.get key
      rw [← List.append_nil left] at next
      exact ⟨c', .found answer, r', [], by rw [ZLru.serve, done]; rfl, serves, next⟩
  | erase key =>
    cases key with
    | none => exact ⟨c, .erased, r, [], rfl, .eraseNull, idle⟩
    | some key =>
      obtain ⟨c', done, next⟩ := backs.erase key
      exact ⟨c', .erased, _, _, by rw [ZLru.serve, done]; rfl, .erase key, next⟩

theorem Backs.run (calls : List (Call ν))
    : ∃ c' replies r' out, c.run calls = some (c', replies) ∧ ServesAll r calls replies r' out
        ∧ c'.Backs dtor r' (left ++ out) := by
  induction calls generalizing c r left with
  | nil => exact ⟨c, [], r, [], rfl, .nil r, by rwa [List.append_nil]⟩
  | cons call calls ih =>
    obtain ⟨c₁, reply, r₁, out, served, serves, next⟩ := backs.serve call
    obtain ⟨c₂, replies, r₂, out', ran, all, last⟩ := ih next
    refine ⟨c₂, reply :: replies, r₂, out ++ out', ?_, .cons serves all, ?_⟩
    · simp only [ZLru.run, served, ran, Option.bind_eq_bind, Option.bind_some]
    · rwa [← List.append_assoc]

-- What a cache shows

theorem Backs.size : c.size = r.entries.length := by
  obtain ⟨cells, caches, same⟩ := backs
  rw [caches.size, same, List.length_map]

theorem Backs.visit (visit : σ → Item ν → Bool × σ) (ctx : σ) {fuel : Nat} (enough : c.size ≤ fuel)
    : c.visitMruFirst visit fuel ctx = some (visitList visit ctx r.entries) := by
  obtain ⟨cells, caches, same⟩ := backs
  rw [caches.size] at enough
  rw [visitMruFirst, caches.linked.head, caches.linked.seg.walk visit enough, same]

theorem Backs.destroyed : c.destroyed = if dtor then left else [] := by
  obtain ⟨cells, caches, -⟩ := backs
  exact caches.destroyed

theorem Backs.mapped (key : Key) : (∃ n, c.map.get zmapHashFnv1a key = some n
          ∧ (n.bind c.links.heap).map Node.item = (r.find key).map fun value => (key, value))
        ∧ ∃ pos ∈ c.map.trail (zmapHashFnv1a key, key), c.map.slots[pos]? = some .virgin := by
  obtain ⟨cells, caches, same⟩ := backs
  have spare := caches.mapped.spare
  obtain ⟨bits, power⟩ := caches.mapped.holds.power
  refine ⟨?_, ?_⟩
  · cases found : r.find key with
    | some value =>
      obtain ⟨before, n, after, rfl⟩ := cells_of_find same found
      refine ⟨some n, caches.map_get_held, ?_⟩
      rw [Option.bind_some, caches.linked.node]
      rfl
    | none =>
      have absent := Recency.find_eq_none found
      exact ⟨none, caches.map_get_absent (same ▸ absent), rfl⟩
  · rw [ZMap.trail_eq power]
    exact caches.mapped.holds.virgin_ahead (by omega) _

theorem Backs.put_false {key : Option Key} {value : Option ν} {grants : PutGrants} {c' : ZLru ν}
    (refused : c.put key value grants = some (c', false))
    : c' = c := by
  obtain ⟨cells, caches, same⟩ := backs
  have bounded := r.bounded
  rw [same, List.length_map] at bounded
  cases key with
  | none =>
    cases refused
    rfl
  | some key =>
    cases found : r.find key with
    | some old =>
      obtain ⟨before, n, after, rfl⟩ := cells_of_find same found
      obtain ⟨c'', put, -⟩ := caches.put_held value grants
      rw [put] at refused
      cases refused
    | none =>
      have absent := Recency.find_eq_none found
      rcases caches.put_new bounded (same ▸ absent) value grants with ⟨kept, -⟩ | ⟨c'', put, -⟩
      · rw [kept] at refused
        cases refused
        rfl
      · rw [put] at refused
        cases refused

end

theorem create_backs {grants : CreateGrants} (made : create capacity dtor grants = some c)
    : c.Backs dtor (Recency.empty : Recency capacity Key (Option ν)) [] :=
  ⟨[], (create_caches made).2, rfl⟩

/-- After any calls on a new cache, with any refusals, every call has been answered from the most
recently used keys; the walk lists them, the size counts them, the destructor has seen what left,
a refused put would change nothing, and the map leads to every node with an empty slot on each
probe. -/
theorem run_mostRecentlyUsed {c₀ : ZLru ν} {grants : CreateGrants}
    (made : create capacity dtor grants = some c₀) (calls : List (Call ν))
    : ∃ c replies left, ∃ r : Recency capacity Key (Option ν),
        c₀.run calls = some (c, replies) ∧ ServesAll Recency.empty calls replies r left
        ∧ (∀ {σ : Type} (visit : σ → Item ν → Bool × σ) (ctx : σ) (fuel : Nat), c.size ≤ fuel →
            c.visitMruFirst visit fuel ctx = some (visitList visit ctx r.entries))
        ∧ c.size = r.entries.length ∧ c.destroyed = (if dtor then left else [])
        ∧ (∀ key value grants c', c.put key value grants = some (c', false) → c' = c)
        ∧ ∀ key,
            (∃ n, c.map.get zmapHashFnv1a key = some n
              ∧ (n.bind c.links.heap).map Node.item = (r.find key).map fun value => (key, value))
            ∧ ∃ pos ∈ c.map.trail (zmapHashFnv1a key, key), c.map.slots[pos]? = some .virgin := by
  obtain ⟨c, replies, r, left, ran, all, backs⟩ := (create_backs made).run calls
  rw [List.nil_append] at backs
  refine ⟨c, replies, left, r, ran, all, ?_, backs.size, backs.destroyed, ?_, backs.mapped⟩
  · exact fun visit ctx fuel enough => backs.visit visit ctx enough
  · exact fun key value grants c' refused => backs.put_false refused

def sampleGrants : PutGrants := ⟨true, true, ⟨true, true, true⟩⟩

def sampleCalls : List (Call Nat) :=
  [.put (some [97]) (some 1) sampleGrants, .put (some [98]) (some 2) sampleGrants, .get (some [97]),
    .put (some [99]) (some 3) { sampleGrants with node := false },
    .put (some [99]) (some 3) sampleGrants, .erase (some [97])]

/-- Two keys fit: a use saves the first of them, a refused put changes nothing, and the third key
drives out the second. -/
theorem run_mostRecentlyUsed_sample
    : ∃ c₀ : ZLru Nat, create 2 true ⟨true, true, true⟩ = some c₀
        ∧ ∃ c replies left, ∃ r : Recency 2 Key (Option Nat),
            c₀.run sampleCalls = some (c, replies)
            ∧ ServesAll Recency.empty sampleCalls replies r left ∧ c.destroyed = left
            ∧ replies = [.stored true, .stored true, .found (some 1), .stored false, .stored true,
                .erased] := by
  obtain ⟨c₀, made⟩ := Option.isSome_iff_exists.mp
    (show (create 2 true ⟨true, true, true⟩ : Option (ZLru Nat)).isSome by rfl)
  obtain ⟨c, replies, left, r, ran, all, -, -, log, -, -⟩ := run_mostRecentlyUsed made sampleCalls
  refine ⟨c₀, made, c, replies, left, r, ran, all, log, ?_⟩
  have answers : ((create 2 true ⟨true, true, true⟩ : Option (ZLru Nat)).bind fun c₀ =>
      (c₀.run sampleCalls).map Prod.snd) = some [.stored true, .stored true, .found (some 1),
        .stored false, .stored true, .erased] := by decide +kernel
  rw [made, Option.bind_some, ran] at answers
  exact Option.some.inj answers

end ZLru

end Z23.Commons
