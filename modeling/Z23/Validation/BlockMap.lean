import Z23.Chain.BlockIndex
import Z23.Lib.Bytes
import Z23.Lib.ProbeTable

/-!
The map of the block index: block objects by hash in open addressing with linear probing. No
entry is removed.
-/

namespace Z23.Validation

open Z23.Lib
open Z23.Lib.OpenTable (Slots Contains entries mem_entries)
open Z23.Lib.ProbeTable (Placed used)
open Z23.Chain (BlockId)

structure BlockMap where
  buckets : Slots Uint256 BlockId
  size : Nat

def blockMapInit : BlockMap := ⟨[], 0⟩

def blockMapHash (hash : Uint256) : Nat := Bytes.natLE (hash.data.take 8)

def blockMapHome (capacity : Nat) (hash : Uint256) : Nat := blockMapHash hash &&& (capacity - 1)

def blockMapFind (m : BlockMap) (hash : Uint256) : Option BlockId :=
  ProbeTable.find blockMapHome m.buckets hash

/-- Models `block_map_insert_internal`: a hash that is there already is refused. -/
def blockMapInsertInternal (buckets : Slots Uint256 BlockId) (hash : Uint256) (index : BlockId)
    : Option (Slots Uint256 BlockId) :=
  match ProbeTable.probe blockMapHome buckets hash with
  | .free slot => some (buckets.set slot (some (hash, index)))
  | _ => none

/-- Models `block_map_grow`; `granted` tells whether the allocation succeeds. -/
def blockMapGrow (granted : Bool) (m : BlockMap) : Option BlockMap :=
  let newCap := if m.buckets.length = 0 then 4096 else m.buckets.length * 2
  if granted then
    (ProbeTable.grow blockMapHome m.buckets newCap).map fun buckets => { m with buckets }
  else none

def BlockMap.loaded (m : BlockMap) : Bool := m.size * 4 ≥ m.buckets.length * 3

/-- Models `block_map_insert`, where `hash` is the hash of the object `index`. -/
def blockMapInsert (granted : Bool) (m : BlockMap) (hash : Uint256) (index : BlockId)
    : BlockMap × Bool :=
  match (if m.loaded then blockMapGrow granted m else some m) with
  | none => (m, false)
  | some m =>
    match blockMapInsertInternal m.buckets hash index with
    | none => (m, false)
    | some buckets => (⟨buckets, m.size + 1⟩, true)

-- What a map holds

structure BlockMap.Holds (m : BlockMap) (rows : List (Uint256 × BlockId)) : Prop where
  placed : m.buckets ≠ [] → Placed blockMapHome m.buckets
  size : used m.buckets = m.size
  shows : ∀ row, Contains m.buckets row ↔ row ∈ rows
  count : rows.length = m.size
  once : (rows.map Prod.fst).Nodup
  power : m.buckets = [] ∨ ∃ k, m.buckets.length = 2 ^ k

variable {m : BlockMap} {rows : List (Uint256 × BlockId)}

theorem blockMapHome_lt {capacity : Nat} (positive : 0 < capacity) (hash : Uint256)
    : blockMapHome capacity hash < capacity :=
  Nat.lt_of_le_of_lt Nat.and_le_right (Nat.sub_lt positive Nat.one_pos)

theorem BlockMap.Holds.nodup_entries (holds : m.Holds rows)
    : ((entries m.buckets).map Prod.fst).Nodup := by
  by_cases empty : m.buckets = []
  · simp [empty, entries]
  · exact (holds.placed empty).nodup_keys

theorem BlockMap.Holds.slot (holds : m.Holds rows) (some_ : m.buckets ≠ []) (hash : Uint256)
    (i : Nat)
    : (ProbeTable.step m.buckets.length)^[i] (blockMapHome m.buckets.length hash)
      = (blockMapHome m.buckets.length hash + i) &&& (m.buckets.length - 1) := by
  obtain ⟨k, power⟩ := holds.power.resolve_left some_
  rw [ProbeTable.iterate_step ((holds.placed some_).inside hash), power,
    Nat.and_two_pow_sub_one_eq_mod]

theorem BlockMap.Holds.grow (holds : m.Holds rows)
    : ∃ grown, blockMapGrow true m = some grown ∧ grown.Holds rows ∧ grown.size = m.size
        ∧ grown.size < grown.buckets.length := by
  have few := ProbeTable.used_le_length m.buckets
  obtain ⟨cap, doubled⟩ :
      ∃ cap, cap = if m.buckets.length = 0 then 4096 else m.buckets.length * 2 := ⟨_, rfl⟩
  have room : used m.buckets < cap := by
    rw [doubled]
    split <;> omega
  have fresh : Placed blockMapHome (List.replicate cap (none : Option (Uint256 × BlockId))) :=
    Placed.empty (blockMapHome_lt (Nat.zero_lt_of_lt room))
  have fits : used (List.replicate cap (none : Option (Uint256 × BlockId)))
      + (entries m.buckets).length ≤ (List.replicate cap none : Slots Uint256 BlockId).length := by
    rw [ProbeTable.used_replicate, List.length_replicate, Nat.zero_add]
    exact room.le
  obtain ⟨after, ran, filled⟩ := fresh.insertAll fits holds.nodup_entries
    (fun entry _ value => by simp [Contains])
  have capacity : after.length = cap := by rw [filled.capacity, List.length_replicate]
  have count : used after = m.size := by
    rw [filled.count, ProbeTable.used_replicate, Nat.zero_add, ← holds.size, used]
  refine ⟨⟨after, m.size⟩, ?_, ?_, rfl, ?_⟩
  · simp only [blockMapGrow, ← doubled, ProbeTable.grow, ran]
    rfl
  · refine ⟨fun _ => filled.placed, count, fun row => ?_, holds.count, holds.once, .inr ?_⟩
    · rw [filled.contains, mem_entries, holds.shows]
      simp [Contains]
    · rw [capacity, doubled]
      rcases holds.power with empty | ⟨k, power⟩
      · exact ⟨12, by rw [empty]; rfl⟩
      · exact ⟨k + 1, by rw [power, if_neg (by positivity), Nat.pow_succ]⟩
  · rw [capacity, ← holds.size]
    exact room

theorem BlockMap.Holds.place (holds : m.Holds rows) (room : m.size < m.buckets.length)
    (hash : Uint256) (index : BlockId)
    : (hash ∈ rows.map Prod.fst ∧ blockMapInsertInternal m.buckets hash index = none)
      ∨ (hash ∉ rows.map Prod.fst
        ∧ ∃ buckets, blockMapInsertInternal m.buckets hash index = some buckets
          ∧ BlockMap.Holds ⟨buckets, m.size + 1⟩ ((hash, index) :: rows)) := by
  have placed := holds.placed (List.ne_nil_of_length_pos (Nat.zero_lt_of_lt room))
  rw [← holds.size] at room
  rw [blockMapInsertInternal]
  cases outcome : ProbeTable.probe blockMapHome m.buckets hash with
  | exhausted => exact absurd outcome (placed.probe_ne_exhausted room hash)
  | found slot =>
    obtain ⟨held, here⟩ := ProbeTable.probe_found outcome
    exact .inl ⟨List.mem_map.mpr ⟨_, (holds.shows _).mp ⟨slot, here⟩, rfl⟩, rfl⟩
  | free slot =>
    have inserted := placed.inserted outcome index
    have absent : hash ∉ rows.map Prod.fst := by
      intro member
      obtain ⟨⟨_, held⟩, known, rfl⟩ := List.mem_map.mp member
      refine placed.absent_of_missed (fun pos found => ?_) held ((holds.shows _).mpr known)
      rw [outcome] at found
      cases found
    refine .inr ⟨absent, _, rfl, fun _ => inserted.placed, ?_, fun row => ?_, ?_, ?_, .inr ?_⟩
    · rw [inserted.count, holds.size]
    · rw [inserted.contains, holds.shows, List.mem_cons]
    · rw [List.length_cons, holds.count]
    · exact List.nodup_cons.mpr ⟨absent, holds.once⟩
    · rw [inserted.capacity]
      exact holds.power.resolve_left (List.ne_nil_of_length_pos (Nat.zero_lt_of_lt room))

theorem BlockMap.Holds.insert (holds : m.Holds rows) (granted : Bool) (hash : Uint256)
    (index : BlockId)
    : ∃ after accepted, blockMapInsert granted m hash index = (after, accepted)
        ∧ after.Holds (if accepted then (hash, index) :: rows else rows)
        ∧ (accepted = true
          ↔ hash ∉ rows.map Prod.fst ∧ (m.loaded = true → granted = true)) := by
  rw [blockMapInsert]
  by_cases refused : m.loaded = true ∧ granted = false
  · refine ⟨m, false, ?_, holds, by simp [refused]⟩
    rw [if_pos refused.1, refused.2]
    rfl
  · obtain ⟨ready, roomy, holds', room⟩ : ∃ ready,
        (if m.loaded = true then blockMapGrow granted m else some m) = some ready
          ∧ ready.Holds rows ∧ ready.size < ready.buckets.length := by
      by_cases loaded : m.loaded = true
      · obtain ⟨grown, ran, held, -, room⟩ := holds.grow
        have given : granted = true := by simpa [loaded] using refused
        exact ⟨grown, by rw [if_pos loaded, given, ran], held, room⟩
      · refine ⟨m, if_neg loaded, holds, ?_⟩
        rw [BlockMap.loaded, decide_eq_true_eq] at loaded
        omega
    have memory : m.loaded = true → granted = true := by simpa using refused
    rw [roomy]
    rcases holds'.place room hash index with ⟨known, ran⟩ | ⟨absent, buckets, ran, held⟩
    · exact ⟨ready, false, by simp only [ran], holds', by simp [known]⟩
    · exact ⟨_, true, by simp only [ran], held, fun _ => ⟨absent, memory⟩, fun _ => rfl⟩

/-- The map after insertions, with the rows that were accepted. -/
def blockMapRun (calls : List (Bool × Uint256 × BlockId)) : BlockMap × List (Uint256 × BlockId) :=
  calls.foldl (fun (m, rows) (granted, hash, index) =>
    let (after, accepted) := blockMapInsert granted m hash index
    (after, if accepted then (hash, index) :: rows else rows)) (blockMapInit, [])

theorem blockMapRun_holds (calls : List (Bool × Uint256 × BlockId))
    : (blockMapRun calls).1.Holds (blockMapRun calls).2 := by
  have start : blockMapInit.Holds [] :=
    ⟨fun some_ => absurd rfl some_, rfl, by simp [blockMapInit, Contains, OpenTable.cellAt], rfl,
      List.nodup_nil, .inl rfl⟩
  refine List.foldlRecOn calls _ 
    (motive := fun s : BlockMap × List (Uint256 × BlockId) => s.1.Holds s.2) start ?_
  rintro ⟨m, rows⟩ holds ⟨granted, hash, index⟩ -
  obtain ⟨after, accepted, ran, held, -⟩ := holds.insert granted hash index
  simpa only [ran] using held

/-- The block map is a finite map of the accepted rows, and refuses no others than it must. -/
theorem blockMap_refines (calls : List (Bool × Uint256 × BlockId)) (granted : Bool)
    (hash : Uint256) (index : BlockId)
    : (blockMapFind (blockMapRun calls).1 hash = some index ↔ (hash, index) ∈ (blockMapRun calls).2)
      ∧ ((blockMapRun calls).2.map Prod.fst).Nodup
      ∧ (blockMapRun calls).1.size = (blockMapRun calls).2.length
      ∧ (entries (blockMapRun calls).1.buckets).Perm (blockMapRun calls).2
      ∧ ((blockMapInsert granted (blockMapRun calls).1 hash index).2 = true
        ↔ hash ∉ (blockMapRun calls).2.map Prod.fst
          ∧ ((blockMapRun calls).1.loaded = true → granted = true)) := by
  have holds := blockMapRun_holds calls
  generalize blockMapRun calls = run at holds ⊢
  obtain ⟨m, rows⟩ := run
  obtain ⟨after, accepted, ran, -, told⟩ := holds.insert granted hash index
  refine ⟨?_, holds.once, holds.count.symm, ?_, by rw [ran]; exact told⟩
  · rw [← holds.shows]
    by_cases empty : m.buckets = []
    · simp [blockMapFind, ProbeTable.find, ProbeTable.probe, LinearProbing.seek, empty, Contains,
        OpenTable.cellAt]
    · exact (holds.placed empty).find_eq_some_iff
  · have distinct := holds.nodup_entries.of_map
    refine (List.perm_ext_iff_of_nodup distinct holds.once.of_map).mpr fun row => ?_
    rw [mem_entries, holds.shows]

end Z23.Validation
