import Z23.Lib.LinearProbing
import Z23.Primitives

/-!
The per-block index of created outputs: an open-addressed table from outpoints to positions of
the `added` array, and its agreement with a linear search of that array.
-/

namespace Z23.Jobs

open Z23.Lib

/--
One created or restored coin in a block delta. `script` is the first `script_len` bytes.
-/
structure DeltaEntry where
  txid : Uint256
  vout : UInt32
  value : Int64
  script : Script
  isCoinbase : Bool
  height : UInt32 := 0
deriving DecidableEq, Repr

def DeltaEntry.outpoint (e : DeltaEntry) : Outpoint := ⟨e.txid, e.vout⟩

/--
The array `slots` holds entry positions plus one, zero means empty; a NULL array is `[]`.
-/
structure AddedIndex where
  slots : List Nat
  mask : Nat
deriving DecidableEq, Repr

def fnvPrime : UInt64 := 1099511628211

/-- FNV-1a over the txid and the little-endian bytes of the output number. -/
def addedIndexHash (txid : Uint256) (vout : UInt32) : UInt64 :=
  let mix := fun (h : UInt64) (byte : UInt8) => (h ^^^ byte.toUInt64) * fnvPrime
  let h := txid.data.foldl mix 1469598103934665603
  [0, 8, 16, 24].foldl (fun h (shift : UInt32) => mix h (vout >>> shift).toUInt8) h

def sizeMax : Nat := 2 ^ 64 - 1

/-- The doubling loop; `fuel` bounds the number of doublings by the width of `size_t`. -/
def addedIndexCap (want : Nat) : Nat → Nat → Option Nat
  | 0, _ => none
  | fuel + 1, cap =>
    if cap < want then
      if cap > sizeMax / 2 then none else addedIndexCap want fuel (cap * 2)
    else some cap

def addedIndexInit (addCap : Nat) : Option AddedIndex :=
  if addCap = 0 then some ⟨[], 0⟩
  else if addCap > sizeMax / 2 then none
  else
    let want := if addCap * 2 < 8 then 8 else addCap * 2
    (addedIndexCap want 65 1).map (fun cap => ⟨List.replicate cap 0, cap - 1⟩)

def AddedIndex.next (idx : AddedIndex) (pos : Nat) : Nat := (pos + 1) &&& idx.mask

def AddedIndex.home (idx : AddedIndex) (op : Outpoint) : Nat :=
  (addedIndexHash op.hash op.n).toNat &&& idx.mask

/-- The entry that slot `pos` points to. -/
def AddedIndex.entryAt (idx : AddedIndex) (added : List DeltaEntry) (pos : Nat)
    : Option DeltaEntry :=
  match idx.slots.getD pos 0 with
  | 0 => none
  | slot + 1 => added[slot]?

def AddedIndex.cell (idx : AddedIndex) (added : List DeltaEntry) (pos : Nat)
    : Option Outpoint :=
  (idx.entryAt added pos).map DeltaEntry.outpoint

/-- The probe loop shared by lookup and insertion: at most `mask + 1` probes. -/
def AddedIndex.probe (idx : AddedIndex) (added : List DeltaEntry) (op : Outpoint)
    : LinearProbing.Outcome Nat :=
  LinearProbing.seek idx.next (idx.cell added) op (idx.mask + 1) (idx.home op)

def addedIndexLookup (idx : AddedIndex) (added : List DeltaEntry) (op : Outpoint)
    : Option DeltaEntry :=
  if idx.slots = [] then none
  else
    match idx.probe added op with
    | .found pos => idx.entryAt added pos
    | _ => none

/-- Insertion; `none` is the "table full" failure. -/
def addedIndexInsert (idx : AddedIndex) (added : List DeltaEntry) (entryI : Nat)
    : Option AddedIndex :=
  if idx.slots = [] then some idx
  else
    match added[entryI]? with
    | none => none
    | some entry =>
      match idx.probe added entry.outpoint with
      | .free pos => some { idx with slots := idx.slots.set pos (entryI + 1) }
      | .found _ => some idx
      | .exhausted => none

-- The index agrees with the array

/-- `idx` indexes exactly the entries of `added`, whose outpoints are distinct. -/
structure AddedIndex.Indexes (idx : AddedIndex) (added : List DeltaEntry) : Prop where
  nullEmpty : idx.slots = [] → added = []
  size : idx.slots ≠ [] → idx.slots.length = idx.mask + 1
  inRange : ∀ pos slot, idx.slots.getD pos 0 = slot + 1 → slot < added.length
  probed : LinearProbing.Probed idx.next idx.home (idx.mask + 1) (idx.cell added)
  complete : ∀ e ∈ added, ∃ pos, idx.cell added pos = some e.outpoint
  distinct : (added.map DeltaEntry.outpoint).Nodup

variable {idx : AddedIndex}

theorem addedIndexInit_indexes {addCap : Nat} (init : addedIndexInit addCap = some idx)
    : idx.Indexes [] ∧ (idx.slots = [] → addCap = 0) := by
  rw [addedIndexInit] at init
  split at init
  · rename_i noOutputs
    obtain rfl := Option.some.inj init
    refine ⟨⟨by simp, by simp, by simp, ?_, by simp, by simp⟩, fun _ => noOutputs⟩
    exact LinearProbing.Probed.empty _ _ _
  · split at init
    · simp at init
    · obtain ⟨cap, grown, rfl⟩ := Option.map_eq_some_iff.mp init
      have capPos : 0 < cap := by
        have grows : ∀ fuel start want, 0 < start →
            addedIndexCap want fuel start = some cap → 0 < cap := by
          intro fuel
          induction fuel with
          | zero => simp [addedIndexCap]
          | succ fuel ih =>
            intro start want positive run
            rw [addedIndexCap] at run
            split at run
            · split at run
              · simp at run
              · exact ih _ _ (by omega) run
            · obtain rfl := Option.some.inj run
              exact positive
        exact grows _ _ _ Nat.one_pos grown
      have vacant : ∀ pos, (List.replicate cap 0).getD pos 0 = 0 := by
        intro pos
        simp [List.getD_eq_getElem?_getD, List.getElem?_replicate]
        split <;> rfl
      have cellNone : (AddedIndex.mk (List.replicate cap 0) (cap - 1)).cell []
          = fun _ => none := by
        funext pos
        simp only [AddedIndex.cell, AddedIndex.entryAt, vacant, Option.map_none]
      refine ⟨⟨by simp, ?_, ?_, ?_, by simp, by simp⟩, ?_⟩
      · intro _
        simp only [List.length_replicate]
        omega
      · intro pos slot occupied
        rw [vacant] at occupied
        omega
      · rw [cellNone]
        exact LinearProbing.Probed.empty _ _ _
      · intro null
        rw [List.replicate_eq_nil_iff] at null
        omega

variable {added : List DeltaEntry}

private theorem find?_eq_of_nodup {e : DeltaEntry}
    (distinct : (added.map DeltaEntry.outpoint).Nodup) (member : e ∈ added)
    : added.find? (·.outpoint = e.outpoint) = some e := by
  induction added with
  | nil => simp at member
  | cons head rest ih =>
    rw [List.map_cons, List.nodup_cons] at distinct
    rcases List.mem_cons.mp member with rfl | later
    · simp
    · have differs : head.outpoint ≠ e.outpoint := fun same =>
        distinct.1 (same ▸ List.mem_map_of_mem later)
      rw [List.find?_cons_of_neg (by simpa using differs)]
      exact ih distinct.2 later

theorem AddedIndex.Indexes.lookup_eq (indexes : idx.Indexes added) (op : Outpoint)
    : addedIndexLookup idx added op = added.find? (·.outpoint = op) := by
  rw [addedIndexLookup]
  split
  · rename_i null
    simp [indexes.nullEmpty null]
  · cases outcome : idx.probe added op with
    | found pos =>
      have present := LinearProbing.seek_found outcome
      obtain ⟨entry, atPos, entryOp⟩ := Option.map_eq_some_iff.mp present
      have member : entry ∈ added := by
        rw [AddedIndex.entryAt] at atPos
        split at atPos
        · simp at atPos
        · exact List.mem_of_getElem? atPos
      simp only [atPos]
      rw [← entryOp, find?_eq_of_nodup indexes.distinct member]
    | free pos | exhausted =>
      have absent := indexes.probed.absent_of_not_found op (by
        intro pos found
        rw [AddedIndex.probe, found] at outcome
        simp at outcome)
      symm
      rw [List.find?_eq_none]
      intro e member sameOp
      obtain ⟨pos, present⟩ := indexes.complete e member
      exact absent pos (by simpa [present] using sameOp)

private theorem probe_position (op : Outpoint) (steps : Nat)
    : idx.next^[steps] (idx.home op) ≤ idx.mask := by
  cases steps with
  | zero =>
    rw [Function.iterate_zero_apply, AddedIndex.home]
    exact Nat.and_le_right
  | succ steps =>
    rw [Function.iterate_succ_apply', AddedIndex.next]
    exact Nat.and_le_right

theorem AddedIndex.Indexes.insert {idx' : AddedIndex} {e : DeltaEntry} (indexes : idx.Indexes added)
    (hasSlots : idx.slots ≠ []) (fresh : e.outpoint ∉ added.map DeltaEntry.outpoint)
    (inserted : addedIndexInsert idx (added ++ [e]) added.length = some idx')
    : idx'.Indexes (added ++ [e]) ∧ idx'.slots ≠ [] := by
  have sameCells : idx.cell (added ++ [e]) = idx.cell added := by
    funext pos
    rw [AddedIndex.cell, AddedIndex.cell, AddedIndex.entryAt, AddedIndex.entryAt]
    cases occupied : idx.slots.getD pos 0 with
    | zero => rfl
    | succ slot =>
      simp only [List.getElem?_append_left (indexes.inRange pos slot occupied)]
  have atEnd : (added ++ [e])[added.length]? = some e := by simp
  simp only [addedIndexInsert, if_neg hasSlots, atEnd, AddedIndex.probe, sameCells]
    at inserted
  have absent : ∀ pos, idx.cell added pos ≠ some e.outpoint := by
    intro pos present
    obtain ⟨entry, atPos, entryOp⟩ := Option.map_eq_some_iff.mp present
    rw [AddedIndex.entryAt] at atPos
    split at atPos
    · simp at atPos
    · exact fresh (entryOp ▸ List.mem_map_of_mem (List.mem_of_getElem? atPos))
  cases outcome : LinearProbing.seek idx.next (idx.cell added) e.outpoint (idx.mask + 1)
      (idx.home e.outpoint) with
  | found pos => exact absurd (LinearProbing.seek_found outcome) (absent pos)
  | exhausted => simp [outcome] at inserted
  | free pos =>
    simp only [outcome, Option.some.injEq] at inserted
    subst inserted
    obtain ⟨_, steps, _, arrives, _⟩ := LinearProbing.seek_free outcome
    have posBound : pos < idx.slots.length := by
      rw [indexes.size hasSlots, ← arrives]
      exact Nat.lt_succ_of_le (probe_position e.outpoint steps)
    have slotAt : ∀ other, (idx.slots.set pos (added.length + 1)).getD other 0
        = if other = pos then added.length + 1 else idx.slots.getD other 0 := by
      intro other
      rw [List.getD_eq_getElem?_getD, List.getElem?_set, List.getD_eq_getElem?_getD]
      by_cases same : other = pos
      · subst same
        simp [posBound]
      · rw [if_neg (Ne.symm same), if_neg same]
    have newCells : (AddedIndex.mk (idx.slots.set pos (added.length + 1)) idx.mask).cell
        (added ++ [e]) = Function.update (idx.cell added) pos (some e.outpoint) := by
      funext other
      rw [← sameCells, AddedIndex.cell, AddedIndex.entryAt, slotAt]
      by_cases same : other = pos
      · simp [same]
      · rw [if_neg same, Function.update_of_ne same]
        rfl
    refine ⟨⟨?_, ?_, ?_, ?_, ?_, ?_⟩, by simpa using hasSlots⟩
    · intro null
      simp_all
    · intro _
      simpa using indexes.size hasSlots
    · intro other slot occupied
      rw [slotAt] at occupied
      rw [List.length_append, List.length_singleton]
      split at occupied
      · omega
      · exact Nat.lt_succ_of_lt (indexes.inRange other slot occupied)
    · rw [newCells]
      exact indexes.probed.insert outcome
    · intro entry member
      rw [newCells]
      rcases List.mem_append.mp member with old | new
      · obtain ⟨other, present⟩ := indexes.complete entry old
        refine ⟨other, ?_⟩
        have differs : other ≠ pos := by
          rintro rfl
          rw [(LinearProbing.seek_free outcome).1] at present
          simp at present
        rw [Function.update_of_ne differs, present]
      · obtain rfl := List.mem_singleton.mp new
        exact ⟨pos, Function.update_self _ _ _⟩
    · rw [List.map_append, List.nodup_append]
      refine ⟨indexes.distinct, by simp, ?_⟩
      intro left leftMember right rightMember same
      simp only [List.map_cons, List.map_nil, List.mem_singleton] at rightMember
      exact fresh (rightMember ▸ same ▸ leftMember)

end Z23.Jobs
