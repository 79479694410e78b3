import Mathlib.Data.List.Sort
import Z23.Lib.SortedArray
import Z23.Net.DownloadQset

/-!
The bounded download queue: forward work before history, then lowest height first, with the
membership set over it. Single pushes insert at the place a binary search finds; a batch is
staged in the membership set, sorted and merged in one pass.
-/

namespace Z23.Net

open Z23.Lib Z23.Lib.SortedArray

-- Data model

/-- One index of the parallel arrays `queue`, `queue_heights`, `queue_avoid_peers`,
`queue_avoid_until` and `queue_classes`. -/
structure QueueEntry where
  hash : Uint256
  height : Int
  avoidPeer : UInt32
  avoidUntil : Int
  workClass : WorkClass
deriving DecidableEq, Repr

def QueueEntry.key (e : QueueEntry) : Uint256 × WorkClass := (e.hash, e.workClass)

/-- The queue arrays with their capacity, the membership set and the two cap counters. -/
structure BlockQueue where
  entries : List QueueEntry
  cap : Nat
  qset : Qset
  totalQueueEvicted : UInt64
  totalQueueRejected : UInt64
deriving Repr

def initialQueue : Nat := 4096

/-- An unknown height sorts behind every known one. -/
def sortKey (height : Int) : Int := if height < 0 then 9223372036854775807 else height

def queueOrder (aClass : WorkClass) (aHeight : Int) (bClass : WorkClass) (bHeight : Int) : Int :=
  if aClass ≠ bClass then
    if aClass = .forward then -1 else 1
  else
    let a := sortKey aHeight
    let b := sortKey bHeight
    if a < b then -1 else if a > b then 1 else 0

def QueueEntry.order (a b : QueueEntry) : Int :=
  queueOrder a.workClass a.height b.workClass b.height

/-- Models `struct dl_stage_item`. -/
structure StageItem where
  hash : Uint256
  height : Int
  workClass : WorkClass
deriving DecidableEq, Repr

def stageCmp (x y : StageItem) : Int := queueOrder x.workClass x.height y.workClass y.height

/-- A merged row for a staged block avoids no peer. -/
def StageItem.entry (item : StageItem) : QueueEntry :=
  { hash := item.hash, height := item.height, avoidPeer := 0, avoidUntil := 0
    workClass := item.workClass }

/-- The C library's `qsort` with `dl_stage_cmp`: the items in some order the comparison allows. -/
structure Qsort where
  sort : List StageItem → List StageItem
  perm : ∀ items, (sort items).Perm items
  sorted : ∀ items, (sort items).Pairwise fun x y => stageCmp x y ≤ 0

-- Operations

namespace BlockQueue

def keys (bq : BlockQueue) : List (Uint256 × WorkClass) := bq.entries.map QueueEntry.key

def init : BlockQueue where
  entries := []
  cap := initialQueue
  qset := ⟨List.replicate initialQsetSlots .blank, 0, 0⟩
  totalQueueEvicted := 0
  totalQueueRejected := 0

/-- Models `dl_queue_grow`; `none` is its false. -/
def grow (bq : BlockQueue) : Option BlockQueue :=
  if bq.cap ≥ dlQueueMaxCap then none
  else if bq.cap = 0 then none
  else some { bq with cap := bq.cap * 2 }

/-- The start of `dl_queue_push`: a queue with a free row, or `none` where the push is refused. -/
def makeRoom (bq : BlockQueue) (e : QueueEntry) : Option BlockQueue :=
  if bq.entries.length ≥ bq.cap then
    match bq.grow with
    | some grown => some grown
    | none =>
      match bq.entries.getLast? with
      | none => none
      | some tail =>
        if e.order tail ≥ 0 then none
        else some
          { bq with
            entries := bq.entries.dropLast
            qset := bq.qset.remove tail.hash
            totalQueueEvicted := bq.totalQueueEvicted + 1 }
  else some bq

/-- The first row whose key is strictly greater. -/
def insertPos (bq : BlockQueue) (e : QueueEntry) : Nat :=
  search (fun mid => (bq.entries[mid]?).any fun row => row.order e ≤ 0)
    bq.entries.length 0 bq.entries.length

/-- The end of `dl_queue_push`: reserve, insert in order, enter the membership set. -/
def place (bq : BlockQueue) (e : QueueEntry) : BlockQueue :=
  { bq with
    entries := insertAt bq.entries (bq.insertPos e) e
    qset := (bq.qset.reserveOne bq.keys).insertRaw e.hash e.workClass }

/-- Models `dl_queue_push`. -/
def push (bq : BlockQueue) (e : QueueEntry) : BlockQueue × Bool :=
  if bq.qset.contains e.hash then (bq, false)
  else
    match bq.makeRoom e with
    | none => ({ bq with totalQueueRejected := bq.totalQueueRejected + 1 }, false)
    | some roomy => (roomy.place e, true)

/-- Models `dl_qset_remove` of a hash followed by `dl_queue_remove_at` of its row. -/
def withdraw (bq : BlockQueue) (hash : Uint256) (idx : Nat) : BlockQueue :=
  { bq with entries := bq.entries.eraseIdx idx, qset := bq.qset.remove hash }

/-- Models `dl_promote_queued_history`; `height` is `none` for the null pointer. -/
def promoteHistory (bq : BlockQueue) (hash : Uint256) (height : Option Int) : BlockQueue × Bool :=
  match bq.entries.findIdx? (fun row => row.hash = hash ∧ row.workClass = .history) with
  | none => (bq, false)
  | some j =>
    let queuedHeight := height.getD ((bq.entries[j]?).elim 0 QueueEntry.height)
    (bq.withdraw hash j).push
      { hash, height := queuedHeight, avoidPeer := 0, avoidUntil := 0, workClass := .forward }

/-- The growth loop of `dl_queue_blocks_class`; `fuel` bounds the turns. -/
def growTo (need : Nat) : Nat → BlockQueue → BlockQueue
  | 0, bq => bq
  | fuel + 1, bq =>
    if need > bq.cap then
      match bq.grow with
      | none => bq
      | some grown => growTo need fuel grown
    else bq

/-- Models `dl_merge_fill`. -/
def mergeFill (bq : BlockQueue) (stage : List StageItem) : List QueueEntry :=
  merge (fun a b => a.order b < 0) (bq.entries.length + stage.length) bq.entries
    (stage.map StageItem.entry)

/-- Models `dl_merge_keep`: the rows past the capacity leave the membership set. -/
def mergeKeep (bq : BlockQueue) (stage : List StageItem) (rows : List QueueEntry)
    : BlockQueue × Nat :=
  let total := bq.entries.length + stage.length
  let keep := if total > bq.cap then bq.cap else total
  let dropped := rows.drop keep
  let after :=
    { bq with
      entries := rows.take keep
      qset := dropped.foldl (fun q row => q.remove row.hash) bq.qset
      totalQueueEvicted := bq.totalQueueEvicted + UInt64.ofNat dropped.length }
  let added :=
    if total > keep then stage.countP fun item => after.qset.contains item.hash
    else stage.length
  (after, added)

/-- Models `dl_merge_staged_or_push` where its allocations succeed. -/
def mergeStaged (bq : BlockQueue) (stage : List StageItem) : BlockQueue × Nat :=
  bq.mergeKeep stage (bq.mergeFill stage)

def clear (bq : BlockQueue) : BlockQueue := { bq with entries := [], qset := bq.qset.clear }

end BlockQueue

-- The queue order

/-- `a` may stand before `b`. -/
def QueueEntry.Before (a b : QueueEntry) : Prop := a.order b ≤ 0

theorem QueueEntry.Before.trans {a b c : QueueEntry} (ab : a.Before b) (bc : b.Before c)
    : a.Before c := by
  revert ab bc
  unfold Before order queueOrder
  cases a.workClass <;> cases b.workClass <;> cases c.workClass <;> grind

theorem QueueEntry.before_of_not_lt {a b : QueueEntry} (notFirst : ¬ a.order b < 0)
    : b.Before a := by
  revert notFirst
  unfold Before order queueOrder
  cases a.workClass <;> cases b.workClass <;> grind

theorem QueueEntry.before_of_not_le {a b : QueueEntry} (notBefore : ¬ a.order b ≤ 0)
    : b.Before a :=
  before_of_not_lt fun first => notBefore (le_of_lt first)

/-- One way a `qsort` can sort the staged items. -/
def Qsort.insertion : Qsort where
  sort := fun items => items.insertionSort fun x y => stageCmp x y ≤ 0
  perm := List.perm_insertionSort _
  sorted := by
    have total : Std.Total fun x y : StageItem => stageCmp x y ≤ 0 :=
      ⟨fun x y => by
        by_cases before : stageCmp x y ≤ 0
        · exact .inl before
        · exact .inr (@QueueEntry.before_of_not_le x.entry y.entry before)⟩
    have trans : IsTrans StageItem fun x y => stageCmp x y ≤ 0 :=
      ⟨fun x y z xy yz => @QueueEntry.Before.trans x.entry y.entry z.entry xy yz⟩
    exact List.pairwise_insertionSort _

-- What the queue keeps

/-- The rows are sorted and bounded, and the membership set holds exactly the rows and the
staged hashes. -/
structure BlockQueue.Holds (bq : BlockQueue) (staged : List (Uint256 × WorkClass)) : Prop where
  qset : bq.qset.Holds (bq.keys ++ staged)
  roomy : bq.qset.Roomy 0
  sorted : bq.entries.Pairwise QueueEntry.Before
  bounded : bq.entries.length ≤ bq.cap
  capacity : 0 < bq.cap

namespace BlockQueue

variable {bq : BlockQueue} {staged : List (Uint256 × WorkClass)} {e : QueueEntry}

theorem init_holds : init.Holds [] where
  qset := Qset.Holds.empty 12
  roomy := by
    have cells : init.qset.slots.length = 8192 := List.length_replicate
    rw [Qset.Roomy, cells]
    decide
  sorted := List.Pairwise.nil
  bounded := Nat.zero_le _
  capacity := by decide

theorem Holds.perm (holds : bq.Holds staged) {other : List (Uint256 × WorkClass)}
    (same : staged.Perm other)
    : bq.Holds other :=
  ⟨holds.qset.perm (same.append_left _), holds.roomy, holds.sorted, holds.bounded,
    holds.capacity⟩

theorem Holds.nodup (holds : bq.Holds staged) : (bq.entries.map QueueEntry.hash).Nodup := by
  have once := holds.qset.once
  rw [List.map_append] at once
  have left := once.of_append_left
  rwa [keys, List.map_map] at left

theorem Holds.contains_of_mem (holds : bq.Holds staged) {row : QueueEntry}
    (member : row ∈ bq.entries)
    : bq.qset.contains row.hash = true :=
  holds.qset.contains_iff.mpr
    ⟨row.workClass, List.mem_append_left _ (List.mem_map_of_mem member)⟩

theorem Holds.mem_of_contains (holds : bq.Holds []) {hash : Uint256}
    (known : bq.qset.contains hash = true)
    : ∃ row ∈ bq.entries, row.hash = hash := by
  obtain ⟨workClass, member⟩ := holds.qset.contains_iff.mp known
  rw [List.append_nil] at member
  obtain ⟨row, known, same⟩ := List.mem_map.mp member
  exact ⟨row, known, congrArg Prod.fst same⟩

theorem Holds.absent (holds : bq.Holds staged) {hash : Uint256}
    (unknown : ¬ bq.qset.contains hash = true) (workClass : WorkClass)
    : (hash, workClass) ∉ bq.keys ++ staged := fun member =>
  unknown (holds.qset.contains_iff.mpr ⟨workClass, member⟩)

-- Withdrawing a row

theorem keys_perm_of_getElem? (staged : List (Uint256 × WorkClass)) {idx : Nat}
    (row : bq.entries[idx]? = some e)
    : (bq.keys ++ staged).Perm
        (e.key :: ((bq.entries.eraseIdx idx).map QueueEntry.key ++ staged)) := by
  obtain ⟨inside, rfl⟩ := List.getElem?_eq_some_iff.mp row
  have split := (List.getElem_cons_eraseIdx_perm inside).symm.map QueueEntry.key
  exact split.append_right staged

theorem Holds.withdraw (holds : bq.Holds staged) {idx : Nat} (row : bq.entries[idx]? = some e)
    : (bq.withdraw e.hash idx).Holds staged
        ∧ (bq.withdraw e.hash idx).entries.length < (bq.withdraw e.hash idx).cap
        ∧ (bq.withdraw e.hash idx).qset.load = bq.qset.load
        ∧ (bq.withdraw e.hash idx).qset.slots.length = bq.qset.slots.length := by
  obtain ⟨after, capacity, same⟩ := holds.qset.remove_cons (keys_perm_of_getElem? staged row)
  obtain ⟨inside, -⟩ := List.getElem?_eq_some_iff.mp row
  have shorter : (bq.entries.eraseIdx idx).length + 1 = bq.entries.length := by
    rw [List.length_eraseIdx_of_lt inside]
    omega
  have bounded := holds.bounded
  refine ⟨⟨after, ?_, holds.sorted.sublist (List.eraseIdx_sublist _ _), ?_, holds.capacity⟩, ?_,
    same, capacity⟩
  · have roomy := holds.roomy
    rw [Qset.Roomy] at roomy ⊢
    rw [BlockQueue.withdraw, same, capacity]
    exact roomy
  · rw [BlockQueue.withdraw]
    dsimp only
    omega
  · rw [BlockQueue.withdraw]
    dsimp only
    omega

theorem Holds.withdraw_absent (holds : bq.Holds staged) {idx : Nat}
    (row : bq.entries[idx]? = some e)
    : (bq.withdraw e.hash idx).qset.contains e.hash = false := by
  refine (holds.withdraw row).1.qset.contains_eq_false ?_
  intro workClass member
  have once := (keys_perm_of_getElem? staged row).map Prod.fst |>.nodup_iff.mp
    holds.qset.once
  rw [List.map_cons, List.nodup_cons] at once
  exact once.1 (List.mem_map.mpr ⟨_, member, rfl⟩)

-- Pushing a row

/-- The binary search ends behind the rows that may stand before the new one. -/
theorem insertPos_spec (sorted : bq.entries.Pairwise QueueEntry.Before) (e : QueueEntry)
    : (∀ i (inside : i < bq.entries.length), i < bq.insertPos e → bq.entries[i].Before e)
        ∧ ∀ i (inside : i < bq.entries.length), bq.insertPos e ≤ i →
            ¬ bq.entries[i].order e ≤ 0 := by
  have low : ∀ i (inside : i < bq.entries.length),
      ((bq.entries[i]?).any fun row => row.order e ≤ 0) = true ↔ bq.entries[i].Before e := by
    intro i inside
    rw [List.getElem?_eq_getElem inside]
    simp [QueueEntry.Before]
  have falling : ∀ i j, i ≤ j → j < bq.entries.length →
      ((bq.entries[j]?).any fun row => row.order e ≤ 0) = true →
      ((bq.entries[i]?).any fun row => row.order e ≤ 0) = true := by
    intro i j le inside holds
    rw [low j inside] at holds
    rw [low i (by omega)]
    rcases Nat.eq_or_lt_of_le le with rfl | lt
    · exact holds
    · exact (List.pairwise_iff_getElem.mp sorted i j (by omega) inside lt).trans holds
  obtain ⟨-, -, under, above⟩ := search_spec (Nat.zero_le bq.entries.length)
    (Nat.sub_le _ _) falling
  constructor
  · intro i inside before
    exact (low i inside).mp (under i (Nat.zero_le i) before)
  · intro i inside after before
    exact above i after inside ((low i inside).mpr before)

theorem Holds.place (holds : bq.Holds staged) (free : bq.entries.length < bq.cap)
    (absent : ∀ workClass, (e.hash, workClass) ∉ bq.keys ++ staged) {more : Nat}
    (reserved : (bq.qset.reserveOne bq.keys).Holds (bq.keys ++ staged))
    (room : (bq.qset.reserveOne bq.keys).Roomy (more + 1))
    : (bq.place e).Holds staged ∧ (bq.place e).qset.Roomy more := by
  have inserted := reserved.insertRaw absent room.live_lt e.workClass
  have left := room.insertRaw e.hash e.workClass
  have rows := (insertAt_perm bq.entries (bq.insertPos e) e)
  obtain ⟨under, above⟩ := insertPos_spec holds.sorted e
  refine ⟨⟨?_, left.mono (Nat.zero_le _), ?_, ?_, holds.capacity⟩, left⟩
  · exact inserted.perm ((rows.map QueueEntry.key).append_right staged).symm
  · refine insertAt_pairwise holds.sorted under ?_
    intro i inside after
    exact QueueEntry.before_of_not_le (above i inside after)
  · have longer := rows.length_eq
    rw [List.length_cons] at longer
    rw [BlockQueue.place]
    dsimp only
    omega

theorem mem_place {row : QueueEntry} (member : row ∈ (bq.place e).entries)
    : row = e ∨ row ∈ bq.entries :=
  List.mem_cons.mp ((insertAt_perm _ _ e).mem_iff.mp member)

/-- How a push leaves the queue. -/
structure Pushed (bq : BlockQueue) (e : QueueEntry) (staged : List (Uint256 × WorkClass))
    (result : BlockQueue × Bool) : Prop where
  holds : result.1.Holds staged
  mem : ∀ row ∈ result.1.entries, row = e ∨ row ∈ bq.entries
  refused : result.2 = false → result.1.entries = bq.entries

/-- A free row is found by growing, by dropping the last row or not at all. -/
theorem Holds.makeRoom (holds : bq.Holds []) {roomy : BlockQueue}
    (made : bq.makeRoom e = some roomy)
    : roomy.Holds [] ∧ roomy.entries.length < roomy.cap ∧ roomy.entries.Sublist bq.entries := by
  rw [BlockQueue.makeRoom] at made
  split at made
  · rename_i full
    split at made
    · rename_i grown grows
      obtain rfl := Option.some.inj made
      rw [grow] at grows
      split at grows
      · cases grows
      · split at grows
        · cases grows
        · obtain rfl := Option.some.inj grows
          have bounded := holds.bounded
          have positive := holds.capacity
          refine ⟨⟨holds.qset, holds.roomy, holds.sorted, ?_, ?_⟩, ?_, List.Sublist.refl _⟩
            <;> dsimp only <;> omega
    · split at made
      · cases made
      · rename_i tail last
        split at made
        · cases made
        · obtain rfl := Option.some.inj made
          have row : bq.entries[bq.entries.length - 1]? = some tail := by
            rw [← last, List.getLast?_eq_getElem?]
          obtain ⟨dropped, free, -⟩ := holds.withdraw row
          have rows : bq.entries.eraseIdx (bq.entries.length - 1) = bq.entries.dropLast :=
            List.eraseIdx_length_sub_one
          rw [BlockQueue.withdraw, rows] at dropped free
          refine ⟨⟨dropped.qset, dropped.roomy, dropped.sorted, dropped.bounded, dropped.capacity⟩,
            free, List.dropLast_sublist _⟩
  · obtain rfl := Option.some.inj made
    exact ⟨holds, by omega, List.Sublist.refl _⟩

theorem push_of_contains (known : bq.qset.contains e.hash = true) : bq.push e = (bq, false) :=
  if_pos known

theorem Holds.push (holds : bq.Holds []) (e : QueueEntry) : Pushed bq e [] (bq.push e) := by
  by_cases known : bq.qset.contains e.hash = true
  · rw [push_of_contains known]
    exact ⟨holds, fun _ => .inr, fun _ => rfl⟩
  · rw [BlockQueue.push, if_neg known]
    cases made : bq.makeRoom e with
    | none =>
      dsimp only
      refine ⟨?_, fun _ => .inr, fun _ => rfl⟩
      exact ⟨holds.qset, holds.roomy, holds.sorted, holds.bounded, holds.capacity⟩
    | some roomy =>
      obtain ⟨after, free, sub⟩ := holds.makeRoom made
      have reserved := after.qset
      rw [List.append_nil] at reserved
      obtain ⟨kept, room⟩ := reserved.reserveOne after.roomy
      have absent : ∀ workClass, (e.hash, workClass) ∉ roomy.keys ++ [] := by
        intro workClass member
        rw [List.append_nil] at member
        apply holds.absent known workClass
        exact List.mem_append_left _ ((sub.map QueueEntry.key).mem member)
      have placed := after.place free absent (by rwa [List.append_nil]) room
      refine ⟨placed.1, ?_, fun refused => ?_⟩
      · intro row member
        exact (mem_place member).imp_right fun old => sub.mem old
      · cases refused

/-- A push while a batch is staged: a free row and a reserved cell are there, so nothing is
rebuilt and nothing is refused. -/
theorem Holds.push_staged (holds : bq.Holds staged) (free : bq.entries.length < bq.cap)
    (unknown : bq.qset.contains e.hash = false) {more : Nat} (room : bq.qset.Roomy (more + 1))
    : Pushed bq e staged (bq.push e) ∧ (bq.push e).1.qset.Roomy more ∧ (bq.push e).2 = true := by
  have fits : bq.makeRoom e = some bq := if_neg (Nat.not_le.mpr free)
  have pushed : bq.push e = (bq.place e, true) := by
    rw [BlockQueue.push, if_neg (by rw [unknown]; exact Bool.false_ne_true), fits]
  have still := Qset.reserveOne_of_roomy (room.mono (by omega)) bq.keys
  have missing : ¬ bq.qset.contains e.hash = true := by simp [unknown]
  have absent := holds.absent missing
  obtain ⟨after, left⟩ := holds.place free absent (by rw [still]; exact holds.qset)
    (by rw [still]; exact room)
  rw [pushed]
  refine ⟨⟨after, fun row => mem_place, fun refused => ?_⟩, left, rfl⟩
  cases refused

theorem Holds.promoteHistory (holds : bq.Holds staged) {hash : Uint256}
    (queued : (hash, .history) ∈ bq.keys) (height : Option Int) {more : Nat}
    (room : bq.qset.Roomy (more + 1))
    : (bq.promoteHistory hash height).1.Holds staged
        ∧ (bq.promoteHistory hash height).1.qset.Roomy more
        ∧ (bq.promoteHistory hash height).2 = true
        ∧ ∀ row ∈ (bq.promoteHistory hash height).1.entries,
            row.hash = hash ∨ row ∈ bq.entries := by
  obtain ⟨row, member, same⟩ := List.mem_map.mp queued
  have fits : decide (row.hash = hash ∧ row.workClass = .history) = true :=
    decide_eq_true (Prod.mk.inj same)
  rw [BlockQueue.promoteHistory]
  cases found : bq.entries.findIdx? fun row => row.hash = hash ∧ row.workClass = .history with
  | none => exact absurd fits (by simpa using List.findIdx?_eq_none_iff.mp found row member)
  | some j =>
    obtain ⟨inside, here, -⟩ := List.findIdx?_eq_some_iff_getElem.mp found
    obtain ⟨sameHash, -⟩ := of_decide_eq_true here
    have at_ : bq.entries[j]? = some bq.entries[j] := List.getElem?_eq_getElem inside
    obtain ⟨out, free, load, cells⟩ := holds.withdraw at_
    have absent := holds.withdraw_absent at_
    rw [sameHash] at out free load cells absent
    have roomy : (bq.withdraw hash j).qset.Roomy (more + 1) := by
      rw [Qset.Roomy, load, cells]
      exact room
    dsimp only
    generalize height.getD ((bq.entries[j]?).elim 0 QueueEntry.height) = queuedHeight
    have pushed := out.push_staged free (e := ⟨hash, queuedHeight, 0, 0, .forward⟩) absent roomy
    refine ⟨pushed.1.holds, pushed.2.1, pushed.2.2, ?_⟩
    intro row member
    rcases pushed.1.mem row member with rfl | old
    · exact .inl rfl
    · exact .inr (List.mem_of_mem_eraseIdx old)

-- Merging a staged batch

theorem Holds.stage (holds : bq.Holds staged) {hash : Uint256}
    (unknown : bq.qset.contains hash = false) {more : Nat} (room : bq.qset.Roomy (more + 1))
    (workClass : WorkClass)
    : ({ bq with qset := bq.qset.insertRaw hash workClass } : BlockQueue).Holds
          ((hash, workClass) :: staged)
        ∧ (bq.qset.insertRaw hash workClass).Roomy more := by
  have missing : ¬ bq.qset.contains hash = true := by simp [unknown]
  have inserted := holds.qset.insertRaw (holds.absent missing) room.live_lt workClass
  have left := room.insertRaw hash workClass
  refine ⟨⟨inserted.perm List.perm_middle.symm, left.mono (Nat.zero_le _), holds.sorted,
    holds.bounded, holds.capacity⟩, left⟩

/-- Room for a whole batch is made before its first hash is staged. -/
theorem Holds.reserve (holds : bq.Holds []) {count : Nat} (bounded : count ≤ dlQueueMaxCap * 2)
    : ({ bq with qset := bq.qset.reserveN bq.keys count } : BlockQueue).Holds []
        ∧ (bq.qset.reserveN bq.keys count).Roomy (count + 1) := by
  have known := holds.qset
  rw [List.append_nil] at known
  obtain ⟨reserved, room⟩ := known.reserveN bounded
  refine ⟨⟨?_, room.mono (Nat.zero_le _), holds.sorted, holds.bounded, holds.capacity⟩, room⟩
  rw [List.append_nil]
  exact reserved

theorem Holds.growTo (holds : bq.Holds staged) (need fuel : Nat)
    : (bq.growTo need fuel).Holds staged ∧ (bq.growTo need fuel).entries = bq.entries := by
  induction fuel generalizing bq with
  | zero => exact ⟨holds, rfl⟩
  | succ fuel ih =>
    rw [BlockQueue.growTo]
    split
    · cases grows : bq.grow with
      | none => exact ⟨holds, rfl⟩
      | some grown =>
        have same : grown.entries = bq.entries ∧ grown.qset = bq.qset
            ∧ grown.cap = bq.cap * 2 := by
          rw [grow] at grows
          split at grows
          · cases grows
          · split at grows
            · cases grows
            · obtain rfl := Option.some.inj grows
              exact ⟨rfl, rfl, rfl⟩
        obtain ⟨rows, set, cap⟩ := same
        have bounded := holds.bounded
        have positive := holds.capacity
        have next : grown.Holds staged := by
          refine ⟨?_, ?_, ?_, ?_, ?_⟩
          · rw [keys, rows, set]
            exact holds.qset
          · rw [set]
            exact holds.roomy
          · rw [rows]
            exact holds.sorted
          · rw [rows, cap]
            omega
          · omega
        obtain ⟨after, kept⟩ := ih next
        exact ⟨after, kept.trans rows⟩
    · exact ⟨holds, rfl⟩

theorem removeAll_holds {q : Qset} {members rest : List (Uint256 × WorkClass)}
    {dropped : List QueueEntry} (holds : q.Holds members)
    (parts : members.Perm (dropped.map QueueEntry.key ++ rest))
    : let after := dropped.foldl (fun q row => q.remove row.hash) q
      after.Holds rest ∧ after.slots.length = q.slots.length ∧ after.load = q.load := by
  induction dropped generalizing q members with
  | nil => exact ⟨holds.perm parts, rfl, rfl⟩
  | cons row dropped ih =>
    have head : members.Perm ((row.hash, row.workClass)
        :: (dropped.map QueueEntry.key ++ rest)) := parts
    obtain ⟨next, cells, load⟩ := holds.remove_cons head
    obtain ⟨after, cells', load'⟩ := ih next (List.Perm.refl _)
    exact ⟨after, cells'.trans cells, load'.trans load⟩

theorem mergeFill_perm (bq : BlockQueue) (stage : List StageItem)
    : (bq.mergeFill stage).Perm (bq.entries ++ stage.map StageItem.entry) :=
  merge_perm _ (by rw [List.length_map])

theorem mergeFill_sorted (sorted : bq.entries.Pairwise QueueEntry.Before) {stage : List StageItem}
    (ordered : stage.Pairwise fun x y => stageCmp x y ≤ 0)
    : (bq.mergeFill stage).Pairwise QueueEntry.Before := by
  refine merge_pairwise (fun ab bc => ab.trans bc) (fun first => ?_) (fun second => ?_)
    (by rw [List.length_map]) sorted ?_
  · exact le_of_lt (of_decide_eq_true first)
  · exact QueueEntry.before_of_not_lt fun lt => second (decide_eq_true lt)
  · exact List.pairwise_map.mpr ordered

/-- How merging a staged batch leaves the queue. -/
structure Merged (bq : BlockQueue) (stage : List StageItem) (result : BlockQueue × Nat) : Prop where
  holds : result.1.Holds []
  mem : ∀ row ∈ result.1.entries, row ∈ bq.entries ∨ ∃ item ∈ stage, row = item.entry
  unchanged : stage ≠ [] → result.2 = 0 → ∀ row ∈ result.1.entries, row ∈ bq.entries

theorem Holds.mergeStaged (holds : bq.Holds staged) {stage : List StageItem}
    (same : (stage.map fun item => (item.hash, item.workClass)).Perm staged)
    (ordered : stage.Pairwise fun x y => stageCmp x y ≤ 0)
    : Merged bq stage (bq.mergeStaged stage) := by
  have rows := bq.mergeFill_perm stage
  have sorted := mergeFill_sorted holds.sorted ordered
  have length : (bq.mergeFill stage).length = bq.entries.length + stage.length := by
    rw [rows.length_eq, List.length_append, List.length_map]
  rw [BlockQueue.mergeStaged, mergeKeep]
  generalize bq.mergeFill stage = filled at rows sorted length
  dsimp only
  generalize chosen : (if bq.entries.length + stage.length > bq.cap then bq.cap
    else bq.entries.length + stage.length) = keep
  have members : (bq.keys ++ staged).Perm
      ((filled.drop keep).map QueueEntry.key ++ (filled.take keep).map QueueEntry.key) := by
    calc (bq.keys ++ staged).Perm
          (bq.keys ++ stage.map fun item => (item.hash, item.workClass)) :=
          same.symm.append_left _
      _ |>.Perm ((bq.entries ++ stage.map StageItem.entry).map QueueEntry.key) := by
          rw [List.map_append, List.map_map]
          exact List.Perm.refl _
      _ |>.Perm (filled.map QueueEntry.key) := (rows.map _).symm
      _ |>.Perm ((filled.take keep).map QueueEntry.key
            ++ (filled.drop keep).map QueueEntry.key) := by
          rw [← List.map_append, List.take_append_drop]
      _ |>.Perm ((filled.drop keep).map QueueEntry.key
            ++ (filled.take keep).map QueueEntry.key) := List.perm_append_comm
  obtain ⟨kept, cells, load⟩ := removeAll_holds holds.qset members
  have positive := holds.capacity
  have after : ({ bq with
        entries := filled.take keep
        qset := (filled.drop keep).foldl (fun q row => q.remove row.hash) bq.qset
        totalQueueEvicted := bq.totalQueueEvicted + UInt64.ofNat (filled.drop keep).length }
        : BlockQueue).Holds [] := by
    refine ⟨?_, ?_, sorted.sublist (List.take_sublist _ _), ?_, holds.capacity⟩
    · rw [List.append_nil]
      exact kept
    · have roomy := holds.roomy
      rw [Qset.Roomy] at roomy ⊢
      rw [cells, load]
      exact roomy
    · dsimp only
      rw [List.length_take]
      split at chosen <;> omega
  have known : ∀ row ∈ filled.take keep, row ∈ bq.entries ∨ ∃ item ∈ stage, row = item.entry := by
    intro row member
    rcases List.mem_append.mp (rows.mem_iff.mp (List.mem_of_mem_take member)) with old | new
    · exact .inl old
    · obtain ⟨item, inStage, rfl⟩ := List.mem_map.mp new
      exact .inr ⟨item, inStage, rfl⟩
  refine ⟨after, known, ?_⟩
  intro some none row member
  rcases known row member with old | ⟨item, inStage, rfl⟩
  · exact old
  · exfalso
    have contained := after.contains_of_mem member
    split at none
    · rw [List.countP_eq_zero] at none
      exact none item inStage contained
    · exact some (List.length_eq_zero_iff.mp none)

theorem Holds.clear (holds : bq.Holds staged) : bq.clear.Holds [] := by
  obtain ⟨empty, roomy⟩ := holds.qset.clear
  exact ⟨empty, roomy, List.Pairwise.nil, Nat.zero_le _, holds.capacity⟩

end BlockQueue

end Z23.Net
