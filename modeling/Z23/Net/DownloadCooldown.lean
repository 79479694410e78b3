import Z23.Net.DownloadAttempt

/-!
What an attempt that assigns nothing has seen: it changed nothing, every row it did not leave out
avoids the peer, and the earliest of their deadlines is the one it waits for.
-/

namespace Z23.Net

open DownloadManager

variable {dm : DownloadManager} {peerId : UInt32} {now : Int}

-- The earliest deadline

/-- The bookkeeping after a list of avoided rows. -/
def noteAll (a : Avoidance) (rows : List QueueEntry) : Avoidance :=
  rows.foldl (fun a row => a.note row.avoidUntil) a

theorem noteAll_append (a : Avoidance) (rows later : List QueueEntry)
    : noteAll a (rows ++ later) = noteAll (noteAll a rows) later :=
  List.foldl_append

/-- Some row's positive deadline, and no row's is earlier. -/
structure Earliest (a : Avoidance) (rows : List QueueEntry) : Prop where
  blocked : a.blocked = true
  positive : 0 < a.retryAfter
  first : ∀ row ∈ rows, a.retryAfter ≤ row.avoidUntil

theorem Earliest.note {a : Avoidance} {rows : List QueueEntry} (before : Earliest a rows)
    {row : QueueEntry} (positive : 0 < row.avoidUntil)
    : Earliest (a.note row.avoidUntil) (rows ++ [row]) := by
  have known := before.positive
  have bounds : (a.note row.avoidUntil).retryAfter ≤ a.retryAfter
      ∧ (a.note row.avoidUntil).retryAfter ≤ row.avoidUntil
      ∧ 0 < (a.note row.avoidUntil).retryAfter := by
    dsimp only [Avoidance.note]
    split <;> omega
  refine ⟨rfl, bounds.2.2, fun other member => ?_⟩
  rcases List.mem_append.mp member with old | new
  · exact Int.le_trans bounds.1 (before.first other old)
  · rw [List.mem_singleton.mp new]
    exact bounds.2.1

theorem Earliest.noteAll {a : Avoidance} {noted : List QueueEntry} (before : Earliest a noted)
    {rows : List QueueEntry} (positive : ∀ row ∈ rows, 0 < row.avoidUntil)
    : Earliest (noteAll a rows) (noted ++ rows) := by
  induction rows generalizing a noted with
  | nil =>
    rw [List.append_nil]
    exact before
  | cons row rest ih =>
    have next := ih (before.note (positive row List.mem_cons_self))
      (List.forall_mem_cons.mp positive).2
    rw [List.append_assoc] at next
    exact next

theorem earliest_of_noted {rows : List QueueEntry}
    (positive : ∀ row ∈ rows, 0 < row.avoidUntil) (blocked : (noteAll {} rows).blocked = true)
    : Earliest (noteAll {} rows) rows := by
  cases rows with
  | nil => cases blocked
  | cons row rest =>
    have first : Earliest (Avoidance.note {} row.avoidUntil) [row] := by
      refine ⟨rfl, positive row List.mem_cons_self, fun other member => ?_⟩
      rw [List.mem_singleton.mp member]
      exact Int.le_refl _
    exact first.noteAll (List.forall_mem_cons.mp positive).2

-- Scans that pick nothing

/-- A history row for which there is no room. -/
def throttled (historyAvailable : Nat) (row : QueueEntry) : Bool :=
  row.isHistory && historyAvailable == 0

theorem collectPicks_none (entries : List QueueEntry) {available : Nat} (room : 0 < available)
    (historyAvailable : Nat) {indices : List Nat}
    (within : ∀ i ∈ indices, i < entries.length) (a : Avoidance)
    (none : (collectPicks entries peerId now available historyAvailable indices
      ⟨[], 0, a⟩).picks = [])
    : collectPicks entries peerId now available historyAvailable indices ⟨[], 0, a⟩
          = ⟨[], 0, noteAll a ((indices.filterMap (entries[·]?)).filter fun row =>
              !throttled historyAvailable row)⟩
        ∧ ∀ row ∈ indices.filterMap (entries[·]?),
            row.avoids peerId now ∨ throttled historyAvailable row := by
  induction indices generalizing a with
  | nil => exact ⟨rfl, fun row member => absurd member List.not_mem_nil⟩
  | cons i rest ih =>
    obtain ⟨row, read⟩ : ∃ row, entries[i]? = some row :=
      ⟨_, List.getElem?_eq_getElem (within i List.mem_cons_self)⟩
    have later := (List.forall_mem_cons.mp within).2
    rw [collectPicks, List.foldl_cons] at none ⊢
    rw [List.filterMap_cons, read]
    dsimp only
    have turn : collectPick entries peerId now available historyAvailable ⟨[], 0, a⟩ i
        = if throttled historyAvailable row then ⟨[], 0, a⟩
          else if row.avoids peerId now then ⟨[], 0, a.note row.avoidUntil⟩
          else ⟨[i], if row.isHistory then 1 else 0, a⟩ := by
      rw [collectPick, read]
      dsimp only [List.length_nil]
      rw [if_pos room]
      cases historyAvailable with
      | zero => cases history : row.isHistory <;> simp [throttled, history]
      | succ more => simp [throttled]
    rw [turn] at none ⊢
    cases left : throttled historyAvailable row with
    | true =>
      rw [left] at none
      obtain ⟨scan, blocked⟩ := ih later a none
      rw [List.filter_cons_of_neg (by simp [left])]
      refine ⟨scan, fun other member => ?_⟩
      rcases List.mem_cons.mp member with rfl | old
      · exact .inr left
      · exact blocked other old
    | false =>
      rw [left] at none
      cases avoids : row.avoids peerId now with
      | true =>
        rw [avoids] at none
        obtain ⟨scan, blocked⟩ := ih later (a.note row.avoidUntil) none
        rw [List.filter_cons_of_pos (by simp [left])]
        refine ⟨scan, fun other member => ?_⟩
        rcases List.mem_cons.mp member with rfl | old
        · exact .inl avoids
        · exact blocked other old
      | false =>
        rw [avoids] at none
        obtain ⟨new, split, -⟩ := collectPicks_sublist entries peerId now available
          historyAvailable rest ⟨[i], if row.isHistory then 1 else 0, a⟩
        rw [if_neg Bool.false_ne_true, if_neg Bool.false_ne_true] at none
        rw [collectPicks, none] at split
        cases split

theorem scanQueueForPeer_avoided {entries : List QueueEntry} {count i : Nat}
    (inside : i + count ≤ entries.length)
    (avoided : ∀ row ∈ (entries.drop i).take count, row.avoids peerId now = true) (a : Avoidance)
    : scanQueueForPeer entries peerId now count i a
        = (i + count, noteAll a ((entries.drop i).take count)) := by
  induction count generalizing i a with
  | zero =>
    rw [List.take_zero]
    rfl
  | succ count ih =>
    have here : i < entries.length := by omega
    rw [List.drop_eq_getElem_cons here, List.take_succ_cons] at avoided ⊢
    rw [scanQueueForPeer, List.getElem?_eq_getElem here]
    dsimp only
    rw [if_pos (avoided _ List.mem_cons_self), ih (by omega)
      (List.forall_mem_cons.mp avoided).2, Nat.add_right_comm,
      Nat.add_assoc]
    rfl

-- Attempts that assign nothing

/-- An outcome with no assignment: if avoided rows were noted, they are all the rows that are not
throttled. -/
structure Unassigned (entries : List QueueEntry) (peerId : UInt32) (now : Int)
    (historyAvailable : Nat) (outcome : AssignOutcome)
    : Prop where
  unattempted : outcome.attemptedSlot = false
  noted
    : outcome.avoidance.blocked = true →
        ∃ rows, outcome.avoidance = noteAll {} rows
          ∧ (∀ row ∈ rows, row ∈ entries ∧ row.avoids peerId now = true
              ∧ throttled historyAvailable row = false)
          ∧ ∀ row ∈ entries, row ∈ rows ∨ throttled historyAvailable row = true

/-- An attempt that assigned nothing leaves the manager as it was. -/
structure Idle (dm : DownloadManager) (peerId : UInt32) (now : Int) (historyAvailable : Nat)
    (attempt : DownloadManager × AssignOutcome)
    : Prop extends Unassigned dm.queue.entries peerId now historyAvailable attempt.2 where
  same : attempt.1 = dm

theorem Idle.untouched {historyAvailable : Nat} : Idle dm peerId now historyAvailable (dm, {}) :=
  ⟨⟨rfl, fun blocked => absurd blocked Bool.false_ne_true⟩, rfl⟩

theorem batchScan_none (entries : List QueueEntry) {available : Nat} (room : 0 < available)
    (historyAvailable : Nat) {clamp : Nat} (inside : clamp ≤ entries.length)
    (none : (batchScan entries peerId now available historyAvailable clamp).picks = [])
    : (batchScan entries peerId now available historyAvailable clamp).avoidance
          = noteAll {} ((scanOrder clamp entries).filter fun row => !throttled historyAvailable row)
        ∧ ∀ row ∈ scanOrder clamp entries,
            row.avoids peerId now ∨ throttled historyAvailable row := by
  obtain ⟨beyond, reserve, high, low⟩ := batch_ranges entries inside
  rw [batchScan] at none ⊢
  have first : (collectPicks entries peerId now available historyAvailable
      (List.range' clamp (entries.length - clamp)) {}).picks = [] := by
    split at none
    · obtain ⟨new, split, -⟩ := collectPicks_sublist entries peerId now available historyAvailable
        (List.range' 0 clamp) (collectPicks entries peerId now available historyAvailable
          (List.range' clamp (entries.length - clamp)) {})
      rw [none] at split
      exact (List.append_eq_nil_iff.mp split.symm).1
    · exact none
  obtain ⟨scan, blocked⟩ := collectPicks_none entries room historyAvailable high {} first
  rw [beyond] at scan blocked
  rw [scan] at none ⊢
  dsimp only [List.length_nil] at none ⊢
  rw [scanOrder, List.filter_append, noteAll_append]
  rcases Nat.eq_zero_or_pos clamp with rfl | positive
  · rw [List.take_zero, List.append_nil, if_neg (fun more => Nat.lt_irrefl 0 more.2)]
    exact ⟨rfl, blocked⟩
  · rw [if_pos ⟨room, positive⟩] at none ⊢
    obtain ⟨again, blockedToo⟩ := collectPicks_none entries room historyAvailable low _ none
    rw [reserve] at again blockedToo
    rw [again]
    refine ⟨rfl, fun row member => ?_⟩
    exact (List.mem_append.mp member).elim (blocked row) (blockedToo row)

theorem assignBatch_idle (counted : dm.table.Counted) {available : Nat} (room : 0 < available)
    (historyAvailable : Nat) {tipBiasSkip : Nat} (inside : tipBiasSkip ≤ dm.queue.entries.length)
    (none : (dm.assignBatch peerId now available historyAvailable tipBiasSkip).2.hashes = [])
    : Idle dm peerId now historyAvailable
        (dm.assignBatch peerId now available historyAvailable tipBiasSkip) := by
  have clamp : (if tipBiasSkip < dm.queue.entries.length then tipBiasSkip
      else dm.queue.entries.length) = tipBiasSkip := by
    split <;> omega
  have nothing : (batchScan dm.queue.entries peerId now available historyAvailable
      tipBiasSkip).picks = [] := by
    rw [assignBatch_hashes counted _ _ _ inside, ← batchScan_rows _ _ _ inside,
      List.map_eq_nil_iff, List.filterMap_eq_nil_iff] at none
    obtain ⟨beyond, reserve, split, high, low⟩ := batchScan_picks dm.queue.entries peerId now
      available historyAvailable tipBiasSkip
    obtain ⟨-, -, above, below⟩ := batch_ranges dm.queue.entries inside
    apply List.eq_nil_iff_forall_not_mem.mpr
    intro p member
    have missing := none p member
    rw [List.getElem?_eq_none_iff] at missing
    rw [split] at member
    rcases List.mem_append.mp member with isBeyond | inReserve
    · exact absurd (above p (high.mem isBeyond)) (Nat.not_lt.mpr missing)
    · exact absurd (below p (low.mem inReserve)) (Nat.not_lt.mpr missing)
  obtain ⟨noted, blocked⟩ := batchScan_none dm.queue.entries room historyAvailable inside nothing
  have order := scanOrder_perm tipBiasSkip dm.queue.entries
  rw [assignBatch]
  dsimp only
  rw [clamp, nothing]
  refine ⟨⟨rfl, fun _ => ⟨_, noted, fun row member => ?_, fun row member => ?_⟩⟩, rfl⟩
  · obtain ⟨scanned, kept⟩ := List.mem_filter.mp member
    have free : throttled historyAvailable row = false := by simpa using kept
    refine ⟨order.mem_iff.mp scanned, (blocked row scanned).resolve_right fun left => ?_, free⟩
    rw [left] at free
    cases free
  · cases left : throttled historyAvailable row with
    | true => exact .inr rfl
    | false => exact .inl (List.mem_filter.mpr ⟨order.mem_iff.mpr member, by rw [left]; rfl⟩)

theorem scanPick_none {entries : List QueueEntry} {tipBiasSkip : Nat}
    (inside : tipBiasSkip ≤ entries.length) (a : Avoidance)
    (none : entries[(scanPick entries peerId now tipBiasSkip a).1]? = none)
    : (scanPick entries peerId now tipBiasSkip a).2 = noteAll a (scanOrder tipBiasSkip entries)
        ∧ ∀ row ∈ entries, row.avoids peerId now = true := by
  rw [List.getElem?_eq_none_iff, scanPick_fst] at none
  have noneFree : ∀ rows : List QueueEntry,
      rows.length ≤ rows.findIdx (fun row => !row.avoids peerId now) →
        ∀ row ∈ rows, row.avoids peerId now = true := by
    intro rows behind row member
    have all := List.findIdx_eq_length.mp (Nat.le_antisymm List.findIdx_le_length behind)
    simpa using all row member
  have beyond : ∀ row ∈ entries.drop tipBiasSkip, row.avoids peerId now = true := by
    split at none
    · apply noneFree
      rw [List.length_drop]
      omega
    · rename_i missed
      intro row member
      by_contra free
      exact missed (.inl ⟨row, member, by simpa using free⟩)
  have reserve : ∀ row ∈ entries.take tipBiasSkip, row.avoids peerId now = true := by
    split at none
    · rename_i first
      rcases first with ⟨row, member, free⟩ | zero | empty
      · rw [beyond row member] at free
        cases free
      · rw [zero, List.take_zero]
        exact fun row member => absurd member List.not_mem_nil
      · rw [empty, List.take_nil]
        exact fun row member => absurd member List.not_mem_nil
    · apply noneFree
      rw [List.length_take]
      omega
  have clamp : (if tipBiasSkip < entries.length then tipBiasSkip else entries.length)
      = tipBiasSkip := by
    split <;> omega
  have all : ∀ row ∈ entries, row.avoids peerId now = true := by
    intro row member
    rw [← List.take_append_drop tipBiasSkip entries] at member
    exact (List.mem_append.mp member).elim (reserve row) (beyond row)
  have rest : (entries.drop tipBiasSkip).take (entries.length - tipBiasSkip)
      = entries.drop tipBiasSkip := List.take_of_length_le (by rw [List.length_drop])
  have first := @scanQueueForPeer_avoided peerId now entries (entries.length - tipBiasSkip)
    tipBiasSkip (by omega) (by rw [rest]; exact beyond) a
  rw [rest] at first
  refine ⟨?_, all⟩
  rw [scanPick, clamp, first]
  dsimp only
  rw [scanOrder, noteAll_append]
  rcases Nat.eq_zero_or_pos tipBiasSkip with rfl | positive
  · rw [if_neg (fun more => Nat.lt_irrefl 0 more.2), List.take_zero]
    rfl
  · rw [if_pos ⟨by omega, positive⟩, scanQueueForPeer_avoided (by omega) (by exact reserve),
      List.drop_zero]

theorem assignScanLoop_idle (counted : dm.table.Counted)
    (forward : ∀ row ∈ dm.queue.entries, row.isHistory = false) (available historyAvailable : Nat)
    {tipBiasSkip : Nat} (inside : tipBiasSkip ≤ dm.queue.entries.length)
    (none : (assignScanLoop peerId now available historyAvailable tipBiasSkip
      dm.queue.entries.length dm {} 0).2.hashes = [])
    : Idle dm peerId now historyAvailable
        (assignScanLoop peerId now available historyAvailable tipBiasSkip
          dm.queue.entries.length dm {} 0) := by
  have order := scanOrder_perm tipBiasSkip dm.queue.entries
  rw [assignScanLoop_hashes _ _ _ _ counted forward, List.nil_append, List.map_eq_nil_iff] at none
  generalize dm.queue.entries.length = fuel at none ⊢
  cases fuel with
  | zero => exact .untouched
  | succ fuel =>
    rw [assignScanLoop]
    by_cases going : ([] : List Uint256).length < available ∧ dm.queue.entries.length > 0
    · rw [if_pos going]
      rw [loopRows, if_neg (by exact Nat.ne_of_gt going.1)] at none
      dsimp only at none
      have missed : dm.queue.entries[(scanPick dm.queue.entries peerId now tipBiasSkip {}).1]?
          = Option.none := by
        cases read : dm.queue.entries[(scanPick dm.queue.entries peerId now tipBiasSkip {}).1]?
          with
        | none => rfl
        | some row =>
          rw [read] at none
          cases none
      obtain ⟨noted, avoided⟩ := scanPick_none inside {} missed
      generalize scanPick dm.queue.entries peerId now tipBiasSkip {} = picked at missed noted
      obtain ⟨pick, a⟩ := picked
      dsimp only at missed noted ⊢
      rw [missed]
      refine ⟨⟨rfl, fun _ => ⟨_, noted, fun row member => ?_, fun row member => ?_⟩⟩, rfl⟩
      · have queued := order.mem_iff.mp member
        exact ⟨queued, avoided row queued, by simp [throttled, forward row queued]⟩
      · exact .inl (order.mem_iff.mpr member)
    · rw [if_neg going]
      exact .untouched

theorem assignPicks_idle (counted : dm.table.Counted) (peerId : UInt32) (now : Int) (ibd : Bool)
    (maxAssign : Nat)
    (none : ((dm.located peerId).1.assignPicks peerId now (dm.attemptWindows ibd peerId maxAssign)
      (dm.attemptReserve peerId)).2.hashes = [])
    : Idle (dm.located peerId).1 peerId now
        (dm.attemptWindows ibd peerId maxAssign).historyAvailable
        ((dm.located peerId).1.assignPicks peerId now (dm.attemptWindows ibd peerId maxAssign)
          (dm.attemptReserve peerId)) := by
  have inside := attemptReserve_le dm peerId
  rw [assignPicks] at none ⊢
  split at none
  · rename_i batch
    rw [if_pos batch]
    simp only [assignCanBatch, decide_eq_true_eq] at batch
    exact @assignBatch_idle (dm.located peerId).1 _ _ counted _ batch.1 _ _ inside none
  · rename_i looped
    rw [if_neg looped]
    rcases looped_cases ibd maxAssign looped with zero | ⟨biased, -⟩
    · rw [zero, assignScanLoop_zero]
      exact .untouched
    · exact @assignScanLoop_idle (dm.located peerId).1 _ _ counted
        (@forward_of_attemptReserve dm peerId biased) _ _ _ inside none

end Z23.Net
