import Z23.Net.DownloadTaken

/-!
The selection an assignment is meant to make, and what the two algorithms select: the batch
always makes it, the rescanning loop makes it unless more entries than the reserve holds avoid
the peer. The sentinel of its second scan is then the index of an avoided entry.
-/

namespace Z23.Net

open DownloadManager

-- The greedy selection

/-- The rows a peer is to get: in order, skipping what it must avoid and history beyond the
history room, until the window is used up. -/
def greedy (peerId : UInt32) (now : Int) : Nat → Nat → List QueueEntry → List QueueEntry
  | _, _, [] => []
  | room, historyRoom, row :: rest =>
    if room = 0 then []
    else if row.avoids peerId now ∨ row.isHistory ∧ historyRoom = 0 then
      greedy peerId now room historyRoom rest
    else
      row :: greedy peerId now (room - 1)
        (if row.isHistory then historyRoom - 1 else historyRoom) rest

/-- The queue as an assignment looks at it: beyond the reserve first, then the reserve. -/
def scanOrder (tipBiasSkip : Nat) (entries : List QueueEntry) : List QueueEntry :=
  entries.drop tipBiasSkip ++ entries.take tipBiasSkip

variable {peerId : UInt32} {now : Int}

theorem greedy_zero (historyRoom : Nat) (rows : List QueueEntry)
    : greedy peerId now 0 historyRoom rows = [] := by
  cases rows with
  | nil => rfl
  | cons row rest => exact if_pos rfl

theorem greedy_length_le (room historyRoom : Nat) (rows : List QueueEntry)
    : (greedy peerId now room historyRoom rows).length ≤ room := by
  induction rows generalizing room historyRoom with
  | nil => exact Nat.zero_le _
  | cons row rest ih =>
    rw [greedy]
    split
    · exact Nat.zero_le _
    · split
      · exact ih room historyRoom
      · have bound := ih (room - 1) (if row.isHistory then historyRoom - 1 else historyRoom)
        rw [List.length_cons]
        omega

variable {rows : List QueueEntry}

theorem mem_greedy {room historyRoom : Nat} {row : QueueEntry}
    (member : row ∈ greedy peerId now room historyRoom rows)
    : row ∈ rows ∧ row.avoids peerId now = false := by
  induction rows generalizing room historyRoom with
  | nil => cases member
  | cons head rest ih =>
    rw [greedy] at member
    split at member
    · cases member
    · split at member
      · exact ⟨List.mem_cons_of_mem _ (ih member).1, (ih member).2⟩
      · rename_i free
        rcases List.mem_cons.mp member with rfl | later
        · exact ⟨List.mem_cons_self, by simpa using fun avoids => free (.inl avoids)⟩
        · exact ⟨List.mem_cons_of_mem _ (ih later).1, (ih later).2⟩

theorem greedy_eq_nil (room : Nat) {historyRoom : Nat}
    (blocked : ∀ row ∈ rows, row.avoids peerId now ∨ row.isHistory ∧ historyRoom = 0)
    : greedy peerId now room historyRoom rows = [] := by
  induction rows with
  | nil => rfl
  | cons row rest ih =>
    rw [greedy]
    split
    · rfl
    · rw [if_pos (blocked row List.mem_cons_self)]
      exact ih (List.forall_mem_cons.mp blocked).2

theorem greedy_of_forward (room historyRoom : Nat) (forward : ∀ row ∈ rows, row.isHistory = false)
    : greedy peerId now room historyRoom rows
        = (rows.filter fun row => !row.avoids peerId now).take room := by
  induction rows generalizing room historyRoom with
  | nil => simp [greedy]
  | cons row rest ih =>
    have later := fun room => ih room historyRoom
      (List.forall_mem_cons.mp forward).2
    have isForward := forward row List.mem_cons_self
    rw [greedy]
    cases room with
    | zero => simp
    | succ room =>
      cases avoids : row.avoids peerId now with
      | true => simp [avoids, later]
      | false => simp [avoids, isForward, later]

-- The batch

theorem collectPicks_rows (entries : List QueueEntry) (available historyAvailable : Nat)
    {indices : List Nat} (within : ∀ i ∈ indices, i < entries.length) (scan : PickScan)
    : (collectPicks entries peerId now available historyAvailable indices scan).picks.filterMap
          (entries[·]?)
        = scan.picks.filterMap (entries[·]?)
          ++ greedy peerId now (available - scan.picks.length)
              (historyAvailable - scan.historyPicked) (indices.filterMap (entries[·]?)) := by
  induction indices generalizing scan with
  | nil => simp [collectPicks, greedy]
  | cons i rest ih =>
    obtain ⟨row, read⟩ : ∃ row, entries[i]? = some row :=
      ⟨_, List.getElem?_eq_getElem (within i List.mem_cons_self)⟩
    have tail := ih (List.forall_mem_cons.mp within).2
      (collectPick entries peerId now available historyAvailable scan i)
    rw [collectPicks] at tail ⊢
    rw [List.foldl_cons, tail, List.filterMap_cons, read]
    dsimp only
    rw [greedy, collectPick, read]
    by_cases full : scan.picks.length < available
    · rw [if_pos full, if_neg (by omega)]
      dsimp only
      by_cases spent : row.isHistory = true ∧ scan.historyPicked ≥ historyAvailable
      · rw [if_pos spent, if_pos (.inr ⟨spent.1, by omega⟩)]
      · rw [if_neg spent]
        cases avoids : row.avoids peerId now with
        | true => simp
        | false =>
          have taken : ¬ (false = true ∨ row.isHistory = true
              ∧ historyAvailable - scan.historyPicked = 0) := by
            rintro (avoided | ⟨history, none⟩)
            · cases avoided
            · exact spent ⟨history, by omega⟩
          rw [if_neg Bool.false_ne_true, if_neg taken]
          simp only [List.filterMap_append, List.filterMap_cons, read, List.filterMap_nil,
            List.length_append, List.length_cons, List.length_nil, List.append_assoc,
            List.singleton_append]
          congr 3
          cases row.isHistory with
          | false => simp
          | true =>
            simp only [if_true]
            omega
    · have used : available - scan.picks.length = 0 := by omega
      rw [if_neg full, used, greedy_zero, if_pos rfl]

theorem filterMap_range'_getElem? (entries : List QueueEntry) {start count : Nat}
    (inside : start + count ≤ entries.length)
    : (List.range' start count).filterMap (entries[·]?) = (entries.drop start).take count := by
  induction count generalizing start with
  | zero => simp
  | succ count ih =>
    have here : start < entries.length := by omega
    rw [List.range'_succ, List.filterMap_cons, List.getElem?_eq_getElem here,
      List.drop_eq_getElem_cons here, List.take_succ_cons, ih (by omega)]

theorem batch_ranges (entries : List QueueEntry) {clamp : Nat} (inside : clamp ≤ entries.length)
    : (List.range' clamp (entries.length - clamp)).filterMap (entries[·]?) = entries.drop clamp
        ∧ (List.range' 0 clamp).filterMap (entries[·]?) = entries.take clamp
        ∧ (∀ i ∈ List.range' clamp (entries.length - clamp), i < entries.length)
        ∧ ∀ i ∈ List.range' 0 clamp, i < entries.length := by
  have beyond := filterMap_range'_getElem? entries
    (show clamp + (entries.length - clamp) ≤ entries.length by omega)
  have reserve := filterMap_range'_getElem? entries (show 0 + clamp ≤ entries.length by omega)
  rw [List.take_of_length_le (by rw [List.length_drop])] at beyond
  rw [List.drop_zero] at reserve
  refine ⟨beyond, reserve, fun i member => ?_, fun i member => ?_⟩
  · have bound := (List.mem_range'_1.mp member).2
    omega
  · have bound := (List.mem_range'_1.mp member).2
    omega

theorem batchScan_rows (entries : List QueueEntry) (available historyAvailable : Nat) {clamp : Nat}
    (inside : clamp ≤ entries.length)
    : (batchScan entries peerId now available historyAvailable clamp).picks.filterMap
          (entries[·]?)
        = greedy peerId now available historyAvailable (scanOrder clamp entries) := by
  obtain ⟨beyond, reserve, high, low⟩ := batch_ranges entries inside
  have both := @collectPicks_rows peerId now entries available historyAvailable
    (List.range' clamp (entries.length - clamp) ++ List.range' 0 clamp)
    (fun i member => (List.mem_append.mp member).elim (high i) (low i)) {}
  rw [List.filterMap_append, beyond, reserve] at both
  rw [scanOrder, ← List.nil_append (greedy _ _ _ _ _)]
  refine Eq.trans ?_ both
  rw [batchScan, collectPicks, collectPicks, collectPicks, List.foldl_append]
  split
  · rfl
  · rename_i done
    -- A full window or an empty reserve leaves the second scan nothing to do.
    generalize (List.range' clamp (entries.length - clamp)).foldl
      (collectPick entries peerId now available historyAvailable) {} = scan at done
    rcases Nat.eq_zero_or_pos clamp with rfl | positive
    · rfl
    · have full : ¬ scan.picks.length < available := fun room => done ⟨room, positive⟩
      have idle : ∀ indices : List Nat, indices.foldl
          (collectPick entries peerId now available historyAvailable) scan = scan := by
        intro indices
        induction indices with
        | nil => rfl
        | cons i rest ih => rw [List.foldl_cons, collectPick, if_neg full, ih]
      rw [idle]

-- The loop

theorem scanQueueForPeer_fst {entries : List QueueEntry} {count i : Nat}
    (inside : i + count ≤ entries.length) (a : Avoidance)
    : (scanQueueForPeer entries peerId now count i a).1
        = i + ((entries.drop i).take count).findIdx fun row => !row.avoids peerId now := by
  induction count generalizing i a with
  | zero => simp [scanQueueForPeer]
  | succ count ih =>
    have here : i < entries.length := by omega
    rw [scanQueueForPeer, List.getElem?_eq_getElem here, List.drop_eq_getElem_cons here,
      List.take_succ_cons, List.findIdx_cons]
    dsimp only
    cases avoids : entries[i].avoids peerId now with
    | true =>
      rw [if_pos rfl, ih (by omega)]
      simp only [Bool.not_true, cond_false]
      omega
    | false => simp

/-- The rows the loop picks, as far as the queue decides it. -/
def loopRows (peerId : UInt32) (now : Int) (tipBiasSkip : Nat)
    : Nat → Nat → List QueueEntry → List QueueEntry
  | 0, _, _ => []
  | fuel + 1, room, entries =>
    if room = 0 then []
    else
      let pick := (scanPick entries peerId now tipBiasSkip {}).1
      match entries[pick]? with
      | none => []
      | some row => row :: loopRows peerId now tipBiasSkip fuel (room - 1) (entries.eraseIdx pick)

theorem scanPick_fst (entries : List QueueEntry) (tipBiasSkip : Nat) (a : Avoidance)
    : (scanPick entries peerId now tipBiasSkip a).1
        = if (∃ row ∈ entries.drop tipBiasSkip, row.avoids peerId now = false)
            ∨ tipBiasSkip = 0 ∨ entries = [] then
          min tipBiasSkip entries.length
            + (entries.drop tipBiasSkip).findIdx fun row => !row.avoids peerId now
        else (entries.take tipBiasSkip).findIdx fun row => !row.avoids peerId now := by
  rw [scanPick]
  have chosen : (if tipBiasSkip < entries.length then tipBiasSkip else entries.length)
      = min tipBiasSkip entries.length := by
    split <;> omega
  rw [chosen]
  generalize bias : min tipBiasSkip entries.length = biasSkip
  have beyond : (entries.drop biasSkip).take (entries.length - biasSkip)
      = entries.drop tipBiasSkip := by
    rw [List.take_of_length_le (by rw [List.length_drop])]
    rcases Nat.le_total tipBiasSkip entries.length with le | ge
    · rw [← bias, Nat.min_eq_left le]
    · rw [← bias, Nat.min_eq_right ge, List.drop_length, List.drop_of_length_le ge]
  have reserve : (entries.drop 0).take biasSkip = entries.take tipBiasSkip := by
    rw [List.drop_zero, ← bias, List.take_eq_take_min]
    rw [List.take_eq_take_min (i := tipBiasSkip)]
    congr 1
    omega
  have first := @scanQueueForPeer_fst peerId now entries (entries.length - biasSkip) biasSkip
    (by omega) a
  rw [beyond] at first
  generalize scanQueueForPeer entries peerId now (entries.length - biasSkip) biasSkip a = scanned
    at first
  obtain ⟨pick, noted⟩ := scanned
  dsimp only at first ⊢
  have rest : (entries.drop tipBiasSkip).length = entries.length - biasSkip := by
    rw [List.length_drop]
    omega
  have second := @scanQueueForPeer_fst peerId now entries biasSkip 0 (by omega) noted
  rw [reserve, Nat.zero_add] at second
  have missed : (¬ ∃ row ∈ entries.drop tipBiasSkip, row.avoids peerId now = false)
      ↔ pick = entries.length := by
    rw [first, show (biasSkip + (entries.drop tipBiasSkip).findIdx (fun row => !row.avoids peerId now)
      = entries.length) ↔ (entries.drop tipBiasSkip).findIdx (fun row => !row.avoids peerId now)
      = (entries.drop tipBiasSkip).length by rw [rest]; omega, List.findIdx_eq_length]
    simp
  split
  · rename_i fallback
    rw [second, if_neg]
    rintro (some | none | none)
    · exact missed.mpr fallback.1 some
    · omega
    · rw [none] at bias
      simp only [List.length_nil] at bias
      omega
  · rename_i found
    rw [if_pos, first]
    by_cases some : ∃ row ∈ entries.drop tipBiasSkip, row.avoids peerId now = false
    · exact .inl some
    · right
      have none : biasSkip = 0 := by
        by_contra positive
        exact found ⟨missed.mp some, by omega⟩
      rw [← List.length_eq_zero_iff]
      omega

theorem filter_eraseIdx_findIdx {α : Type} {p : α → Bool} {xs : List α} {x : α}
    (first : xs[xs.findIdx p]? = some x)
    : xs.filter p = x :: (xs.eraseIdx (xs.findIdx p)).filter p := by
  induction xs with
  | nil => cases first
  | cons head rest ih =>
    rw [List.findIdx_cons] at first ⊢
    cases holds : p head with
    | true =>
      rw [holds, cond_true, List.getElem?_cons_zero, Option.some.injEq] at first
      rw [cond_true, List.eraseIdx_cons_zero, List.filter_cons_of_pos holds, first]
    | false =>
      rw [holds, cond_false, List.getElem?_cons_succ] at first
      rw [cond_false, List.eraseIdx_cons_succ, List.filter_cons_of_neg (by simp [holds]),
        List.filter_cons_of_neg (by simp [holds]), ih first]

/-- The rows an assignment may pick, in its order. -/
def freeRows (peerId : UInt32) (now : Int) (tipBiasSkip : Nat) (entries : List QueueEntry)
    : List QueueEntry :=
  (scanOrder tipBiasSkip entries).filter fun row => !row.avoids peerId now

variable {tipBiasSkip : Nat}

theorem freeRows_of_avoided {entries : List QueueEntry}
    (avoided : ∀ row ∈ entries.drop tipBiasSkip, row.avoids peerId now = true)
    : freeRows peerId now tipBiasSkip entries
        = entries.filter fun row => !row.avoids peerId now := by
  have none : (entries.drop tipBiasSkip).filter (fun row => !row.avoids peerId now) = [] := by
    rw [List.filter_eq_nil_iff]
    intro row member
    simp [avoided row member]
  have parts : entries.filter (fun row => !row.avoids peerId now)
      = ((entries.take tipBiasSkip ++ entries.drop tipBiasSkip).filter
          fun row => !row.avoids peerId now) := by
    rw [List.take_append_drop]
  rw [parts, freeRows, scanOrder, List.filter_append, List.filter_append, none, List.nil_append,
    List.append_nil]

/-- A turn of the loop picks the first free row. -/
def PicksFirst (peerId : UInt32) (now : Int) (tipBiasSkip : Nat) (entries : List QueueEntry)
    (pick : Nat)
    : Prop :=
  ∃ row, entries[pick]? = some row
    ∧ freeRows peerId now tipBiasSkip entries
        = row :: freeRows peerId now tipBiasSkip (entries.eraseIdx pick)

theorem scanPick_beyond {entries : List QueueEntry}
    (beyond : ∃ row ∈ entries.drop tipBiasSkip, row.avoids peerId now = false)
    : PicksFirst peerId now tipBiasSkip entries (scanPick entries peerId now tipBiasSkip {}).1 := by
  obtain ⟨free, member, isFree⟩ := beyond
  have found := List.findIdx_lt_length_of_exists (p := fun row : QueueEntry =>
    !row.avoids peerId now) ⟨free, member, by simp [isFree]⟩
  rw [scanPick_fst, if_pos (.inl ⟨free, member, isFree⟩)]
  generalize index : (entries.drop tipBiasSkip).findIdx (fun row => !row.avoids peerId now) = k
    at found
  have short : tipBiasSkip < entries.length := by
    rw [List.length_drop] at found
    omega
  have size : (entries.take tipBiasSkip).length = tipBiasSkip := by
    rw [List.length_take]
    omega
  have read : (entries.drop tipBiasSkip)[k]? = some (entries.drop tipBiasSkip)[k] :=
    List.getElem?_eq_getElem found
  have split := filter_eraseIdx_findIdx (p := fun row : QueueEntry => !row.avoids peerId now)
    (by rw [index]; exact read)
  have erased : entries.eraseIdx (tipBiasSkip + k)
      = entries.take tipBiasSkip ++ (entries.drop tipBiasSkip).eraseIdx k := by
    conv_lhs => rw [← List.take_append_drop tipBiasSkip entries]
    rw [List.eraseIdx_append_of_length_le (by omega), size, Nat.add_sub_cancel_left]
  rw [Nat.min_eq_left (Nat.le_of_lt short)]
  refine ⟨_, by rw [← List.getElem?_drop]; exact read, ?_⟩
  rw [freeRows, freeRows, scanOrder, scanOrder, erased, List.drop_left' size, List.take_left' size,
    List.filter_append, List.filter_append, split, index, List.cons_append]

/-- No free row beyond the reserve and one in it: the rows behind it move up, all avoided. -/
theorem scanPick_reserve {entries : List QueueEntry}
    (avoided : ∀ row ∈ entries.drop tipBiasSkip, row.avoids peerId now = true)
    (reserve : ∃ row ∈ entries.take tipBiasSkip, row.avoids peerId now = false)
    : PicksFirst peerId now tipBiasSkip entries (scanPick entries peerId now tipBiasSkip {}).1 := by
  obtain ⟨free, member, isFree⟩ := reserve
  have found := List.findIdx_lt_length_of_exists (p := fun row : QueueEntry =>
    !row.avoids peerId now) ⟨free, member, by simp [isFree]⟩
  rw [scanPick_fst, if_neg ?fallback]
  case fallback =>
    rintro (⟨row, beyond, isFree'⟩ | none | none)
    · rw [avoided row beyond] at isFree'
      cases isFree'
    · rw [none, List.take_zero] at member
      cases member
    · rw [none, List.take_nil] at member
      cases member
  generalize index : (entries.take tipBiasSkip).findIdx (fun row => !row.avoids peerId now) = k
    at found
  have low : k < tipBiasSkip := by
    rw [List.length_take] at found
    omega
  have read : (entries.take tipBiasSkip)[k]? = some (entries.take tipBiasSkip)[k] :=
    List.getElem?_eq_getElem found
  have split := filter_eraseIdx_findIdx (p := fun row : QueueEntry => !row.avoids peerId now)
    (by rw [index]; exact read)
  have erased : entries.eraseIdx k
      = (entries.take tipBiasSkip).eraseIdx k ++ entries.drop tipBiasSkip := by
    conv_lhs => rw [← List.take_append_drop tipBiasSkip entries]
    rw [List.eraseIdx_append_of_lt_length found]
  have still : ∀ row ∈ (entries.eraseIdx k).drop tipBiasSkip, row.avoids peerId now = true := by
    intro other later
    rw [erased, List.drop_append] at later
    rcases List.mem_append.mp later with inReserve | rest
    · have shorter := (List.eraseIdx_sublist (entries.take tipBiasSkip) k).length_le
      rw [List.length_take] at shorter
      rw [List.drop_of_length_le (by omega)] at inReserve
      cases inReserve
    · exact avoided other (List.mem_of_mem_drop rest)
  refine ⟨_, by rw [← List.getElem?_take_of_lt low]; exact read, ?_⟩
  rw [freeRows_of_avoided avoided, freeRows_of_avoided still, erased]
  conv_lhs => rw [← List.take_append_drop tipBiasSkip entries]
  rw [List.filter_append, List.filter_append, split, index, List.cons_append]

/-- All rows avoided and no more of them than the reserve: the turn ends the loop. -/
theorem scanPick_done {entries : List QueueEntry} (few : entries.length ≤ tipBiasSkip)
    (avoided : ∀ row ∈ entries, row.avoids peerId now = true)
    : entries[(scanPick entries peerId now tipBiasSkip {}).1]? = none := by
  have all : ∀ rows : List QueueEntry, rows ⊆ entries →
      (rows.findIdx fun row => !row.avoids peerId now) = rows.length := by
    intro rows sub
    rw [List.findIdx_eq_length]
    intro row member
    simp [avoided row (sub member)]
  rw [List.getElem?_eq_none_iff, scanPick_fst, all _ (List.drop_subset _ _),
    all _ (List.take_subset _ _), List.length_drop, List.length_take]
  split <;> omega

theorem loopRows_eq {fuel : Nat} (room : Nat) {entries : List QueueEntry}
    (enough : entries.length ≤ fuel)
    (few : entries.countP (fun row => row.avoids peerId now) ≤ tipBiasSkip)
    : loopRows peerId now tipBiasSkip fuel room entries
        = (freeRows peerId now tipBiasSkip entries).take room := by
  induction fuel generalizing room entries with
  | zero =>
    obtain rfl : entries = [] := List.length_eq_zero_iff.mp (by omega)
    simp [loopRows, freeRows, scanOrder]
  | succ fuel ih =>
    cases room with
    | zero => simp [loopRows]
    | succ room =>
      have step : ∀ pick, PicksFirst peerId now tipBiasSkip entries pick →
          (match entries[pick]? with
            | none => []
            | some row =>
              row :: loopRows peerId now tipBiasSkip fuel room (entries.eraseIdx pick))
            = (freeRows peerId now tipBiasSkip entries).take (room + 1) := by
        rintro pick ⟨row, read, first⟩
        have inside := (List.getElem?_eq_some_iff.mp read).1
        have rest := @ih room (entries.eraseIdx pick)
          (by rw [List.length_eraseIdx_of_lt inside]; omega)
          (Nat.le_trans (List.Sublist.countP_le (List.eraseIdx_sublist _ _)) few)
        rw [read, first, List.take_succ_cons, rest]
      rw [loopRows, if_neg (Nat.succ_ne_zero room)]
      dsimp only
      rw [Nat.add_sub_cancel]
      by_cases beyond : ∃ row ∈ entries.drop tipBiasSkip, row.avoids peerId now = false
      · exact step _ (scanPick_beyond beyond)
      · have avoided : ∀ row ∈ entries.drop tipBiasSkip, row.avoids peerId now = true :=
          fun row member => by
            by_contra free
            exact beyond ⟨row, member, by simpa using free⟩
        by_cases reserve : ∃ row ∈ entries.take tipBiasSkip, row.avoids peerId now = false
        · exact step _ (scanPick_reserve avoided reserve)
        · have all : ∀ row ∈ entries, row.avoids peerId now = true := by
            intro row member
            rw [← List.take_append_drop tipBiasSkip entries] at member
            rcases List.mem_append.mp member with low | high
            · by_contra free
              exact reserve ⟨row, low, by simpa using free⟩
            · exact avoided row high
          rw [List.countP_eq_length.mpr all] at few
          rw [scanPick_done few all, freeRows_of_avoided avoided,
            List.filter_eq_nil_iff.mpr fun row member => by simp [all row member]]
          rfl

/-- While the queue is longer than the reserve, every turn of the loop picks some row. -/
theorem loopRows_length {tipBiasSkip : Nat} (biased : 0 < tipBiasSkip) {fuel : Nat} (room : Nat)
    {entries : List QueueEntry} (enough : entries.length ≤ fuel)
    : min room (entries.length - tipBiasSkip)
        ≤ (loopRows peerId now tipBiasSkip fuel room entries).length := by
  induction fuel generalizing room entries with
  | zero => omega
  | succ fuel ih =>
    cases room with
    | zero => omega
    | succ room =>
      by_cases long : tipBiasSkip < entries.length
      · have inside : (scanPick entries peerId now tipBiasSkip {}).1 < entries.length := by
          rw [scanPick_fst]
          split
          · rename_i found
            rcases found with ⟨free, member, isFree⟩ | none | none
            · have index := List.findIdx_lt_length_of_exists (p := fun row : QueueEntry =>
                !row.avoids peerId now) ⟨free, member, by simp [isFree]⟩
              rw [List.length_drop] at index
              omega
            · omega
            · rw [none, List.length_nil] at long
              omega
          · refine Nat.lt_of_le_of_lt List.findIdx_le_length ?_
            rw [List.length_take]
            omega
        rw [loopRows, if_neg (Nat.succ_ne_zero room)]
        dsimp only
        rw [List.getElem?_eq_getElem inside]
        have rest := @ih room (entries.eraseIdx (scanPick entries peerId now tipBiasSkip {}).1)
          (by rw [List.length_eraseIdx_of_lt inside]; omega)
        rw [List.length_eraseIdx_of_lt inside] at rest
        rw [List.length_cons, Nat.add_sub_cancel]
        omega
      · omega

end Z23.Net
