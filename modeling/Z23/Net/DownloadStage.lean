import Z23.Net.DownloadEffect

/-!
The effect of queueing: a priority block, and a batch that is staged in the membership set hash
by hash before it is merged.
-/

namespace Z23.Net

variable {dm middle after : DownloadManager}

-- Queueing

theorem queuePriority_effect (sound : Sound dm.queue dm.table) {hash : Uint256}
    (nonNull : hash.isNull = false) (height now nowAvoid : Int)
    : Effect dm (dm.queuePriority hash height now nowAvoid) := by
  rw [DownloadManager.queuePriority]
  have same := hashBlocksRequeue_same dm hash now
  have landed := @landed_of_hashBlocksRequeue dm sound.tracked hash now
  generalize dm.hashBlocksRequeue hash now = checked at same landed
  obtain ⟨counted, blocked⟩ := checked
  cases blocked with
  | true => exact .of_same sound same
  | false =>
    dsimp only at same ⊢
    have still : Sound counted.queue counted.table := by rwa [same.queue, same.table]
    generalize (if counted.queue.qset.contains hash then
      counted.queue.entries.find? fun row => row.hash = hash else none) = row?
    split
    · exact .of_same sound same
    · refine Effect.after_same same ?_
      obtain ⟨queue, withdrawn, out, sub, -⟩ := withdrawQueued_spec still hash
      rw [withdrawn]
      have free : ∀ s ∈ counted.table.inFlight, s.hash ≠ hash := by
        rw [same.table]
        exact landed rfl
      generalize row : (⟨hash, height, 0, 0, .forward⟩ : QueueEntry) = pushed
      have rowHash : pushed.hash = hash := by rw [← row]
      have entered := @Sound.push _ _ out pushed (by rw [rowHash]; exact nonNull)
        (by rw [rowHash]; exact free)
      have refused := (out.holds.push pushed).refused
      dsimp only
      generalize queue.push pushed = result at entered refused
      obtain ⟨full, ok⟩ := result
      rw [DownloadManager.advanceQueueIf]
      dsimp only
      split
      · exact ⟨entered, fun settled => settled, .inl rfl, .inr ⟨rfl, [], List.Perm.refl _⟩⟩
      · rename_i unchanged
        have notOk : ok = false := by
          cases ok with
          | false => rfl
          | true => simp at unchanged
        refine ⟨entered, fun settled => settled, .inr ⟨rfl, ?_⟩, .inr ⟨rfl, [], List.Perm.refl _⟩⟩
        rw [refused notOk]
        exact sub

/-- The keys a staged batch has in the membership set. -/
def stagedKeys (items : List StageItem) : List (Uint256 × WorkClass) :=
  items.map fun item => (item.hash, item.workClass)

/-- A hash that may be queued. -/
def Queueable (dm : DownloadManager) (hash : Uint256) : Prop :=
  hash.isNull = false ∧ ∀ s ∈ dm.table.inFlight, s.hash ≠ hash

/-- A batch in the middle of its staging, with room for `more` hashes. -/
structure Staged (dm : DownloadManager) (workClass : WorkClass) (more : Nat)
    (st : DownloadManager.Staging)
    : Prop where
  same : SameWork { dm with queue := st.dm.queue } st.dm
  holds : st.dm.queue.Holds (stagedKeys st.items)
  room : st.dm.queue.qset.Roomy more
  items : ∀ item ∈ st.items, item.workClass = workClass ∧ Queueable dm item.hash
  rows
    : ∀ row ∈ st.dm.queue.entries,
        row ∈ dm.queue.entries ∨ st.promoted = true ∧ Queueable dm row.hash

variable {queue : BlockQueue}

theorem SameWork.with_queue (same : SameWork { dm with queue } middle) (other : BlockQueue)
    : SameWork { dm with queue := other } { middle with queue := other } :=
  ⟨rfl, same.table, same.requested, same.received, same.timedOut, same.orphaned,
    same.queueGeneration, same.capacityGeneration⟩

variable {st : DownloadManager.Staging} {workClass : WorkClass}

theorem Staged.stageOne (sound : Sound dm.queue dm.table) {more : Nat}
    (before : Staged dm workClass (more + 1) st) (nowQ : Int) {block : Uint256 × Option Int}
    (nonNull : block.1.isNull = false)
    : Staged dm workClass more (DownloadManager.stageOne workClass nowQ st block) := by
  have less := before.room.mono (Nat.le_succ more)
  rw [DownloadManager.stageOne]
  have counted := hashBlocksRequeue_same st.dm block.1 nowQ
  have free := @landed_of_hashBlocksRequeue st.dm (by rw [before.same.table]; exact sound.tracked)
    block.1 nowQ
  generalize st.dm.hashBlocksRequeue block.1 nowQ = checked at counted free
  obtain ⟨next, blocked⟩ := checked
  have same : SameWork { dm with queue := next.queue } next := by
    refine ⟨rfl, counted.table.trans before.same.table, counted.requested.trans before.same.requested,
      counted.received.trans before.same.received, counted.timedOut.trans before.same.timedOut,
      counted.orphaned.trans before.same.orphaned,
      counted.queueGeneration.trans before.same.queueGeneration,
      counted.capacityGeneration.trans before.same.capacityGeneration⟩
  have holds := before.holds
  have room := before.room
  have rows := before.rows
  rw [← counted.queue] at holds room less rows
  cases blocked with
  | true => exact ⟨same, holds, less, before.items, rows⟩
  | false =>
    have landed : ∀ s ∈ dm.table.inFlight, s.hash ≠ block.1 := by
      have open_ := free rfl
      rwa [before.same.table] at open_
    dsimp only
    split
    · rename_i queued found
      split
      · rename_i promotes
        obtain ⟨-, -, member⟩ := holds.qset.find_eq_some_iff.mp found
        have inQueue : (block.1, WorkClass.history) ∈ next.queue.keys := by
          rw [promotes.2] at member
          rcases List.mem_append.mp member with inQueue | inBatch
          · exact inQueue
          · obtain ⟨item, known, key⟩ := List.mem_map.mp inBatch
            have own := (before.items item known).1
            rw [(Prod.mk.inj key).2, promotes.1] at own
            cases own
        obtain ⟨after, left, done, mem⟩ := holds.promoteHistory inQueue block.2 room
        generalize next.queue.promoteHistory block.1 block.2 = result at after left done mem
        obtain ⟨queue, ok⟩ := result
        refine ⟨same.with_queue queue, after, left, before.items, ?_⟩
        intro row known
        rcases mem row known with isIt | old
        · refine .inr ⟨by rw [show ok = true from done]; rfl, ?_⟩
          rw [isIt]
          exact ⟨nonNull, landed⟩
        · refine (rows row old).imp_right fun ⟨was, queueable⟩ => ⟨?_, queueable⟩
          rw [was, Bool.or_true]
      · exact ⟨same, holds, less, before.items, rows⟩
    · rename_i missed
      have unknown : next.queue.qset.contains block.1 = false := by
        rw [Qset.contains, missed]
        rfl
      obtain ⟨after, left⟩ := holds.stage unknown room workClass
      refine ⟨same.with_queue _, after.perm ?_, left, ?_, rows⟩
      · rw [stagedKeys, stagedKeys, List.map_append]
        exact (List.perm_append_singleton _ _).symm
      · intro item member
        rcases List.mem_append.mp member with old | new
        · exact before.items item old
        · rw [List.mem_singleton.mp new]
          exact ⟨rfl, nonNull, landed⟩

theorem Staged.foldl (sound : Sound dm.queue dm.table) {workClass : WorkClass} {more : Nat}
    (nowQ : Int) {blocks : List (Uint256 × Option Int)}
    (nonNull : ∀ block ∈ blocks, block.1.isNull = false) {st : DownloadManager.Staging}
    (before : Staged dm workClass (more + blocks.length) st)
    : Staged dm workClass more
        (blocks.foldl (DownloadManager.stageOne workClass nowQ) st) := by
  induction blocks generalizing st with
  | nil => exact before
  | cons block rest ih =>
    have next := Staged.stageOne sound before nowQ (nonNull block List.mem_cons_self)
    exact ih (List.forall_mem_cons.mp nonNull).2 next

theorem stageIncoming_staged (sound : Sound dm.queue dm.table)
    {blocks : List (Uint256 × Option Int)} (bounded : blocks.length ≤ dlQueueMaxCap * 2)
    (nonNull : ∀ block ∈ blocks, block.1.isNull = false) (workClass : WorkClass) (nowQ : Int)
    : Staged dm workClass 1 (dm.stageIncoming blocks workClass nowQ) := by
  obtain ⟨reserved, room⟩ := sound.holds.reserve bounded
  refine Staged.foldl sound nowQ nonNull ⟨?_, reserved, ?_, ?_, fun row => .inl⟩
  · exact ⟨rfl, rfl, rfl, rfl, rfl, rfl, rfl, rfl⟩
  · rw [Nat.add_comm]
    exact room
  · exact fun item member => absurd member List.not_mem_nil

theorem Staged.sound {more : Nat} (before : Staged dm workClass more st)
    (sound : Sound dm.queue dm.table) (holds : queue.Holds [])
    (rows : ∀ row ∈ queue.entries, row ∈ st.dm.queue.entries ∨ Queueable dm row.hash)
    : Sound queue dm.table := by
  have each : ∀ row ∈ queue.entries, row ∈ dm.queue.entries ∨ Queueable dm row.hash := by
    intro row member
    rcases rows row member with staged | queueable
    · exact (before.rows row staged).imp_right fun promoted => promoted.2
    · exact .inr queueable
  refine ⟨holds, sound.tracked, ?_, ?_⟩
  · intro row member s flying
    rcases each row member with old | queueable
    · exact sound.apart row old s flying
    · exact queueable.2 s flying
  · intro row member
    rcases each row member with old | queueable
    · exact sound.known row old
    · exact queueable.1

theorem Staged.effect {more : Nat} (before : Staged dm workClass more st) {changed : Bool}
    (sound : Sound queue dm.table) (rows : changed = false → queue.entries ⊆ dm.queue.entries)
    : Effect dm ({ st.dm with queue }.advanceQueueIf changed) := by
  have same := before.same.with_queue queue
  rw [DownloadManager.advanceQueueIf]
  cases changed with
  | true =>
    refine ⟨?_, same.settled, .inl ?_, .inr ⟨same.capacityGeneration, [], ?_⟩⟩
    · rw [if_pos rfl]
      dsimp only
      rw [same.table]
      exact sound
    · exact congrArg generationAdvance same.queueGeneration
    · rw [if_pos rfl]
      dsimp only
      rw [same.table]
      exact List.Perm.refl _
  | false =>
    rw [if_neg Bool.false_ne_true]
    refine ⟨?_, same.settled, .inr ⟨same.queueGeneration, rows rfl⟩,
      .inr ⟨same.capacityGeneration, [], ?_⟩⟩
    · dsimp only
      rw [same.table]
      exact sound
    · dsimp only
      rw [same.table]
      exact List.Perm.refl _

theorem queueBlocksClass_effect (qsort : Qsort) (sound : Sound dm.queue dm.table)
    {blocks : List (Uint256 × Option Int)} (bounded : blocks.length ≤ dlQueueMaxCap * 2)
    (nonNull : ∀ block ∈ blocks, block.1.isNull = false) (workClass : WorkClass) (nowQ : Int)
    : Effect dm (dm.queueBlocksClass qsort blocks workClass nowQ).1 := by
  rw [DownloadManager.queueBlocksClass]
  split
  · exact .refl sound
  · have staged := stageIncoming_staged sound bounded nonNull workClass nowQ
    dsimp only
    generalize dm.stageIncoming blocks workClass nowQ = batch at staged
    split
    · rename_i empty
      have holds := staged.holds
      rw [List.isEmpty_iff.mp empty] at holds
      refine staged.effect (staged.sound sound holds fun row => .inl) ?_
      intro unchanged row member
      rcases staged.rows row member with old | ⟨promoted, -⟩
      · exact old
      · rw [unchanged] at promoted
        cases promoted
    · rename_i some
      have sorted := qsort.perm batch.items
      obtain ⟨grown, sameRows⟩ := staged.holds.growTo
        (batch.dm.queue.entries.length + (qsort.sort batch.items).length)
        (batch.dm.queue.entries.length + (qsort.sort batch.items).length)
      have merged := grown.mergeStaged (sorted.map _) (qsort.sorted batch.items)
      generalize (batch.dm.queue.growTo
        (batch.dm.queue.entries.length + (qsort.sort batch.items).length)
        (batch.dm.queue.entries.length + (qsort.sort batch.items).length)) = wide
        at grown merged sameRows
      have nonempty : qsort.sort batch.items ≠ [] := by
        intro none
        rw [none] at sorted
        exact some (List.isEmpty_iff.mpr (List.nil_perm.mp sorted))
      generalize wide.mergeStaged (qsort.sort batch.items) = result at merged
      obtain ⟨queue, added⟩ := result
      refine staged.effect (staged.sound sound merged.holds ?_) ?_
      · intro row member
        rcases merged.mem row member with old | ⟨item, inBatch, rfl⟩
        · exact .inl (sameRows ▸ old)
        · exact .inr (staged.items item (sorted.mem_iff.mp inBatch)).2
      · intro unchanged row member
        rw [Bool.or_eq_false_iff, decide_eq_false_iff_not] at unchanged
        have old := merged.unchanged nonempty (by simpa using unchanged.1) row member
        rcases staged.rows row (sameRows ▸ old) with known | ⟨promoted, -⟩
        · exact known
        · rw [unchanged.2] at promoted
          cases promoted

end Z23.Net
