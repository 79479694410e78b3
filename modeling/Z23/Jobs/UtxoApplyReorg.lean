import Z23.Jobs.UtxoApplyInverse

/-!
The stage-side disconnect: divergence detection, the downward fork walk clamped at the finality
floor, the depth gate, and the unwind transaction.
-/

namespace Z23.Jobs

open Z23.Lib Z23.Lib.FiniteMap Z23.Storage

-- The policy and the active chain

def zclFinalityDepth : Int := 10

def maxIbdReorgLength : Int := 1000

/-- Models `zcl_reorg_allowed`, without its reason texts. -/
def zclReorgAllowed (tipHeight forkHeight : Int) (inIbd : Bool) : Bool :=
  if tipHeight < 0 then true
  else if forkHeight ≥ tipHeight then true
  else if tipHeight - forkHeight ≤ zclFinalityDepth then true
  else inIbd && (0 ≤ tipHeight - forkHeight && tipHeight - forkHeight ≤ maxIbdReorgLength)

def reorgIsAllowed (tipHeight forkHeight : Int) : Bool :=
  zclReorgAllowed tipHeight forkHeight false

/--
What the unwind reads of the chain: the hash in each slot of the active window, the blocks marked
failed, and the height of the FlySync rung, if one is registered.
-/
structure ChainView where
  activeAt : Int → Option Uint256
  hasAnyFailure : List UInt8 → Bool
  islandRung : Option Int

def ChainView.islandRefusesForkAt (chain : ChainView) (fork : Int) : Bool :=
  match chain.islandRung with
  | none => false
  | some rung => fork < rung

/-- The recorded branch hash of a height; a blob that is not 32 bytes long counts as absent. -/
def deltaBranchHashAt (db : ApplyDb) (height : Int) : Option (List UInt8) :=
  match db.deltas.lookup height with
  | none => none
  | some row => if row.branchHash.length = 32 then some row.branchHash else none

/-- The recorded branch hash of the height is the one on the active chain. -/
def recordedMatches (chain : ChainView) (db : ApplyDb) (height : Int) : Bool :=
  match deltaBranchHashAt db height, chain.activeAt height with
  | some recorded, some active => recorded == active.data
  | _, _ => false

def utxoApplyReorgDetectDivergence (chain : ChainView) (db : ApplyDb) (tip : Int) : Bool :=
  match deltaBranchHashAt db tip with
  | none => false
  | some recorded =>
    match chain.activeAt tip with
    | none => chain.hasAnyFailure recorded
    | some active => recorded != active.data

/-- Walk down over the `count` heights from `floor` up; `-1` when none matches. -/
def utxoApplyReorgWalkFork (chain : ChainView) (db : ApplyDb) (floor : Int) : Nat → Int
  | 0 => -1
  | count + 1 =>
    if recordedMatches chain db (floor + count) then floor + count
    else utxoApplyReorgWalkFork chain db floor count

def utxoApplyReorgClampedFloor (c : Nat) : Int := max 0 (c - 1 - zclFinalityDepth)

-- The unwind transaction

/--
An SQL error: on a read or while opening the transaction, or inside it once the inverse deltas
of `heights` heights are written. The rollback then discards what is durable of them.
-/
inductive SqlFault where
  | none
  | beforeWrites
  | inside (heights : Nat)
deriving DecidableEq, Repr

inductive UnwindOutcome where
  | nothingToDo
  | refused
  | failed
  | unwound (fork : Int)
deriving DecidableEq, Repr

/-- The boolean that the source returns. -/
def UnwindOutcome.returned : UnwindOutcome → Bool
  | nothingToDo => true
  | unwound _ => true
  | refused => false
  | failed => false

def int32Max : Nat := 2147483647

/-- Models `utxo_apply_reorg_unwind_writes` for the heights `forkPlus1, …, c - 1`. -/
def utxoApplyReorgUnwindWrites (db : ApplyDb) (c forkPlus1 : Nat) : ApplyDb × Bool :=
  match inverseDeltas db forkPlus1 (c - forkPlus1) with
  | (db, false) => (db, false)
  | (db, true) =>
    let db := utxoApplyDeleteRowsAbove db forkPlus1 ((c : Int) - 1)
    ({ db with cursor := forkPlus1, coinsAppliedHeight := some (forkPlus1 : Int) }, true)

/-- The transaction around the writes: commit, or roll back. -/
def utxoApplyUnwindTxn (fault : SqlFault) (db : ApplyDb) (c : Nat) (fork : Int)
    : ApplyDb × UnwindOutcome :=
  match fault with
  | .beforeWrites => (db, .failed)
  | .inside heights =>
    let done := min heights (c - (fork + 1).toNat)
    ((inverseDeltas db (c - done) done).1.rollbackTo db, .failed)
  | .none =>
    match utxoApplyReorgUnwindWrites db c (fork + 1).toNat with
    | (written, false) => (written.rollbackTo db, .failed)
    | (written, true) => (written, .unwound fork)

/-- The function after the divergence check, for a walk that stops at `floor`. -/
def utxoApplyReorgUnwindFrom (chain : ChainView) (fault : SqlFault) (db : ApplyDb) (c : Nat)
    (floor : Int) : ApplyDb × UnwindOutcome :=
  let fork := utxoApplyReorgWalkFork chain db floor ((c : Int) - 1 - floor).toNat
  if fork < 0 && floor > 0 then (db, .refused)
  else if !reorgIsAllowed ((c : Int) - 1) fork || chain.islandRefusesForkAt fork then
    (db, .refused)
  else utxoApplyUnwindTxn fault db c fork

/-- The function with the lowest scanned height as a parameter. -/
def utxoApplyReorgUnwindAbove (floor : Nat → Int) (chain : ChainView) (fault : SqlFault)
    (db : ApplyDb) : ApplyDb × UnwindOutcome :=
  if db.cursor = 0 then (db, .nothingToDo)
  else if db.cursor > int32Max then (db, .failed)
  else if utxoApplyReorgDetectDivergence chain db ((db.cursor : Int) - 1) then
    utxoApplyReorgUnwindFrom chain fault db db.cursor (floor db.cursor)
  else (db, .nothingToDo)

def utxoApplyReorgUnwindIfNeeded (chain : ChainView) (fault : SqlFault) (db : ApplyDb)
    : ApplyDb × UnwindOutcome :=
  utxoApplyReorgUnwindAbove utxoApplyReorgClampedFloor chain fault db

/-- The same function with the walk scanning down to height 0. -/
def utxoApplyReorgUnwindUnclamped (chain : ChainView) (fault : SqlFault) (db : ApplyDb)
    : ApplyDb × UnwindOutcome :=
  utxoApplyReorgUnwindAbove (fun _ => 0) chain fault db

-- The fork walk

section Walk

variable {chain : ChainView} {db : ApplyDb} {floor : Int} {count : Nat}

/-- A non-negative result is the highest matching height of the scanned range. -/
theorem walkFork_found (found : 0 ≤ utxoApplyReorgWalkFork chain db floor count)
    : floor ≤ utxoApplyReorgWalkFork chain db floor count
        ∧ utxoApplyReorgWalkFork chain db floor count < floor + count
        ∧ recordedMatches chain db (utxoApplyReorgWalkFork chain db floor count) = true
        ∧ ∀ h, utxoApplyReorgWalkFork chain db floor count < h → h < floor + count →
            recordedMatches chain db h = false := by
  induction count with
  | zero => simp [utxoApplyReorgWalkFork] at found
  | succ count ih =>
    rw [utxoApplyReorgWalkFork] at found ⊢
    split
    · rename_i here
      exact ⟨by omega, by omega, here, fun h above below => by omega⟩
    · rename_i notHere
      rw [if_neg notHere] at found
      obtain ⟨low, high, isMatch, none⟩ := ih found
      refine ⟨low, by omega, isMatch, fun h above below => ?_⟩
      by_cases top : h = floor + count
      · rw [top]
        simpa using notHere
      · exact none h above (by omega)

theorem walkFork_missed (nonneg : 0 ≤ floor)
    (missed : utxoApplyReorgWalkFork chain db floor count < 0)
    : utxoApplyReorgWalkFork chain db floor count = -1
        ∧ ∀ h, floor ≤ h → h < floor + count → recordedMatches chain db h = false := by
  induction count with
  | zero => exact ⟨rfl, fun h low high => by omega⟩
  | succ count ih =>
    rw [utxoApplyReorgWalkFork] at missed ⊢
    split
    · rename_i here
      rw [if_pos here] at missed
      omega
    · rename_i notHere
      rw [if_neg notHere] at missed
      obtain ⟨result, none⟩ := ih missed
      refine ⟨result, fun h low high => ?_⟩
      by_cases top : h = floor + count
      · rw [top]
        simpa using notHere
      · exact none h low (by omega)

theorem walkFork_extend (nonneg : 0 ≤ floor) (extra : Nat)
    : utxoApplyReorgWalkFork chain db floor (extra + count)
          = utxoApplyReorgWalkFork chain db (floor + extra) count
        ∨ utxoApplyReorgWalkFork chain db (floor + extra) count < 0
          ∧ utxoApplyReorgWalkFork chain db floor (extra + count) < floor + extra := by
  rcases Int.lt_or_le (utxoApplyReorgWalkFork chain db (floor + extra) count) 0
    with shortMissed | shortFound
  · right
    refine ⟨shortMissed, ?_⟩
    obtain ⟨-, none⟩ := walkFork_missed (by omega) shortMissed
    rcases Int.lt_or_le (utxoApplyReorgWalkFork chain db floor (extra + count)) 0
      with longMissed | longFound
    · omega
    · obtain ⟨-, high, isMatch, -⟩ := walkFork_found longFound
      by_contra above
      have mismatch := none _ (Int.not_lt.mp above) (by omega)
      rw [isMatch] at mismatch
      simp at mismatch
  · left
    obtain ⟨low, high, isMatch, none⟩ := walkFork_found shortFound
    rcases Int.lt_or_le (utxoApplyReorgWalkFork chain db floor (extra + count)) 0
      with longMissed | longFound
    · have mismatch := (walkFork_missed nonneg longMissed).2
        (utxoApplyReorgWalkFork chain db (floor + extra) count) (by omega) (by omega)
      rw [isMatch] at mismatch
      simp at mismatch
    · obtain ⟨longLow, longHigh, longMatch, longNone⟩ := walkFork_found longFound
      rcases Int.lt_trichotomy (utxoApplyReorgWalkFork chain db floor (extra + count))
        (utxoApplyReorgWalkFork chain db (floor + extra) count) with below | same | above
      · have mismatch := longNone _ below (by omega)
        rw [isMatch] at mismatch
        simp at mismatch
      · exact same
      · have mismatch := none _ above (by omega)
        rw [longMatch] at mismatch
        simp at mismatch

end Walk

variable {db : ApplyDb}

theorem unwindFrom_refused {chain : ChainView} {fault : SqlFault} {c : Nat} {floor : Int}
    (deep : c > 11)
    (low : utxoApplyReorgWalkFork chain db floor ((c : Int) - 1 - floor).toNat < c - 11)
    : utxoApplyReorgUnwindFrom chain fault db c floor = (db, .refused) := by
  have notAllowed : reorgIsAllowed ((c : Int) - 1)
      (utxoApplyReorgWalkFork chain db floor ((c : Int) - 1 - floor).toNat) = false := by
    simp only [reorgIsAllowed, zclReorgAllowed, zclFinalityDepth, Bool.false_and]
    rw [if_neg (by omega), if_neg (by omega), if_neg (by omega)]
  rw [utxoApplyReorgUnwindFrom]
  simp [notAllowed]

theorem unclamped_eq (chain : ChainView) (fault : SqlFault) (db : ApplyDb)
    : utxoApplyReorgUnwindUnclamped chain fault db
        = utxoApplyReorgUnwindIfNeeded chain fault db := by
  unfold utxoApplyReorgUnwindUnclamped utxoApplyReorgUnwindIfNeeded utxoApplyReorgUnwindAbove
  split
  · rfl
  split
  · rfl
  split
  · rename_i notZero _ _
    generalize db.cursor = c at notZero ⊢
    rcases Nat.lt_or_ge 11 c with deep | shallow
    · have floorEq : utxoApplyReorgClampedFloor c = 0 + ((c - 11 : Nat) : Int) := by
        rw [utxoApplyReorgClampedFloor, zclFinalityDepth]
        omega
      have longCount : ((c : Int) - 1 - 0).toNat = (c - 11) + 10 := by omega
      have shortCount : ((c : Int) - 1 - (0 + ((c - 11 : Nat) : Int))).toNat = 10 := by omega
      rw [floorEq]
      have related : utxoApplyReorgWalkFork chain db 0 ((c - 11) + 10)
            = utxoApplyReorgWalkFork chain db (0 + ((c - 11 : Nat) : Int)) 10
          ∨ utxoApplyReorgWalkFork chain db (0 + ((c - 11 : Nat) : Int)) 10 < 0
            ∧ utxoApplyReorgWalkFork chain db 0 ((c - 11) + 10) < 0 + ((c - 11 : Nat) : Int) :=
        walkFork_extend (le_refl 0) (c - 11)
      rcases Int.lt_or_le
        (utxoApplyReorgWalkFork chain db (0 + ((c - 11 : Nat) : Int)) 10) 0 with missed | found
      · have longLow : utxoApplyReorgWalkFork chain db 0 ((c : Int) - 1 - 0).toNat < c - 11 := by
          rw [longCount]
          omega
        have shortLow : utxoApplyReorgWalkFork chain db (0 + ((c - 11 : Nat) : Int))
            ((c : Int) - 1 - (0 + ((c - 11 : Nat) : Int))).toNat < c - 11 := by
          rw [shortCount]
          omega
        rw [unwindFrom_refused deep longLow, unwindFrom_refused deep shortLow]
      · have same := related.resolve_right (fun wrong => by omega)
        rw [utxoApplyReorgUnwindFrom, utxoApplyReorgUnwindFrom, longCount, shortCount, same]
        have found' : ¬ utxoApplyReorgWalkFork chain db (0 + ((c - 11 : Nat) : Int)) 10 < 0 := by
          omega
        simp only [found', decide_false, Bool.false_and, Bool.false_eq_true, if_false]
    · rw [show utxoApplyReorgClampedFloor c = 0 from
        (by rw [utxoApplyReorgClampedFloor, zclFinalityDepth]; omega)]
  · rfl

-- What the writes do

theorem utxoApplyEmitInverseDelta_frame (db : ApplyDb) (height : Int)
    : ∃ store, (utxoApplyEmitInverseDelta db height).1 = { db with store := store } := by
  rw [utxoApplyEmitInverseDelta]
  split
  · exact ⟨db.store, rfl⟩
  · split <;> exact ⟨_, rfl⟩

theorem inverseDeltas_covered {after : ApplyDb} {first count : Nat}
    (logged : ∀ h row, db.log.lookup h = some row → row.ok = true)
    (undone : inverseDeltas db first count = (after, true))
    : ∀ h, first ≤ h → h < first + count → (h : Int) ∈ db.deltas := by
  induction count generalizing db with
  | zero => exact fun h low high => by omega
  | succ count ih =>
    obtain ⟨store, here⟩ := utxoApplyEmitInverseDelta_frame db (first + count : Nat)
    rw [inverseDeltas] at undone
    split at undone
    · simp at undone
    · rename_i next emitted
      rw [emitted] at here
      obtain rfl : next = { db with store := store } := here
      intro h low high
      rcases Nat.lt_succ_iff_lt_or_eq.mp high with below | rfl
      · refine ih ?_ undone h low below
        exact logged
      · rw [utxoApplyEmitInverseDelta] at emitted
        split at emitted
        · have allowed := congrArg Prod.snd emitted
          simp only [inverseMissingDeltaAllowed] at allowed
          split at allowed
          · rename_i row found
            rw [logged _ row found] at allowed
            simp at allowed
          · simp at allowed
        · rename_i row found
          exact Finmap.mem_of_lookup_eq_some found

/-- The rows of a height range are gone. -/
structure NoRowsIn (db : ApplyDb) (first last : Int) : Prop where
  log : ∀ h, first ≤ h → h ≤ last → h ∉ db.log
  deltas : ∀ h, first ≤ h → h ≤ last → h ∉ db.deltas
  nullifiers : ∀ row ∈ db.nullifiers, ¬ (first ≤ row.height ∧ row.height ≤ last)
  anchors : ∀ row ∈ db.anchors, ¬ (first ≤ row.height ∧ row.height ≤ last)
  poolTotals : ∀ h, first ≤ h → h ≤ last → h ∉ db.poolTotals

theorem notMem_dropAll_heightRange {α : Type} (table : Table Int α) {first last h : Int}
    (low : first ≤ h) (high : h ≤ last)
    : h ∉ dropAll table (heightRange first last) := by
  rw [← Finmap.lookup_eq_none, lookup_dropAll, if_pos (mem_heightRange.mpr ⟨low, high⟩)]

theorem utxoApplyDeleteRowsAbove_gone (db : ApplyDb) (first last : Int)
    : NoRowsIn (utxoApplyDeleteRowsAbove db first last) first last where
  log _ low high := notMem_dropAll_heightRange db.log low high
  deltas _ low high := notMem_dropAll_heightRange db.deltas low high
  nullifiers row member := by
    have kept := (List.mem_filter.mp member).2
    simp only [Bool.not_eq_true', Bool.and_eq_false_iff, decide_eq_false_iff_not] at kept
    omega
  anchors row member := by
    have kept := (List.mem_filter.mp member).2
    simp only [Bool.not_eq_true', Bool.and_eq_false_iff, decide_eq_false_iff_not] at kept
    omega
  poolTotals _ low high := notMem_dropAll_heightRange db.poolTotals low high

-- What an unwind did

/--
The fork height of an unwind: the highest height below the tip whose recorded branch hash is on
the active chain, or `-1` when no height is.
-/
structure ForkPoint (chain : ChainView) (db : ApplyDb) (fork : Int) : Prop where
  lowest : -1 ≤ fork
  belowTip : fork < (db.cursor : Int) - 1
  isMatch : recordedMatches chain db fork = true ∨ fork = -1
  highest
    : ∀ h, fork < h → h < (db.cursor : Int) - 1 → recordedMatches chain db h = false

/-- An unwind passed every gate and committed its writes. -/
structure Unwinds (chain : ChainView) (db after : ApplyDb) (fork : Int) : Prop where
  forkPoint : ForkPoint chain db fork
  depth : (db.cursor : Int) - 1 - fork ≤ zclFinalityDepth
  wrote : utxoApplyReorgUnwindWrites db db.cursor (fork + 1).toNat = (after, true)

theorem walkFork_forkPoint {chain : ChainView} {floor : Int} (nonneg : 0 ≤ floor)
    (low : floor ≤ (db.cursor : Int) - 1)
    (reaches : 0 ≤ utxoApplyReorgWalkFork chain db floor ((db.cursor : Int) - 1 - floor).toNat ∨
      floor = 0)
    : ForkPoint chain db
        (utxoApplyReorgWalkFork chain db floor ((db.cursor : Int) - 1 - floor).toNat) := by
  rcases Int.lt_or_le
    (utxoApplyReorgWalkFork chain db floor ((db.cursor : Int) - 1 - floor).toNat) 0
    with missed | found
  · obtain ⟨isNone, noMatch⟩ := walkFork_missed nonneg missed
    rw [isNone] at reaches ⊢
    exact ⟨le_refl _, by omega, .inr rfl,
      fun h above below => noMatch h (by omega) (by omega)⟩
  · obtain ⟨-, below, isMatch, noMatch⟩ := walkFork_found found
    exact ⟨by omega, by omega, .inl isMatch, fun h above belowTip => noMatch h above (by omega)⟩

/-- The whole of what a call can do. -/
inductive UnwindCases (chain : ChainView) (db : ApplyDb) : ApplyDb → UnwindOutcome → Prop where
  | idle (outcome : UnwindOutcome) (still : ∀ fork, outcome ≠ .unwound fork)
      : UnwindCases chain db db outcome
  | rolledBack (first count : Nat)
      (diverged : utxoApplyReorgDetectDivergence chain db ((db.cursor : Int) - 1) = true)
      : UnwindCases chain db ((inverseDeltas db first count).1.rollbackTo db) .failed
  | unwound {after : ApplyDb} {fork : Int}
      (diverged : utxoApplyReorgDetectDivergence chain db ((db.cursor : Int) - 1) = true)
      (unwinds : Unwinds chain db after fork)
      : UnwindCases chain db after (.unwound fork)

variable {fork : Int}

theorem utxoApplyUnwindTxn_cases {chain : ChainView} {fault : SqlFault}
    (diverged : utxoApplyReorgDetectDivergence chain db ((db.cursor : Int) - 1) = true)
    (forkPoint : ForkPoint chain db fork) (depth : (db.cursor : Int) - 1 - fork ≤ zclFinalityDepth)
    : UnwindCases chain db (utxoApplyUnwindTxn fault db db.cursor fork).1
        (utxoApplyUnwindTxn fault db db.cursor fork).2 := by
  cases fault with
  | beforeWrites => exact .idle _ (by simp [utxoApplyUnwindTxn])
  | inside heights => exact .rolledBack _ _ diverged
  | none =>
    simp only [utxoApplyUnwindTxn]
    split
    · rename_i written stopped
      simp only [utxoApplyReorgUnwindWrites] at stopped
      split at stopped
      · rename_i reached emitted
        obtain rfl : reached = written := by simpa using stopped
        have torn : UnwindCases chain db _ _ :=
          .rolledBack (fork + 1).toNat (db.cursor - (fork + 1).toNat) diverged
        rwa [emitted] at torn
      · simp at stopped
    · rename_i written wrote
      exact .unwound diverged ⟨forkPoint, depth, wrote⟩

theorem utxoApplyReorgUnwindIfNeeded_cases (chain : ChainView) (fault : SqlFault) (db : ApplyDb)
    : UnwindCases chain db (utxoApplyReorgUnwindIfNeeded chain fault db).1
        (utxoApplyReorgUnwindIfNeeded chain fault db).2 := by
  rw [utxoApplyReorgUnwindIfNeeded, utxoApplyReorgUnwindAbove]
  split
  · exact .idle _ (by simp)
  split
  · exact .idle _ (by simp)
  split
  · rename_i positive _ diverged
    simp only [utxoApplyReorgUnwindFrom]
    split
    · exact .idle _ (by simp)
    split
    · exact .idle _ (by simp)
    rename_i reachable allowed
    have floorBounds : 0 ≤ utxoApplyReorgClampedFloor db.cursor
        ∧ utxoApplyReorgClampedFloor db.cursor ≤ (db.cursor : Int) - 1 := by
      rw [utxoApplyReorgClampedFloor, zclFinalityDepth]
      omega
    have forkPoint : ForkPoint chain db
        (utxoApplyReorgWalkFork chain db (utxoApplyReorgClampedFloor db.cursor)
          ((db.cursor : Int) - 1 - utxoApplyReorgClampedFloor db.cursor).toNat) := by
      refine walkFork_forkPoint floorBounds.1 floorBounds.2 ?_
      simp only [Bool.and_eq_true, decide_eq_true_eq, not_and] at reachable
      omega
    refine utxoApplyUnwindTxn_cases diverged forkPoint ?_
    generalize utxoApplyReorgWalkFork chain db (utxoApplyReorgClampedFloor db.cursor)
      ((db.cursor : Int) - 1 - utxoApplyReorgClampedFloor db.cursor).toNat = fork
      at forkPoint allowed ⊢
    have belowTip := forkPoint.belowTip
    simp only [reorgIsAllowed, zclReorgAllowed, zclFinalityDepth, Bool.false_and] at allowed
    rw [if_neg (by omega), if_neg (by omega)] at allowed
    rw [zclFinalityDepth]
    by_contra deep
    rw [if_neg deep] at allowed
    simp at allowed
  · exact .idle _ (by simp)

theorem UnwindCases.durable_of_returned_false {chain : ChainView} {after : ApplyDb}
    {outcome : UnwindOutcome} (ran : UnwindCases chain db after outcome)
    (returned : outcome.returned = false)
    : after.durable = db.durable := by
  cases ran with
  | idle => rfl
  | rolledBack first count diverged => rfl
  | unwound diverged unwinds => simp [UnwindOutcome.returned] at returned

-- States of the live fold

/-- Every coin has a block height. -/
def Dated (coins : CoinTable) : Prop :=
  ∀ op coin, coins.lookup op = some coin → 0 ≤ coin.height

/--
The invariant of the live fold. `tables h` is the coin set before height `h` is applied; a
stored delta leads from one coin set to the next.
-/
structure LiveFolded (db : ApplyDb) (tables : Nat → CoinTable) : Prop where
  presents : db.store.Presents (tables db.cursor)
  history : ∀ h, h < db.cursor → (h : Int) ∈ db.deltas → DeltaConnects db.deltas tables h
  below : ∀ h ∈ db.deltas, h < (db.cursor : Int)
  logged : ∀ h row, db.log.lookup h = some row → row.ok = true
  dated : ∀ h, h ≤ db.cursor → Dated (tables h)

/-- The state that an unwind to `fork` leaves. -/
structure UnwoundTo (db : ApplyDb) (tables : Nat → CoinTable) (fork : Int) (after : ApplyDb)
    : Prop where
  coins : after.store.Presents (tables (fork + 1).toNat)
  table : db.store.overlay = none → after.store.coins = tables (fork + 1).toNat
  cursor : (after.cursor : Int) = fork + 1
  frontier : after.coinsAppliedHeight = some (fork + 1)
  rows : NoRowsIn after (fork + 1) ((db.cursor : Int) - 1)

variable {tables : Nat → CoinTable}

theorem LiveFolded.unwind_eq {after : ApplyDb} {forkPlus1 : Nat} (live : LiveFolded db tables)
    (low : forkPlus1 ≤ db.cursor)
    (wrote : utxoApplyReorgUnwindWrites db db.cursor forkPlus1 = (after, true))
    : ∃ store, store.Presents (tables forkPlus1)
        ∧ (db.store.overlay = none → store.overlay = none)
        ∧ after =
            { utxoApplyDeleteRowsAbove { db with store := store } forkPlus1
                ((db.cursor : Int) - 1) with
              cursor := forkPlus1
              coinsAppliedHeight := some (forkPlus1 : Int) } := by
  have count : forkPlus1 + (db.cursor - forkPlus1) = db.cursor := by omega
  simp only [utxoApplyReorgUnwindWrites] at wrote
  split at wrote
  · simp at wrote
  rename_i reached undone
  have history : DeltaHistory db.deltas tables forkPlus1
      (forkPlus1 + (db.cursor - forkPlus1)) := fun h above below =>
    live.history h (by omega) (inverseDeltas_covered live.logged undone h above below)
  obtain ⟨store, restored, presents, keepsOff⟩ :=
    inverseDeltas_restores history (count.symm ▸ live.presents)
  obtain rfl : reached = { db with store := store } :=
    congrArg Prod.fst (undone.symm.trans restored)
  exact ⟨store, presents, keepsOff, (congrArg Prod.fst wrote).symm⟩

theorem Unwinds.unwoundTo {chain : ChainView} {after : ApplyDb} (live : LiveFolded db tables)
    (unwinds : Unwinds chain db after fork)
    : UnwoundTo db tables fork after := by
  have lowest := unwinds.forkPoint.lowest
  have belowTip := unwinds.forkPoint.belowTip
  obtain ⟨store, presents, keepsOff, rfl⟩ := live.unwind_eq (by omega) unwinds.wrote
  have forkPlus1 : ((fork + 1).toNat : Int) = fork + 1 := by omega
  exact {
    coins := presents
    table := fun off => presents.coins_eq (keepsOff off)
    cursor := forkPlus1
    frontier := congrArg some forkPlus1
    rows := by
      have gone := utxoApplyDeleteRowsAbove_gone { db with store := store }
        (fork + 1).toNat ((db.cursor : Int) - 1)
      exact {
        log := fun h low high => gone.log h (by omega) high
        deltas := fun h low high => gone.deltas h (by omega) high
        nullifiers := fun row member within => gone.nullifiers row member (by omega)
        anchors := fun row member within => gone.anchors row member (by omega)
        poolTotals := fun h low high => gone.poolTotals h (by omega) high
      }
  }

theorem Unwinds.liveFolded {chain : ChainView} {after : ApplyDb} (live : LiveFolded db tables)
    (unwinds : Unwinds chain db after fork)
    : LiveFolded after tables := by
  have belowTip := unwinds.forkPoint.belowTip
  obtain ⟨store, presents, -, rfl⟩ := live.unwind_eq (by omega) unwinds.wrote
  have kept : ∀ h : Int,
      h ∈ dropAll db.deltas (heightRange (fork + 1).toNat ((db.cursor : Int) - 1)) →
        h ∈ db.deltas ∧ h < (fork + 1).toNat := by
    intro h member
    obtain ⟨row, found⟩ := Finmap.mem_iff.mp member
    rw [lookup_dropAll] at found
    split at found
    · simp at found
    · rename_i outside
      have inDeltas := Finmap.mem_of_lookup_eq_some found
      rw [mem_heightRange] at outside
      have belowCursor := live.below h inDeltas
      exact ⟨inDeltas, by omega⟩
  refine {
    presents := presents
    history := ?_
    below := fun h member => (kept h member).2
    logged := ?_
    dated := fun h low => live.dated h (by simp at low; omega)
  }
  · intro h low member
    obtain ⟨s, branchHash, stored, rest⟩ := live.history h (by simp at low; omega) (kept h member).1
    refine ⟨s, branchHash, ?_, rest⟩
    simp only [utxoApplyDeleteRowsAbove]
    rw [lookup_dropAll, if_neg, stored]
    rw [mem_heightRange]
    have := (kept h member).2
    omega
  · intro h row found
    simp only [utxoApplyDeleteRowsAbove] at found
    rw [lookup_dropAll] at found
    split at found
    · simp at found
    · exact live.logged h row found

end Z23.Jobs
