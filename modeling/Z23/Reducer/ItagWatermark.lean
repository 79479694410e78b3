import Z23.Reducer.ProvableFrontier

/-!
The watermark of verified rows: the connection that carries it, the update hook that revokes it
and the histories in which it does not change H*.
-/

namespace Z23.Reducer

open Z23.Lib Z23.Lib.KeyedRows

-- A connection

/-- The client data of a connection: a verified height and the epoch that it was published in. -/
structure ItagWatermarkState where
  epoch : Nat
  height : Int
deriving DecidableEq, Repr

/--
An open transaction or savepoint: the database that a rollback restores. `touched` and `exposed`
are for reasoning only: a stage-log row was written since, and a call was made after that.
-/
structure Savepoint where
  db : ProgressDb
  touched : Bool
  exposed : Bool

/--
A connection and the process around it. `publishedAnchor`, the anchor of the call that published
the client data, is for reasoning only.
-/
structure Connection where
  db : ProgressDb
  floor : Floor
  clientdata : Option ItagWatermarkState
  epoch : Nat
  savepoints : List Savepoint
  publishedAnchor : Int

inductive UpdateOp where
  | insert
  | update
  | delete
deriving DecidableEq, Repr

/-- The update hook; the tables it is called for are stage logs. -/
def itagWatermarkUpdate (op : UpdateOp) (rowid : Int) (state : ItagWatermarkState)
    : ItagWatermarkState :=
  if state.height < 0 then state
  else if op = .update || rowid ≤ state.height then { state with height := -1 }
  else state

def reducerFrontierItagWatermark (conn : Connection) : Int :=
  match conn.clientdata with
  | some state => if state.epoch = conn.epoch then state.height else -1
  | none => -1

def reducerFrontierItagWatermarkPublish (conn : Connection) (hstar : Int) : Connection :=
  { conn with clientdata := some ⟨conn.epoch, hstar⟩ }

def reducerFrontierItagWatermarkReset (conn : Connection) : Connection :=
  { conn with epoch := conn.epoch + 1 }

/-- A write of one stage-log row: the new table, and the hook for the row. -/
def Connection.writeLog (conn : Connection) (log : StageLog) (rows : KeyedRows LogRow)
    (op : UpdateOp) (rowid : Int) : Connection :=
  { conn with
    db := { conn.db with log := Function.update conn.db.log log rows }
    clientdata := conn.clientdata.map (itagWatermarkUpdate op rowid)
    savepoints := conn.savepoints.map fun saved => { saved with touched := true } }

inductive ConnectionEvent where
  | insertRow (log : StageLog) (height : Int) (row : LogRow)
  | updateRow (log : StageLog) (height newHeight : Int) (row : LogRow)
  | deleteRow (log : StageLog) (height : Int)
  | writeCursor (log : StageLog) (cursor : Int)
  | writeOther (other : ProgressDb)
  | setFloor (floor : Floor)
  | begin
  | commit
  | rollback
  | reset
  | computeHstar

/-- The database with every table of another one but the stage logs, their columns and cursors. -/
def ProgressDb.withOther (db other : ProgressDb) : ProgressDb :=
  { other with
    log := db.log
    itagColumn := db.itagColumn
    scriptBlockHashColumn := db.scriptBlockHashColumn
    proofBlockHashColumn := db.proofBlockHashColumn
    cursor := db.cursor }

/-- A call with the watermark of the connection. -/
def Connection.call (env : FrontierEnv) (conn : Connection) : Option Frontier :=
  reducerFrontierComputeHstar env conn.floor conn.db (reducerFrontierItagWatermark conn)

/-- What a call leaves: a call that fails publishes nothing. -/
def Connection.afterCall (env : FrontierEnv) (conn : Connection) : Connection :=
  match conn.call env with
  | none => conn
  | some frontier =>
    { reducerFrontierItagWatermarkPublish conn frontier.hstar with
      savepoints := conn.savepoints.map fun saved => { saved with exposed := saved.touched }
      publishedAnchor :=
        (reducerTrustedAnchor env conn.db conn.floor).getD conn.publishedAnchor }

def connectionEvent (env : FrontierEnv) (conn : Connection) : ConnectionEvent → Connection
  | .insertRow log height row =>
    conn.writeLog log ((conn.db.log log).upsert height row) .insert height
  | .updateRow log height newHeight row =>
    if ((conn.db.log log).lookup height).isNone then conn
    else
      conn.writeLog log (((conn.db.log log).erase height).upsert newHeight row) .update newHeight
  | .deleteRow log height =>
    if ((conn.db.log log).lookup height).isNone then conn
    else conn.writeLog log ((conn.db.log log).erase height) .delete height
  | .writeCursor log cursor =>
    { conn with db := { conn.db with cursor := Function.update conn.db.cursor log cursor } }
  | .writeOther other => { conn with db := conn.db.withOther other }
  | .setFloor floor => { conn with floor := floor }
  | .begin => { conn with savepoints := ⟨conn.db, false, false⟩ :: conn.savepoints }
  | .commit => { conn with savepoints := conn.savepoints.tail }
  | .rollback =>
    match conn.savepoints with
    | [] => conn
    | saved :: rest => { conn with db := saved.db, savepoints := rest }
  | .reset => reducerFrontierItagWatermarkReset conn
  | .computeHstar => conn.afterCall env

/--
While a watermark is in force, no rollback undoes rows that a call has read, and no call selects
an anchor below that of the call that published it.
-/
def KeepsPromise (env : FrontierEnv) (conn : Connection) (event : ConnectionEvent) : Prop :=
  0 ≤ reducerFrontierItagWatermark conn →
    match event with
    | .rollback => ∀ saved ∈ conn.savepoints.head?, saved.exposed = false
    | .computeHstar => ∀ anchor, reducerTrustedAnchor env conn.db conn.floor = some anchor →
        conn.publishedAnchor ≤ anchor
    | _ => True

/-- The states that a history reaches from a connection that has published nothing. -/
inductive Reached (env : FrontierEnv) : Connection → Prop where
  | opened (db : ProgressDb) (floor : Floor) (epoch : Nat)
      : Reached env ⟨db, floor, none, epoch, [], 0⟩
  | event {conn : Connection} (reached : Reached env conn) (event : ConnectionEvent)
      (keeps : KeepsPromise env conn event) : Reached env (connectionEvent env conn event)

-- What a published height promises

/-- Every log has a row that counts, its tag included, at each height of the interval. -/
def Verified (env : FrontierEnv) (db : ProgressDb) (anchor height : Int) : Prop :=
  ∀ log k, anchor < k → k ≤ height →
    ∃ row, (db.log log).lookup k = some row
      ∧ logRowDecodeOk env log (db.itagColumn log) k row = true

theorem Verified.of_same_rows {env : FrontierEnv} {db db' : ProgressDb} {anchor height : Int}
    (verified : Verified env db anchor height) (sameLog : db'.log = db.log)
    (sameColumn : db'.itagColumn = db.itagColumn) : Verified env db' anchor height := by
  intro log k passed upTo
  rw [sameLog, sameColumn]
  exact verified log k passed upTo

theorem scanFloor_spec (anchor cursor verifyAbove : Int)
    : anchor ≤ reducerFrontierItagScanFloor anchor cursor verifyAbove
        ∧ (∀ k, anchor < k → k ≤ reducerFrontierItagScanFloor anchor cursor verifyAbove →
            k < cursor ∧ k ≤ verifyAbove)
        ∧ ∀ k, reducerFrontierItagScanFloor anchor cursor verifyAbove < k → k < cursor →
            verifyAbove < k := by
  simp only [reducerFrontierItagScanFloor]
  split
  · exact ⟨le_rfl, fun k passed upTo => by omega, fun k passed below => by omega⟩
  split
  · split
    · exact ⟨by omega, fun k passed upTo => by omega, fun k passed below => by omega⟩
    · exact ⟨by omega, fun k passed upTo => by omega, fun k passed below => by omega⟩
  · exact ⟨le_rfl, fun k passed upTo => by omega, fun k passed below => by omega⟩

section Prefix

variable {env : FrontierEnv} {db : ProgressDb} {anchor published watermark : Int}

/-- One log: the scan above the watermark reaches the height that the full scan reaches. -/
theorem logContiguousPrefix_watermark {log : StageLog} {cursor : Int}
    (verified : Verified env db published watermark) (raised : published ≤ anchor)
    (low : 0 ≤ anchor)
    : logContiguousPrefix env db log anchor cursor watermark
        = logContiguousPrefix env db log anchor cursor (-1) := by
  obtain ⟨start, inside, outside⟩ := scanFloor_spec anchor cursor watermark
  have none : reducerFrontierItagScanFloor anchor cursor (-1) = anchor := scanFloor_of_le (by omega)
  rw [logContiguousPrefix_eq, logContiguousPrefix_eq, none]
  congr 1
  generalize reducerFrontierItagScanFloor anchor cursor watermark = scanFloor at *
  have reached : scanFloor ≤ runEnd (countsAbove env db log (-1)) anchor
      ((db.log log).between anchor cursor) := by
    refine (le_runEnd_between_iff start).mpr fun k passed upTo => ?_
    obtain ⟨below, promised⟩ := inside k passed upTo
    obtain ⟨row, found, counts⟩ := verified log k (by omega) promised
    exact ⟨below, row, found, by rwa [countsAbove_unverified (by omega)]⟩
  rw [runEnd_between_skip start reached]
  refine runEnd_congr fun row member => ?_
  obtain ⟨passed, below, -⟩ := mem_between.mp (show (row.1, row.2) ∈ _ from member)
  have checked : row.1 > watermark := outside row.1 passed below
  rw [countsAbove_unverified (by omega)]
  simp only [countsAbove, decide_eq_true checked, Bool.and_true]

theorem hstarAbove_watermark (verified : Verified env db published watermark)
    (raised : published ≤ anchor) (low : 0 ≤ anchor)
    : hstarAbove env db watermark anchor = hstarAbove env db (-1) anchor := by
  have logs : ∀ log cursor, logContiguousPrefix env db log anchor cursor watermark
      = logContiguousPrefix env db log anchor cursor (-1) :=
    fun _ _ => logContiguousPrefix_watermark verified raised low
  have least : leastContiguous env db anchor watermark = leastContiguous env db anchor (-1) := by
    simp only [leastContiguous, logs]
  simp only [hstarAbove]
  rw [least]

theorem applyHashAgreement_le {hstar : Int} (low : 0 ≤ anchor) (high : hstar ≤ int32Max)
    : reducerFrontierApplyHashAgreement db anchor hstar ≤ hstar := by
  simp only [reducerFrontierApplyHashAgreement]
  split
  · exact le_rfl
  split
  · exact le_rfl
  · rename_i _ h row first
    obtain ⟨⟨passed, under, -⟩, -⟩ := between_find? first
    have exact32 : castInt32 h = h := castInt32_of_fits (by omega) (by omega)
    simp only [exact32]
    split <;> omega

theorem hstarAbove_verified (low : 0 ≤ anchor)
    : Verified env db anchor (hstarAbove env db (-1) anchor) := by
  intro log k passed upTo
  have least := le_leastContiguous_iff.mp (le_refl (leastContiguous env db anchor (-1)))
  have reached : k ≤ leastContiguous env db anchor (-1) := by
    simp only [hstarAbove] at upTo
    split at upTo
    · simp only [reducerFrontierApplyHashAgreement, le_refl, if_true, max_self] at upTo
      omega
    · have clamped : reducerFrontierApplyHashAgreement db anchor _ ≤ _ :=
        applyHashAgreement_le low least.1
      omega
  have run := reached.trans (least.2 log)
  rw [logContiguousPrefix_eq, scanFloor_of_le (by omega)] at run
  have start : anchor ≤ runEnd (countsAbove env db log (-1)) anchor
      ((db.log log).between anchor (frontierNextCursor log (db.cursor log))) := le_runEnd_between
  have whole := run.trans (castInt32_le (by omega))
  obtain ⟨-, row, found, counts⟩ := (le_runEnd_between_iff passed.le).mp whole k passed le_rfl
  exact ⟨row, found, by rwa [countsAbove_unverified (by omega)] at counts⟩

end Prefix

-- Histories

/--
The promise of the watermark holds of the database and of each database that a rollback may
restore.
-/
structure WatermarkSound (env : FrontierEnv) (conn : Connection) : Prop where
  aged : ∀ state ∈ conn.clientdata, state.epoch ≤ conn.epoch
  promised : 0 ≤ reducerFrontierItagWatermark conn →
    Verified env conn.db conn.publishedAnchor (reducerFrontierItagWatermark conn)
  saved : ∀ saved ∈ conn.savepoints, saved.exposed = false →
    0 ≤ reducerFrontierItagWatermark conn →
      Verified env saved.db conn.publishedAnchor (reducerFrontierItagWatermark conn)
  untouched : ∀ saved ∈ conn.savepoints, saved.touched = false → saved.db.log = conn.db.log
  columns : ∀ saved ∈ conn.savepoints, saved.db.itagColumn = conn.db.itagColumn
  nested : conn.savepoints.Pairwise
    (fun inner outer => outer.touched = false → inner.touched = false)

section Events

variable {env : FrontierEnv} {conn : Connection}

theorem watermark_writeLog {log : StageLog} {rows : KeyedRows LogRow} {op : UpdateOp} {rowid : Int}
    (inForce : 0 ≤ reducerFrontierItagWatermark (conn.writeLog log rows op rowid))
    : reducerFrontierItagWatermark (conn.writeLog log rows op rowid)
          = reducerFrontierItagWatermark conn
        ∧ op ≠ .update ∧ reducerFrontierItagWatermark conn < rowid := by
  revert inForce
  simp only [reducerFrontierItagWatermark, Connection.writeLog]
  cases conn.clientdata with
  | none => simp
  | some state =>
    simp only [Option.map_some, itagWatermarkUpdate]
    intro inForce
    grind

section

variable (sound : WatermarkSound env conn)
include sound

theorem WatermarkSound.writeLog {log : StageLog} {rows : KeyedRows LogRow} {op : UpdateOp}
    {rowid : Int}
    (frame : op ≠ .update → ∀ k, k ≠ rowid → rows.lookup k = (conn.db.log log).lookup k)
    : WatermarkSound env (conn.writeLog log rows op rowid) := by
  refine { aged := ?_, promised := ?_, saved := ?_, untouched := ?_, columns := ?_, nested := ?_ }
  · intro state member
    obtain ⟨state', member', rfl⟩ := Option.mem_map.mp member
    have aged := sound.aged state' member'
    simp only [itagWatermarkUpdate]
    split
    · exact aged
    split
    · exact aged
    · exact aged
  · intro inForce
    obtain ⟨same, notUpdate, below⟩ := watermark_writeLog inForce
    rw [same] at inForce ⊢
    intro log' k passed upTo
    obtain ⟨row, found, counts⟩ := sound.promised inForce log' k passed upTo
    refine ⟨row, ?_, counts⟩
    rcases eq_or_ne log' log with rfl | other
    · simp only [Connection.writeLog, Function.update_self]
      rw [frame notUpdate k (by omega)]
      exact found
    · simpa [Connection.writeLog, Function.update_of_ne other] using found
  · intro saved member unexposed inForce
    obtain ⟨saved', member', rfl⟩ := List.mem_map.mp member
    obtain ⟨same, -, -⟩ := watermark_writeLog inForce
    rw [same] at inForce ⊢
    exact sound.saved saved' member' unexposed inForce
  · intro saved member untouched
    obtain ⟨saved', -, rfl⟩ := List.mem_map.mp member
    cases untouched
  · intro saved member
    obtain ⟨saved', member', rfl⟩ := List.mem_map.mp member
    exact sound.columns saved' member'
  · exact List.pairwise_map.mpr (List.pairwise_of_forall fun _ _ touched => touched)

theorem WatermarkSound.of_same_rows {db : ProgressDb} (sameLog : db.log = conn.db.log)
    (sameColumn : db.itagColumn = conn.db.itagColumn)
    : WatermarkSound env { conn with db := db } where
  aged := sound.aged
  promised := fun inForce => (sound.promised inForce).of_same_rows sameLog sameColumn
  saved := sound.saved
  untouched := fun saved member untouched =>
    (sound.untouched saved member untouched).trans sameLog.symm
  columns := fun saved member => (sound.columns saved member).trans sameColumn.symm
  nested := sound.nested

theorem WatermarkSound.begin : WatermarkSound env (connectionEvent env conn .begin) where
  aged := sound.aged
  promised := sound.promised
  saved := by
    intro saved member unexposed inForce
    rcases List.mem_cons.mp member with rfl | member
    · exact sound.promised inForce
    · exact sound.saved saved member unexposed inForce
  untouched := by
    intro saved member untouched
    rcases List.mem_cons.mp member with rfl | member
    · rfl
    · exact sound.untouched saved member untouched
  columns := by
    intro saved member
    rcases List.mem_cons.mp member with rfl | member
    · rfl
    · exact sound.columns saved member
  nested := List.pairwise_cons.mpr ⟨fun _ _ _ => rfl, sound.nested⟩

theorem WatermarkSound.commit : WatermarkSound env (connectionEvent env conn .commit) where
  aged := sound.aged
  promised := sound.promised
  saved := fun saved member => sound.saved saved (List.mem_of_mem_tail member)
  untouched := fun saved member => sound.untouched saved (List.mem_of_mem_tail member)
  columns := fun saved member => sound.columns saved (List.mem_of_mem_tail member)
  nested := sound.nested.sublist (List.tail_sublist _)

theorem WatermarkSound.rollback (keeps : KeepsPromise env conn .rollback)
    : WatermarkSound env (connectionEvent env conn .rollback) := by
  simp only [connectionEvent]
  cases stack : conn.savepoints with
  | nil => exact sound
  | cons inner rest =>
    have innerMember : inner ∈ conn.savepoints := by simp [stack]
    have restMember : ∀ saved ∈ rest, saved ∈ conn.savepoints := by
      intro saved member
      simp [stack, member]
    have nested := sound.nested
    rw [stack] at nested
    obtain ⟨below, nested⟩ := List.pairwise_cons.mp nested
    refine { aged := sound.aged, promised := ?_, saved := ?_, untouched := ?_, columns := ?_,
             nested := nested }
    · intro inForce
      have unexposed : inner.exposed = false := keeps inForce inner (by simp [stack])
      exact sound.saved inner innerMember unexposed inForce
    · exact fun saved member => sound.saved saved (restMember saved member)
    · intro saved member untouched
      have same := sound.untouched saved (restMember saved member) untouched
      have innerSame := sound.untouched inner innerMember (below saved member untouched)
      exact same.trans innerSame.symm
    · intro saved member
      exact (sound.columns saved (restMember saved member)).trans
        (sound.columns inner innerMember).symm

theorem WatermarkSound.reset : WatermarkSound env (connectionEvent env conn .reset) := by
  have none : ¬0 ≤ reducerFrontierItagWatermark (connectionEvent env conn .reset) := by
    simp only [connectionEvent, reducerFrontierItagWatermarkReset, reducerFrontierItagWatermark]
    cases published : conn.clientdata with
    | none => simp
    | some state =>
      have aged := sound.aged state published
      have past : state.epoch ≠ conn.epoch + 1 := by omega
      simp [past]
  exact { aged := fun state member => Nat.le_succ_of_le (sound.aged state member)
          promised := fun inForce => absurd inForce none
          saved := fun _ _ _ inForce => absurd inForce none
          untouched := sound.untouched
          columns := sound.columns
          nested := sound.nested }

theorem WatermarkSound.call_eq (keeps : KeepsPromise env conn .computeHstar)
    : conn.call env = reducerFrontierComputeHstar env conn.floor conn.db (-1) := by
  simp only [Connection.call, reducerFrontierComputeHstar]
  cases selected : reducerTrustedAnchor env conn.db conn.floor with
  | none => rfl
  | some anchor =>
    obtain ⟨low, -⟩ := reducerTrustedAnchor_fits selected
    rcases lt_or_ge (reducerFrontierItagWatermark conn) 0 with revoked | inForce
    · have vacuous : Verified env conn.db anchor (reducerFrontierItagWatermark conn) :=
        fun _ k passed upTo => absurd passed (by omega)
      rw [Option.map_some, Option.map_some, hstarAbove_watermark vacuous le_rfl low]
    · have kept := keeps inForce anchor selected
      rw [Option.map_some, Option.map_some, hstarAbove_watermark (sound.promised inForce) kept low]

/-- A call publishes a height that it has verified, also for what no write has touched since. -/
theorem WatermarkSound.computeHstar (keeps : KeepsPromise env conn .computeHstar)
    : WatermarkSound env (connectionEvent env conn .computeHstar) := by
  simp only [connectionEvent, Connection.afterCall, sound.call_eq keeps,
    reducerFrontierComputeHstar]
  cases selected : reducerTrustedAnchor env conn.db conn.floor with
  | none => exact sound
  | some anchor =>
    have verified : Verified env conn.db anchor (hstarAbove env conn.db (-1) anchor) :=
      hstarAbove_verified (reducerTrustedAnchor_fits selected).1
    have published : ∀ savepoints publishedAnchor, reducerFrontierItagWatermark
        { reducerFrontierItagWatermarkPublish conn (hstarAbove env conn.db (-1) anchor) with
          savepoints := savepoints, publishedAnchor := publishedAnchor }
          = hstarAbove env conn.db (-1) anchor := by
      intro savepoints publishedAnchor
      simp [reducerFrontierItagWatermark, reducerFrontierItagWatermarkPublish]
    simp only [Option.map_some, Option.getD_some]
    refine { aged := ?_, promised := ?_, saved := ?_, untouched := ?_, columns := ?_, nested := ?_ }
    · intro state member
      cases Option.mem_some.mp member
      exact le_rfl
    · intro _
      rw [published]
      exact verified
    · intro saved member unexposed _
      obtain ⟨saved', member', rfl⟩ := List.mem_map.mp member
      rw [published]
      exact verified.of_same_rows (sound.untouched saved' member' unexposed)
        (sound.columns saved' member')
    · intro saved member untouched
      obtain ⟨saved', member', rfl⟩ := List.mem_map.mp member
      exact sound.untouched saved' member' untouched
    · intro saved member
      obtain ⟨saved', member', rfl⟩ := List.mem_map.mp member
      exact sound.columns saved' member'
    · exact List.pairwise_map.mpr sound.nested

theorem WatermarkSound.event {event : ConnectionEvent} (keeps : KeepsPromise env conn event)
    : WatermarkSound env (connectionEvent env conn event) := by
  cases event with
  | insertRow log height row =>
    exact sound.writeLog fun _ k other => lookup_upsert_of_ne other
  | updateRow log height newHeight row =>
    simp only [connectionEvent]
    split
    · exact sound
    · exact sound.writeLog fun notUpdate => absurd rfl notUpdate
  | deleteRow log height =>
    simp only [connectionEvent]
    split
    · exact sound
    · exact sound.writeLog fun _ k other => lookup_erase_of_ne other
  | writeCursor log cursor => exact sound.of_same_rows rfl rfl
  | writeOther other => exact sound.of_same_rows rfl rfl
  | setFloor floor =>
    exact { aged := sound.aged, promised := sound.promised, saved := sound.saved,
            untouched := sound.untouched, columns := sound.columns, nested := sound.nested }
  | begin => exact sound.begin
  | commit => exact sound.commit
  | rollback => exact sound.rollback keeps
  | reset => exact sound.reset
  | computeHstar => exact sound.computeHstar keeps

end

end Events

theorem Reached.sound {env : FrontierEnv} {conn : Connection} (reached : Reached env conn)
    : WatermarkSound env conn := by
  induction reached with
  | opened db floor epoch =>
    have none : ¬0 ≤ reducerFrontierItagWatermark ⟨db, floor, none, epoch, [], 0⟩ := by
      simp [reducerFrontierItagWatermark]
    exact { aged := by simp, promised := fun inForce => absurd inForce none, saved := by simp,
            untouched := by simp, columns := by simp, nested := .nil }
  | event _ _ keeps sound => exact sound.event keeps

/-- In every history that keeps the promise, the watermark does not change a call's result. -/
theorem computeHstar_watermark {env : FrontierEnv} {conn : Connection} (reached : Reached env conn)
    (keeps : KeepsPromise env conn .computeHstar)
    : conn.call env = reducerFrontierComputeHstar env conn.floor conn.db (-1) :=
  reached.sound.call_eq keeps

def connectionEvents (env : FrontierEnv) (conn : Connection) (events : List ConnectionEvent)
    : Connection :=
  events.foldl (connectionEvent env) conn

def opened (db : ProgressDb) (floor : Floor) : Connection := ⟨db, floor, none, 1, [], 0⟩

/-- A call in a transaction that is rolled back, and a call after it. -/
theorem computeHstar_watermark_sample
    : (connectionEvents sampleEnv (opened (sampleDb 1) genesisFloor)
          [.begin, .computeHstar, .rollback]).call sampleEnv = some ⟨1, 1⟩ := by
  have fresh : Reached sampleEnv (opened (sampleDb 1) genesisFloor) := .opened _ _ _
  have begun := fresh.event .begin fun _ => trivial
  have called := begun.event .computeHstar fun inForce => absurd inForce (by decide)
  have restored := called.event .rollback fun _ saved member => by
    cases Option.mem_some.mp member
    decide
  have computed : reducerFrontierComputeHstar sampleEnv genesisFloor (sampleDb 1) (-1)
      = some ⟨1, 1⟩ := by
    decide
  exact (computeHstar_watermark restored fun _ anchor selected =>
    (reducerTrustedAnchor_fits selected).1).trans computed

/-- Height 1 is logged by every stage but utxo_apply, whose cursor is past it all the same. -/
def gapDb : ProgressDb :=
  { sampleDb 1 with
    log := fun log => if log = .utxoApply then KeyedRows.empty else singleRow 1 (sampleRow 1) }

/-- A row is logged in a transaction, H* is computed and the transaction is rolled back. -/
def undoneRow : Connection :=
  connectionEvents sampleEnv (opened gapDb genesisFloor)
    [.begin, .insertRow .utxoApply 1 (sampleRow 1), .computeHstar, .rollback]

/-- The coins cover height 1 and no stage has logged it. -/
def coveredDb : ProgressDb :=
  { sampleDb 1 with
    log := fun _ => KeyedRows.empty
    coinsAppliedHeight := some [2, 0, 0, 0, 0, 0, 0, 0]
    migrationComplete := some [1] }

/-- H* is computed above the floor 1, which is then lowered to genesis. -/
def loweredFloor : Connection :=
  connectionEvents sampleEnv (opened coveredDb ⟨1, by decide⟩)
    [.computeHstar, .setFloor genesisFloor]

/--
A height published in a transaction outlives its rollback, and a height published above a high
anchor outlives the anchor; the next call then reports 1 where nothing above 0 is proven.
-/
theorem computeHstar_stale_watermark
    : (undoneRow.call sampleEnv = some ⟨1, 1⟩
        ∧ reducerFrontierComputeHstar sampleEnv undoneRow.floor undoneRow.db (-1) = some ⟨0, 1⟩)
      ∧ loweredFloor.call sampleEnv = some ⟨1, 0⟩
        ∧ reducerFrontierComputeHstar sampleEnv loweredFloor.floor loweredFloor.db (-1)
            = some ⟨0, 0⟩ := by
  decide

end Z23.Reducer
