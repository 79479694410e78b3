import Z23.Lib.Transactions
import Z23.Sync.StageLcc

/-!
One run of a stage: the step and the cursor write inside a transaction of their own, or inside a
savepoint of an open batch, with every place where a statement or the process can fail.
-/

namespace Z23.Sync

open Z23.Lib.FiniteMap
open Z23.Lib.Transactions

-- Data model

/-- The rows of the progress store: those that the runner reads, and all others. -/
structure Content (ρ : Type) where
  store : StageStore
  rows : ρ

inductive JobResult where
  | advanced
  | blocked
  | idle
  | fatal
deriving DecidableEq, Repr

/-- What a step leaves: the rows as it wrote them, its result, its cursor and its blocker. -/
structure StepReturn (ρ : Type) where
  content : Content ρ
  result : JobResult
  cursorOut : Nat
  blockerNamed : Bool

/-- A step reads `cursor_in` and the rows. -/
abbrev StepFn (ρ : Type) := Nat → Content ρ → StepReturn ρ

structure Stage where
  name : String
  cursor : Nat
  advancedCount : Nat
  blockedCount : Nat
  idleCount : Nat
  errorCount : Nat
deriving DecidableEq, Repr

/-- The connection, and the memory of the process: the open batch and the stage. -/
structure StageMachine (ρ : Type) where
  db : Conn (Content ρ)
  batch : StageBatch
  stage : Stage

inductive CrashPoint where
  | beforeOpening
  | inStep
  | beforeFinishing
  | whileFinishing (written : Bool)
deriving DecidableEq, Repr

/--
How the statements of a run fare. A `ROLLBACK` inside an open transaction does not fail; the
`RELEASE` behind a `ROLLBACK TO` may.
-/
structure Faults where
  read : Option Fault := none
  opening : Option Fault := none
  stepping : Bool := false
  coupling : Option Fault := none
  writing : Option Fault := none
  finishing : Option Fault := none
  undoing : Option Fault := none
  crash : Option CrashPoint := none
deriving DecidableEq, Repr

/-- A run returns, or the process dies and leaves what the file holds. -/
inductive RunEnd (ρ : Type) where
  | returned (result : JobResult) (machine : StageMachine ρ)
  | crashed (durable : Content ρ)

def RunEnd.durable {ρ : Type} : RunEnd ρ → Content ρ
  | .returned _ machine => machine.db.durable
  | .crashed durable => durable

def Content.setCursor {ρ : Type} (content : Content ρ) (name : String) (value : Nat) : Content ρ :=
  { content with store := content.store.setCursor name value }

-- The run

variable {ρ : Type}

def StageMachine.noteFatal (machine : StageMachine ρ) : StageMachine ρ :=
  { machine with stage := { machine.stage with errorCount := machine.stage.errorCount + 1 } }

/-- `SAVEPOINT` inside a batch, else `BEGIN IMMEDIATE`. -/
def stageTxnOpen (faults : Faults) (batched : Bool) (db : Conn (Content ρ))
    : Except (Conn (Content ρ)) (Conn (Content ρ)) :=
  match faults.opening with
  | some how => .error (db.fail how)
  | none =>
    if batched then .ok db.savepoint
    else
      match db.begin with
      | none => .error db
      | some db => .ok db

/-- `RELEASE` inside a batch, else `COMMIT`. -/
def stageStepFinish (batched : Bool) (db : Conn (Content ρ)) : Option (Conn (Content ρ)) :=
  if batched then db.release else db.commit

def stageStepCommit (faults : Faults) (batched : Bool) (db : Conn (Content ρ))
    : Except (Conn (Content ρ)) (Conn (Content ρ)) :=
  match faults.finishing with
  | some how => .error (db.fail how)
  | none =>
    match stageStepFinish batched db with
    | none => .error db
    | some db => .ok db

def stageStepRollback (faults : Faults) (batched : Bool) (db : Conn (Content ρ))
    : Conn (Content ρ) :=
  if batched then
    match db.rollbackTo with
    | none => db
    | some db =>
      match faults.undoing with
      | some how => db.fail how
      | none => db.release.getD db
  else db.rollback.getD db

/-- Models the check of a raise in `cursor_write_locked_known_prev`; an error passes it. -/
def cursorRaiseRefused (faults : Faults) (store : StageStore) (name : String) (value prev : Nat)
    : Bool :=
  faults.coupling.isNone && store.enforce && !stageLccCheckRaise store name prev value

/-- What the statements of the check leave of the transaction. -/
def couplingDb (faults : Faults) (db : Conn (Content ρ)) : Conn (Content ρ) :=
  match faults.coupling with
  | none => db
  | some how => db.fail how

/-- The `INSERT` of `cursor_write_locked_known_prev`. -/
def cursorUpsert (faults : Faults) (name : String) (value : Nat) (db : Conn (Content ρ))
    : Except (Conn (Content ρ)) (Conn (Content ρ)) :=
  match faults.writing with
  | some how => .error (db.fail how)
  | none => .ok (db.write (db.current.setCursor name value))

/-- Whether a raise is left to the check at the end of the batch, and the batch with it. -/
def cursorDefer (batch : StageBatch) (name : String) (value prev : Nat) : StageBatch × Bool :=
  if value > prev && batch.isOpen then stageBatchDeferLcc batch name prev value
  else (batch, false)

/-- Models `cursor_write_locked_known_prev` in a run. -/
def stageCursorWrite (faults : Faults) (batch : StageBatch) (name : String) (value prev : Nat)
    (db : Conn (Content ρ)) : StageBatch × Except (Conn (Content ρ)) (Conn (Content ρ)) :=
  let (batch, deferred) := cursorDefer batch name value prev
  if value > prev && !deferred then
    if cursorRaiseRefused faults db.current.store name value prev then (batch, .error db)
    else (batch, cursorUpsert faults name value (couplingDb faults db))
  else (batch, cursorUpsert faults name value db)

/-- The end of `stage_run_once_advance`, behind the cursor write. -/
def stageFinishAdvance (faults : Faults) (cursorOut : Nat) (machine : StageMachine ρ)
    : RunEnd ρ :=
  match faults.crash with
  | some .beforeFinishing | some (.whileFinishing false) => .crashed machine.db.durable
  | some (.whileFinishing true) =>
    .crashed (((stageStepFinish machine.batch.isOpen machine.db).getD machine.db).durable)
  | _ =>
    match stageStepCommit faults machine.batch.isOpen machine.db with
    | .error db =>
      .returned .fatal
        { machine with db := stageStepRollback faults machine.batch.isOpen db }.noteFatal
    | .ok db =>
      .returned .advanced
        { machine with
          db,
          stage := { machine.stage with
            cursor := cursorOut,
            advancedCount := machine.stage.advancedCount + 1 } }

def stageRunOnceAdvance (faults : Faults) (cur cursorOut : Nat) (machine : StageMachine ρ)
    : RunEnd ρ :=
  if cursorOut ≤ cur then
    .returned .fatal
      { machine with db := stageStepRollback faults machine.batch.isOpen machine.db }.noteFatal
  else
    match stageCursorWrite faults machine.batch machine.stage.name cursorOut cur machine.db with
    | (batch, .error db) =>
      .returned .fatal
        { machine with db := stageStepRollback faults machine.batch.isOpen db, batch }.noteFatal
    | (batch, .ok db) => stageFinishAdvance faults cursorOut { machine with db, batch }

def stageRunOnceNonadvance (faults : Faults) (ret : StepReturn ρ) (machine : StageMachine ρ)
    : RunEnd ρ :=
  let machine :=
    { machine with db := stageStepRollback faults machine.batch.isOpen machine.db }
  match ret.result with
  | .blocked =>
    if ret.blockerNamed then
      .returned .blocked { machine with
        stage := { machine.stage with blockedCount := machine.stage.blockedCount + 1 } }
    else .returned .fatal machine.noteFatal
  | .idle =>
    .returned .idle { machine with
      stage := { machine.stage with idleCount := machine.stage.idleCount + 1 } }
  | _ => .returned .fatal machine.noteFatal

/-- The step and what follows it, inside the transaction. -/
def stageRunStep (faults : Faults) (step : StepFn ρ) (cur : Nat) (machine : StageMachine ρ)
    : RunEnd ρ :=
  let ret := step cur machine.db.current
  let db := if faults.stepping then machine.db.cancel else machine.db.write ret.content
  if faults.crash = some .inStep then .crashed db.durable
  else if ret.result = .advanced then
    stageRunOnceAdvance faults cur ret.cursorOut { machine with db }
  else stageRunOnceNonadvance faults ret { machine with db }

def stageRunOnce (faults : Faults) (step : StepFn ρ) (machine : StageMachine ρ) : RunEnd ρ :=
  match faults.read with
  | some how => .returned .fatal { machine with db := machine.db.fail how }.noteFatal
  | none =>
    let cur := machine.db.current.store.cursor machine.stage.name
    let machine := { machine with stage := { machine.stage with cursor := cur } }
    if faults.crash = some .beforeOpening then .crashed machine.db.durable
    else
      match stageTxnOpen faults machine.batch.isOpen machine.db with
      | .error db => .returned .fatal { machine with db }.noteFatal
      | .ok db => stageRunStep faults step cur { machine with db }

-- Atomicity

/-- The cursor that the run reads. -/
def StageMachine.cursorIn (machine : StageMachine ρ) : Nat :=
  machine.db.current.store.cursor machine.stage.name

/-- The rows of a step that advances, with the stage's cursor. -/
def Advances (step : StepFn ρ) (machine : StageMachine ρ) (content : Content ρ) : Prop :=
  (step machine.cursorIn machine.db.current).result = .advanced
    ∧ machine.cursorIn < (step machine.cursorIn machine.db.current).cursorOut
    ∧ content = (step machine.cursorIn machine.db.current).content.setCursor machine.stage.name
        (step machine.cursorIn machine.db.current).cursorOut

/-- The transaction that was open goes on with what was written in it. -/
structure Intact (before after : Conn (Content ρ)) : Prop where
  durable : after.durable = before.durable
  current : after.current = before.current
  saved : before.saved <:+ after.saved

structure Atomic (step : StepFn ρ) (machine : StageMachine ρ) (ends : RunEnd ρ) : Prop where
  durable : ends.durable = machine.db.durable ∨ Advances step machine ends.durable
  visible : ∀ after, ends = .returned .advanced after → Advances step machine after.db.current
  intact
    : machine.batch.isOpen = true →
        ∀ result after, ends = .returned result after → result ≠ .advanced →
          Intact machine.db after.db

/--
SQLite never rolls the transaction back by itself under the step or under the check of the raise,
nor, inside a batch, at any other statement of the run.
-/
structure Faults.KeepsTransaction (faults : Faults) (batched : Bool) : Prop where
  stepping : faults.stepping = false
  coupling : faults.coupling ≠ some .cancelled
  read : batched = true → faults.read ≠ some .cancelled
  opening : batched = true → faults.opening ≠ some .cancelled
  writing : batched = true → faults.writing ≠ some .cancelled
  finishing : batched = true → faults.finishing ≠ some .cancelled
  undoing : batched = true → faults.undoing ≠ some .cancelled

/-- What a run that does not advance owes: to the file always, to an open batch as well. -/
structure Undone (batched : Bool) (before after : Conn (Content ρ)) : Prop where
  durable : after.durable = before.durable
  intact : batched = true → Intact before after

theorem Undone.fail (before : Conn (Content ρ)) {batched : Bool} {how : Fault}
    (keeps : batched = true → some how ≠ some .cancelled)
    : Undone batched before (before.fail how) where
  durable := before.fail_durable how
  intact := by
    intro inBatch
    cases how with
    | undone => exact { durable := rfl, current := rfl, saved := List.suffix_refl _ }
    | cancelled => exact absurd rfl (keeps inBatch)

section Run

variable {faults : Faults} {batched : Bool} {before : Conn (Content ρ)}

theorem stageTxnOpen_ok {db : Conn (Content ρ)} (ran : stageTxnOpen faults batched before = .ok db)
    : db = before.savepoint ∧ (batched = false → before.saved = []) := by
  rw [stageTxnOpen] at ran
  split at ran
  · cases ran
  split at ran
  · rename_i inBatch
    cases ran
    exact ⟨rfl, fun alone => by rw [inBatch] at alone; cases alone⟩
  · rw [Conn.begin] at ran
    by_cases closed : before.saved = []
    · rw [if_pos closed] at ran
      cases ran
      exact ⟨Conn.ext rfl rfl (congrArg (before.current :: ·) closed.symm), fun _ => closed⟩
    · rw [if_neg closed] at ran
      cases ran

theorem stageTxnOpen_error (keeps : faults.KeepsTransaction batched) {db : Conn (Content ρ)}
    (ran : stageTxnOpen faults batched before = .error db)
    : Undone batched before db := by
  rw [stageTxnOpen] at ran
  split at ran
  · rename_i how failed
    cases ran
    exact Undone.fail before fun inBatch => failed ▸ keeps.opening inBatch
  split at ran
  · cases ran
  · split at ran
    · cases ran
      exact { durable := rfl, intact := fun _ =>
        { durable := rfl, current := rfl, saved := List.suffix_refl _ } }
    · cases ran

theorem stageStepRollback_undone (keeps : faults.KeepsTransaction batched)
    (alone : batched = false → before.saved = []) (content : Content ρ) {how : Fault}
    (kept : batched = true → some how ≠ some .cancelled)
    : Undone batched before
        (stageStepRollback faults batched ((before.savepoint.write content).fail how)) := by
  cases batched with
  | false =>
    refine { durable := ?_, intact := fun inBatch => by cases inBatch }
    rw [stageStepRollback, if_neg Bool.false_ne_true, Conn.rollback]
    cases how <;> rfl
  | true =>
    cases how with
    | cancelled => exact absurd rfl (kept rfl)
    | undone =>
      rw [stageStepRollback, if_pos rfl, Conn.fail, Conn.rollbackTo_write_savepoint]
      dsimp only
      have scope : Intact before before.savepoint :=
        { durable := rfl, current := rfl, saved := List.suffix_cons _ _ }
      cases failed : faults.undoing with
      | none =>
        dsimp only
        rw [before.release_savepoint, Option.getD_some]
        exact { durable := rfl, intact := fun _ =>
          { durable := rfl, current := rfl, saved := List.suffix_refl _ } }
      | some how =>
        cases how with
        | undone => exact { durable := rfl, intact := fun _ => scope }
        | cancelled => exact absurd failed (keeps.undoing rfl)

theorem isOpen_cursorDefer (batch : StageBatch) (name : String) (value prev : Nat)
    : (cursorDefer batch name value prev).1.isOpen = batch.isOpen := by
  rw [cursorDefer]
  split
  · rw [stageBatchDeferLcc]
    split
    · rfl
    · split
      · rfl
      · split <;> rfl
  · rfl

theorem cursorUpsert_cases (keeps : faults.KeepsTransaction batched) (name : String) (value : Nat)
    (db : Conn (Content ρ))
    : cursorUpsert faults name value db = .ok (db.write (db.current.setCursor name value))
        ∨ ∃ how, cursorUpsert faults name value db = .error (db.fail how)
          ∧ (batched = true → some how ≠ some .cancelled) := by
  rw [cursorUpsert]
  cases failed : faults.writing with
  | none => exact .inl rfl
  | some how => exact .inr ⟨how, rfl, fun inBatch => failed ▸ keeps.writing inBatch⟩

theorem stageCursorWrite_cases {batch : StageBatch} (keeps : faults.KeepsTransaction batch.isOpen)
    (name : String) (value prev : Nat) (db : Conn (Content ρ))
    : ∃ after, after.isOpen = batch.isOpen
        ∧ (stageCursorWrite faults batch name value prev db
              = (after, .ok (db.write (db.current.setCursor name value)))
          ∨ ∃ how, stageCursorWrite faults batch name value prev db = (after, .error (db.fail how))
              ∧ (batch.isOpen = true → some how ≠ some .cancelled)) := by
  refine ⟨(cursorDefer batch name value prev).1, isOpen_cursorDefer _ _ _ _, ?_⟩
  have passed : couplingDb faults db = db := by
    rw [couplingDb]
    cases failed : faults.coupling with
    | none => rfl
    | some how =>
      cases how with
      | undone => rfl
      | cancelled => exact absurd failed keeps.coupling
  rw [stageCursorWrite, passed]
  dsimp only
  split
  · split
    · exact .inr ⟨.undone, rfl, fun _ => by simp⟩
    · rcases cursorUpsert_cases keeps name value db with ok | ⟨how, failed, kept⟩
      · exact .inl (by rw [ok])
      · exact .inr ⟨how, by rw [failed], kept⟩
  · rcases cursorUpsert_cases keeps name value db with ok | ⟨how, failed, kept⟩
    · exact .inl (by rw [ok])
    · exact .inr ⟨how, by rw [failed], kept⟩

/-- The end of the scope makes its rows those of the scope around it, or those of the file. -/
theorem stageStepFinish_write (alone : batched = false → before.saved = []) (content : Content ρ)
    : ∃ after, stageStepFinish batched (before.savepoint.write content) = some after
        ∧ after.current = content
        ∧ (after.durable = before.durable ∨ after.durable = content) := by
  cases batched with
  | false =>
    rw [stageStepFinish, if_neg Bool.false_ne_true, Conn.commit]
    exact ⟨_, rfl, rfl, .inr rfl⟩
  | true =>
    rw [stageStepFinish, if_pos rfl]
    obtain ⟨durable, current, saved, settled⟩ := before
    cases saved with
    | nil => exact ⟨_, rfl, rfl, .inr rfl⟩
    | cons outer rest => exact ⟨_, rfl, rfl, .inl rfl⟩

end Run

section Machine

variable {faults : Faults} {step : StepFn ρ} {machine : StageMachine ρ}
  (keeps : faults.KeepsTransaction machine.batch.isOpen)

theorem Atomic.of_crash {durable : Content ρ}
    (kept : durable = machine.db.durable ∨ Advances step machine durable)
    : Atomic step machine (.crashed durable) where
  durable := kept
  visible := fun _ same => by cases same
  intact := fun _ _ _ same => by cases same

theorem Atomic.of_undone {result : JobResult} {after : StageMachine ρ}
    (still : result ≠ .advanced) (undone : Undone machine.batch.isOpen machine.db after.db)
    : Atomic step machine (.returned result after) where
  durable := .inl undone.durable
  visible := fun _ same => by
    cases same
    exact absurd rfl still
  intact := fun inBatch _ _ same _ => by
    cases same
    exact undone.intact inBatch

include keeps

section

variable (alone : machine.batch.isOpen = false → machine.db.saved = [])
include alone

variable {running : StageMachine ρ}

theorem stageFinishAdvance_atomic {content : Content ρ} (advances : Advances step machine content)
    (sameBatch : running.batch.isOpen = machine.batch.isOpen)
    (rows : running.db = machine.db.savepoint.write content) (cursorOut : Nat)
    : Atomic step machine (stageFinishAdvance faults cursorOut running) := by
  have inScope : (machine.db.savepoint.write content).durable = machine.db.durable :=
    Conn.write_durable (List.cons_ne_nil _ _) content
  obtain ⟨after, finished, current, durable⟩ := stageStepFinish_write alone content
  have committed : after.durable = machine.db.durable ∨ Advances step machine after.durable := by
    rcases durable with same | same
    · exact .inl same
    · exact .inr (same ▸ advances)
  rw [stageFinishAdvance, sameBatch, rows, finished]
  split
  · exact Atomic.of_crash (.inl inScope)
  · exact Atomic.of_crash (.inl inScope)
  · exact Atomic.of_crash committed
  · rw [stageStepCommit, finished]
    cases failed : faults.finishing with
    | none =>
      dsimp only
      refine { durable := committed, visible := ?_, intact := ?_ }
      · intro _ same
        cases same
        rw [current]
        exact advances
      · intro _ _ _ same still
        cases same
        exact absurd rfl still
    | some how =>
      refine Atomic.of_undone (by simp) ?_
      exact stageStepRollback_undone keeps alone content
        fun inBatch => failed ▸ keeps.finishing inBatch

theorem stageRunOnceAdvance_atomic {ret : StepReturn ρ}
    (returned : step machine.cursorIn machine.db.current = ret) (advanced : ret.result = .advanced)
    (sameBatch : running.batch = machine.batch) (sameName : running.stage.name = machine.stage.name)
    (rows : running.db = machine.db.savepoint.write ret.content)
    : Atomic step machine (stageRunOnceAdvance faults machine.cursorIn ret.cursorOut running) := by
  have undone : ∀ how, (machine.batch.isOpen = true → some how ≠ some .cancelled) →
      Undone machine.batch.isOpen machine.db (stageStepRollback faults machine.batch.isOpen
        ((machine.db.savepoint.write ret.content).fail how)) :=
    fun how kept => stageStepRollback_undone keeps alone ret.content kept
  rw [stageRunOnceAdvance, sameBatch, sameName, rows]
  split
  · exact Atomic.of_undone (by simp) (undone .undone fun _ => by simp)
  · rename_i raises
    have advances : Advances step machine
        (ret.content.setCursor machine.stage.name ret.cursorOut) := by
      rw [Advances, returned]
      exact ⟨advanced, Nat.lt_of_not_le raises, rfl⟩
    obtain ⟨batch, sameOpen, outcome⟩ := stageCursorWrite_cases keeps machine.stage.name
      ret.cursorOut machine.cursorIn (machine.db.savepoint.write ret.content)
    rcases outcome with written | ⟨how, failed, kept⟩
    · rw [written]
      exact stageFinishAdvance_atomic keeps alone advances sameOpen rfl ret.cursorOut
    · rw [failed]
      exact Atomic.of_undone (by simp) (undone how kept)

theorem stageRunStep_atomic (sameBatch : running.batch = machine.batch)
    (sameName : running.stage.name = machine.stage.name)
    (opened : running.db = machine.db.savepoint)
    : Atomic step machine (stageRunStep faults step machine.cursorIn running) := by
  have seen : running.db.current = machine.db.current := by rw [opened]; rfl
  rw [stageRunStep, seen, keeps.stepping]
  generalize returned : step machine.cursorIn machine.db.current = ret
  rw [if_neg Bool.false_ne_true, opened]
  split
  · exact Atomic.of_crash (.inl (Conn.write_durable (List.cons_ne_nil _ _) _))
  split
  · rename_i advanced
    exact stageRunOnceAdvance_atomic keeps alone returned advanced sameBatch sameName rfl
  · have undone := @stageStepRollback_undone _ _ _ _ keeps alone ret.content .undone
      (fun _ => by simp)
    rw [stageRunOnceNonadvance, sameBatch]
    dsimp only
    split
    · split
      · exact Atomic.of_undone (by simp) undone
      · exact Atomic.of_undone (by simp) undone
    · exact Atomic.of_undone (by simp) undone
    · exact Atomic.of_undone (by simp) undone

end

theorem stageRunOnce_atomic : Atomic step machine (stageRunOnce faults step machine) := by
  rw [stageRunOnce]
  split
  · rename_i how failed
    refine Atomic.of_undone (by simp) ?_
    exact Undone.fail machine.db fun inBatch => failed ▸ keeps.read inBatch
  dsimp only
  split
  · exact Atomic.of_crash (.inl rfl)
  split
  · rename_i db ran
    exact Atomic.of_undone (by simp) (stageTxnOpen_error keeps ran)
  · rename_i db ran
    obtain ⟨rfl, alone⟩ := stageTxnOpen_ok ran
    exact stageRunStep_atomic keeps alone rfl rfl rfl

end Machine

-- A single failure

/-- The places where a run can fail. -/
inductive Failure where
  | read (how : Fault)
  | opening (how : Fault)
  | stepping
  | coupling (how : Fault)
  | writing (how : Fault)
  | finishing (how : Fault)
  | undoing (how : Fault)
  | crash (place : CrashPoint)
deriving DecidableEq, Repr

/-- At most one of the places fails. -/
def singleFault : Option Failure → Faults
  | none => {}
  | some (.read how) => { read := some how }
  | some (.opening how) => { opening := some how }
  | some .stepping => { stepping := true }
  | some (.coupling how) => { coupling := some how }
  | some (.writing how) => { writing := some how }
  | some (.finishing how) => { finishing := some how }
  | some (.undoing how) => { undoing := some how }
  | some (.crash place) => { crash := some place }

/-- No row of the runner's own. -/
def blank (rows : ρ) : Content ρ :=
  { store := { logs := ∅, cursors := ∅, trustedBase := 0, enforce := false }, rows }

/-- The cursor of another stage is written. -/
def pending (rows : ρ) : Content ρ := (blank rows).setCursor "other" 1

theorem blank_ne_pending (rows : ρ) : blank rows ≠ pending rows := by
  intro same
  have cursors := congrArg (fun content : Content ρ => content.store.cursor "other") same
  simp [blank, pending, Content.setCursor, StageStore.cursor, StageStore.setCursor] at cursors

def idleStage : Stage where
  name := "stage"
  cursor := 0
  advancedCount := 0
  blockedCount := 0
  idleCount := 0
  errorCount := 0

/-- A batch with the write of an earlier step. -/
def batchedMachine (rows : ρ) (window : Option LccWindow) : StageMachine ρ where
  db := { durable := blank rows, current := pending rows, saved := [blank rows],
          settled := fun closed => nomatch closed }
  batch := { isOpen := true, lcc := window }
  stage := idleStage

def unbatchedMachine (rows : ρ) : StageMachine ρ where
  db := .closed (blank rows)
  batch := { isOpen := false, lcc := none }
  stage := idleStage

def idleStep : StepFn ρ := fun cur content =>
  { content, result := .idle, cursorOut := cur, blockerNamed := false }

/-- A step that writes the cursor of another stage and advances. -/
def writingStep (rows : ρ) : StepFn ρ := fun cur _ =>
  { content := pending rows, result := .advanced, cursorOut := cur + 1, blockerNamed := false }

theorem not_atomic_of_lost {rows : ρ} {step : StepFn ρ} {window : Option LccWindow}
    {ends : RunEnd ρ} {result : JobResult} {after : StageMachine ρ}
    (ran : ends = .returned result after) (still : result ≠ .advanced)
    (lost : after.db.current = blank rows)
    : ¬ Atomic step (batchedMachine rows window) ends := by
  intro atomic
  have intact := atomic.intact rfl result after ran still
  exact blank_ne_pending rows (lost.symm.trans intact.current)

theorem not_atomic_of_torn {rows : ρ} {machine : StageMachine ρ} {ends : RunEnd ρ}
    (named : machine.stage.name = "stage") (before : machine.db.durable = blank rows)
    (torn : ends.durable = (blank rows).setCursor "stage" (machine.cursorIn + 1))
    : ¬ Atomic (writingStep rows) machine ends := by
  intro atomic
  rcases atomic.durable with same | ⟨_, _, same⟩
  · rw [torn, before] at same
    have cursors := congrArg (fun content : Content ρ => content.store.cursor "stage") same
    simp [blank, Content.setCursor, StageStore.cursor, StageStore.setCursor] at cursors
  · rw [torn, named] at same
    have cursors := congrArg (fun content : Content ρ => content.store.cursor "other") same
    simp [writingStep, blank, pending, Content.setCursor, StageStore.cursor,
      StageStore.setCursor] at cursors

/--
For a single failure, the runs of a kind are atomic for every step and every state exactly where
SQLite does not answer the failure by rolling the transaction back.
-/
theorem stageRunOnce_atomic_iff [Inhabited ρ] (failure : Option Failure) (batched : Bool)
    : (∀ (step : StepFn ρ) (machine : StageMachine ρ), machine.batch.isOpen = batched →
          Atomic step machine (stageRunOnce (singleFault failure) step machine))
        ↔ (singleFault failure).KeepsTransaction batched := by
  constructor
  · intro claim
    have lost : ∀ (step : StepFn ρ) result after, result ≠ .advanced →
        after.db.current = blank default →
        stageRunOnce (singleFault failure) step (batchedMachine default none)
          = .returned result after → batched = false := by
      intro step result after still gone ran
      cases batched with
      | false => rfl
      | true => exact absurd (claim step _ rfl) (not_atomic_of_lost ran still gone)
    cases failure with
    | none => constructor <;> simp [singleFault]
    | some failure =>
      cases failure with
      | crash place => constructor <;> simp [singleFault]
      | read how =>
        cases how with
        | undone => constructor <;> simp [singleFault]
        | cancelled =>
          obtain rfl := lost idleStep _ _ (by simp) rfl rfl
          constructor <;> simp [singleFault]
      | opening how =>
        cases how with
        | undone => constructor <;> simp [singleFault]
        | cancelled =>
          obtain rfl := lost idleStep .fatal _ (by simp) rfl rfl
          constructor <;> simp [singleFault]
      | writing how =>
        cases how with
        | undone => constructor <;> simp [singleFault]
        | cancelled =>
          obtain rfl := lost (writingStep default) .fatal _ (by simp) rfl rfl
          constructor <;> simp [singleFault]
      | finishing how =>
        cases how with
        | undone => constructor <;> simp [singleFault]
        | cancelled =>
          obtain rfl := lost (writingStep default) .fatal _ (by simp) rfl rfl
          constructor <;> simp [singleFault]
      | undoing how =>
        cases how with
        | undone => constructor <;> simp [singleFault]
        | cancelled =>
          obtain rfl := lost idleStep .idle _ (by simp) rfl rfl
          constructor <;> simp [singleFault]
      | stepping =>
        exfalso
        cases batched with
        | true => cases lost idleStep .idle _ (by simp) rfl rfl
        | false =>
          exact not_atomic_of_torn rfl rfl rfl
            (claim (writingStep default) (unbatchedMachine default) rfl)
      | coupling how =>
        cases how with
        | undone => constructor <;> simp [singleFault]
        | cancelled =>
          exfalso
          cases batched with
          | true =>
            exact not_atomic_of_torn rfl rfl rfl
              (claim (writingStep default)
                (batchedMachine default (some ⟨"other", 0, 1⟩)) rfl)
          | false =>
            exact not_atomic_of_torn rfl rfl rfl
              (claim (writingStep default) (unbatchedMachine default) rfl)
  · rintro keeps step machine rfl
    exact stageRunOnce_atomic keeps

/--
An input error under the check of the raise cancels the transaction, the check passes, and the
cursor is written by itself.
-/
theorem stageRunOnce_torn
    : ¬ ∀ (failure : Option Failure) (step : StepFn Unit) (machine : StageMachine Unit),
        Atomic step machine (stageRunOnce (singleFault failure) step machine) := by
  intro claim
  exact not_atomic_of_torn rfl rfl rfl
    (claim (some (.coupling .cancelled)) (writingStep ()) (unbatchedMachine ()))

end Z23.Sync
