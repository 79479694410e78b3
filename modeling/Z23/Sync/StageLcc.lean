import Mathlib.Data.Finset.Interval
import Mathlib.Order.Interval.Finset.Nat
import Z23.Lib.FiniteMap

/-!
Log-cursor contiguity: the guard on cursor raises, its deferral inside a batch, and the check of
the net cursor interval at COMMIT.
-/

namespace Z23.Sync

open Z23.Lib.FiniteMap

-- The guard

/--
The rows that the guard reads: the heights of each `<name>_log` table that exists, the stage
cursors, the trusted base (0 when absent) and the enforcement switch.
-/
structure StageStore where
  logs : Table String (Finset Nat)
  cursors : Table String Nat
  trustedBase : Nat
  enforce : Bool
deriving DecidableEq

def lccStageNameMax : Nat := 48

def lccValidStageName (name : String) : Bool :=
  0 < name.length && name.length ≤ lccStageNameMax
    && name.toList.all (fun c =>
      ('a' ≤ c && c ≤ 'z') || ('0' ≤ c && c ≤ '9') || c == '_')

/-- The number of rows with a height in `[lo, hi)`. -/
def lccCountRows (rows : Finset Nat) (lo hi : Nat) : Nat :=
  if hi ≤ lo then 0 else (rows.filter (fun h => lo ≤ h ∧ h < hi)).card

/-- Heights below this one are vetted by the trusted base. -/
def StageStore.exemptBelow (store : StageStore) : Nat :=
  if store.trustedBase = 0 then 0 else store.trustedBase + 1

def lccGapToleratedByTrustedBase (store : StageStore) (rows : Finset Nat)
    (oldCursor newCursor cnt : Nat) : Bool :=
  let lo := if oldCursor > store.exemptBelow then oldCursor else store.exemptBelow
  if lo ≥ newCursor then true
  else
    let cnt2 := if lo ≠ oldCursor then lccCountRows rows lo newCursor else cnt
    cnt2 ≥ newCursor - lo

def stageLccCheckRaise (store : StageStore) (name : String) (oldCursor newCursor : Nat)
    : Bool :=
  if newCursor ≤ oldCursor then true
  else if !lccValidStageName name then true
  else
    match store.logs.lookup name with
    | none => true
    | some rows =>
      let cnt := lccCountRows rows oldCursor newCursor
      if cnt ≥ newCursor - oldCursor then true
      else lccGapToleratedByTrustedBase store rows oldCursor newCursor cnt

theorem lccCountRows_full {rows : Finset Nat} {lo hi : Nat} (nonempty : lo < hi)
    : lccCountRows rows lo hi ≥ hi - lo ↔ ∀ h, lo ≤ h → h < hi → h ∈ rows := by
  have within : rows.filter (fun h => lo ≤ h ∧ h < hi) ⊆ Finset.Ico lo hi := by
    intro h member
    exact Finset.mem_Ico.mpr (Finset.mem_filter.mp member).2
  rw [lccCountRows, if_neg (by omega), ← Nat.card_Ico]
  constructor
  · intro full h low high
    have all := Finset.eq_of_subset_of_card_le within full
    have member : h ∈ rows.filter (fun h => lo ≤ h ∧ h < hi) := all ▸ Finset.mem_Ico.mpr ⟨low, high⟩
    exact (Finset.mem_filter.mp member).1
  · intro covered
    refine Finset.card_le_card fun h member => ?_
    obtain ⟨low, high⟩ := Finset.mem_Ico.mp member
    exact Finset.mem_filter.mpr ⟨covered h low high, low, high⟩

theorem lccGapToleratedByTrustedBase_iff {store : StageStore} {rows : Finset Nat}
    {oldCursor newCursor : Nat}
    : lccGapToleratedByTrustedBase store rows oldCursor newCursor
          (lccCountRows rows oldCursor newCursor) = true
        ↔ ∀ h, oldCursor ≤ h → store.exemptBelow ≤ h → h < newCursor → h ∈ rows := by
  have floor : (if oldCursor > store.exemptBelow then oldCursor else store.exemptBelow)
      = max oldCursor store.exemptBelow := by
    split <;> omega
  have counted : ∀ lo, (if lo ≠ oldCursor then lccCountRows rows lo newCursor
      else lccCountRows rows oldCursor newCursor) = lccCountRows rows lo newCursor := by
    intro lo
    split
    · rfl
    · rename_i same
      rw [not_not.mp same]
  simp only [lccGapToleratedByTrustedBase, floor, counted]
  split
  · rename_i vetted
    exact ⟨fun _ h low exempt high => by omega, fun _ => rfl⟩
  · rename_i unvetted
    rw [decide_eq_true_iff, lccCountRows_full (by omega)]
    constructor
    · intro covered h low exempt high
      exact covered h (by omega) high
    · intro covered h low high
      exact covered h (by omega) (by omega) high

/-- The guard passes exactly the raises without a rowless height above the exempt ones. -/
theorem stageLccCheckRaise_iff {store : StageStore} {name : String} {rows : Finset Nat}
    {oldCursor newCursor : Nat} (valid : lccValidStageName name = true)
    (logged : store.logs.lookup name = some rows)
    : stageLccCheckRaise store name oldCursor newCursor = true
        ↔ ∀ h, oldCursor ≤ h → store.exemptBelow ≤ h → h < newCursor → h ∈ rows := by
  rw [stageLccCheckRaise]
  split
  · rename_i lowers
    exact ⟨fun _ h low _ high => by omega, fun _ => rfl⟩
  rename_i raises
  simp only [valid, Bool.not_true, Bool.false_eq_true, if_false, logged]
  split
  · rename_i full
    refine ⟨fun _ h low _ high => ?_, fun _ => rfl⟩
    exact (lccCountRows_full (by omega)).mp full h low high
  · exact lccGapToleratedByTrustedBase_iff

-- Cursor writes and batches

/-- The deferred check: its stage, and the cursor before the first and after the last raise. -/
structure LccWindow where
  name : String
  initial : Nat
  final : Nat
deriving DecidableEq, Repr

structure StageBatch where
  isOpen : Bool
  lcc : Option LccWindow
deriving DecidableEq, Repr

def stageBatchDeferLcc (batch : StageBatch) (name : String) (oldCursor newCursor : Nat)
    : StageBatch × Bool :=
  if !batch.isOpen || name = "" then (batch, false)
  else
    match batch.lcc with
    | none => ({ batch with lcc := some ⟨name, oldCursor, newCursor⟩ }, true)
    | some window =>
      if window.name ≠ name then (batch, false)
      else ({ batch with lcc := some { window with final := newCursor } }, true)

structure StageState where
  batch : StageBatch
  store : StageStore
deriving DecidableEq

def StageStore.cursor (store : StageStore) (name : String) : Nat :=
  (store.cursors.lookup name).getD 0

def StageStore.setCursor (store : StageStore) (name : String) (value : Nat) : StageStore :=
  { store with cursors := store.cursors.insert name value }

def StageStore.setLog (store : StageStore) (name : String) (rows : Finset Nat) : StageStore :=
  { store with logs := store.logs.insert name rows }

/-- `none` is the refused write. -/
def cursorWriteLockedKnownPrev (st : StageState) (name : String) (value prev : Nat)
    (deferLcc : Bool) : Option StageState :=
  let (batch, deferred) :=
    if value > prev && deferLcc then stageBatchDeferLcc st.batch name prev value
    else (st.batch, false)
  if value > prev && !deferred && !stageLccCheckRaise st.store name prev value
      && st.store.enforce then none
  else some ⟨batch, st.store.setCursor name value⟩

/--
One advancing `stage_run_once`: the step logs some of the heights that it raises the cursor
over. A refused cursor write or a cursor that does not move rolls the step back.
-/
def stageRaise (st : StageState) (name : String) (written : Finset Nat) (cursorOut : Nat)
    : Option StageState :=
  let cur := st.store.cursor name
  if cursorOut ≤ cur then some st
  else
    match st.store.logs.lookup name with
    | none => cursorWriteLockedKnownPrev st name cursorOut cur st.batch.isOpen
    | some rows =>
      let rows := rows ∪ written.filter (fun h => cur ≤ h ∧ h < cursorOut)
      cursorWriteLockedKnownPrev { st with store := st.store.setLog name rows } name cursorOut
        cur st.batch.isOpen

/-- An unwind lowers the cursor and deletes rows at or above it, past the guard. -/
def stageUnwind (st : StageState) (name : String) (lowered : Nat) (deleted : Finset Nat)
    : StageState :=
  if st.store.cursor name < lowered then st
  else
    match st.store.logs.lookup name with
    | none => { st with store := st.store.setCursor name lowered }
    | some rows =>
      let rows := rows.filter (fun h => h < lowered ∨ h ∉ deleted)
      { st with store := (st.store.setLog name rows).setCursor name lowered }

inductive StageEvent where
  | raise (written : Finset Nat) (cursorOut : Nat)
  | unwind (lowered : Nat) (deleted : Finset Nat)
deriving DecidableEq

/-- One event of a stage; `none` when its cursor write is refused. -/
def stageEvent (st : StageState) (name : String) : StageEvent → Option StageState
  | .raise written cursorOut => stageRaise st name written cursorOut
  | .unwind lowered deleted => some (stageUnwind st name lowered deleted)

/-- A refused step is rolled back and the stage goes on. -/
def stageEvents (st : StageState) (name : String) : List StageEvent → StageState
  | [] => st
  | event :: rest => stageEvents ((stageEvent st name event).getD st) name rest

def lccAllowsCommit (st : StageState) : Bool :=
  match st.batch.lcc with
  | none => true
  | some window =>
    stageLccCheckRaise st.store window.name window.initial window.final
      || !st.store.enforce

/-- The committed store of a batch of events, or `none` when the batch is rolled back. -/
def stageBatchRun (store : StageStore) (name : String) (events : List StageEvent)
    : Option StageStore :=
  let st := stageEvents ⟨⟨true, none⟩, store⟩ name events
  if lccAllowsCommit st then some st.store else none

/-- Some raise of the events is refused when each is checked by itself. -/
def perStepRefuses (store : StageStore) (name : String) : List StageEvent → Bool
  | [] => false
  | event :: rest =>
    match stageEvent ⟨⟨false, none⟩, store⟩ name event with
    | none => true
    | some st => perStepRefuses st.store name rest

-- One event

@[simp]
theorem StageStore.setCursor_logs (store : StageStore) (name : String) (value : Nat)
    : (store.setCursor name value).logs = store.logs := rfl

@[simp]
theorem StageStore.setCursor_cursor (store : StageStore) (name : String) (value : Nat)
    : (store.setCursor name value).cursor name = value := by
  simp [StageStore.cursor, StageStore.setCursor]

@[simp]
theorem StageStore.setLog_lookup (store : StageStore) (name : String) (rows : Finset Nat)
    : (store.setLog name rows).logs.lookup name = some rows := by
  simp [StageStore.setLog]

theorem ne_empty_of_valid {name : String} (valid : lccValidStageName name = true)
    : name ≠ "" := by
  rintro rfl
  simp [lccValidStageName] at valid

/-- The rows after a step that raises the cursor. -/
def raisedRows (rows written : Finset Nat) (cur cursorOut : Nat) : Finset Nat :=
  rows ∪ written.filter (fun h => cur ≤ h ∧ h < cursorOut)

def unwoundRows (rows deleted : Finset Nat) (lowered : Nat) : Finset Nat :=
  rows.filter (fun h => h < lowered ∨ h ∉ deleted)

/-- The store after a step that raises the cursor. -/
def StageStore.raised (store : StageStore) (name : String) (rows written : Finset Nat)
    (cursorOut : Nat) : StageStore :=
  (store.setLog name (raisedRows rows written (store.cursor name) cursorOut)).setCursor name
    cursorOut

def StageStore.unwound (store : StageStore) (name : String) (rows deleted : Finset Nat)
    (lowered : Nat) : StageStore :=
  (store.setLog name (unwoundRows rows deleted lowered)).setCursor name lowered

/-- The lowest height that the check at COMMIT will look at, or the cursor before any raise. -/
def StageState.checkedFrom (st : StageState) (name : String) : Nat :=
  match st.batch.lcc with
  | none => st.store.cursor name
  | some window => window.initial

/-- The batch is open and its deferred check, if any, is about the stage. -/
structure InBatch (st : StageState) (name : String) : Prop where
  isOpen : st.batch.isOpen = true
  named : ∀ window ∈ st.batch.lcc, window.name = name

section Events

variable {st : StageState} {name : String} {rows : Finset Nat}

variable {written : Finset Nat} {cursorOut : Nat}

theorem InBatch.raise_eq (inBatch : InBatch st name) (valid : lccValidStageName name = true)
    (logged : st.store.logs.lookup name = some rows) (raises : st.store.cursor name < cursorOut)
    : stageEvent st name (.raise written cursorOut)
        = some ⟨⟨true, some ⟨name, st.checkedFrom name, cursorOut⟩⟩,
            st.store.raised name rows written cursorOut⟩ := by
  obtain ⟨⟨isOpen, lcc⟩, store⟩ := st
  obtain rfl : isOpen = true := inBatch.isOpen
  have notEmpty := ne_empty_of_valid valid
  simp only [stageEvent, stageRaise, cursorWriteLockedKnownPrev, stageBatchDeferLcc]
  rw [if_neg (Nat.not_le.mpr raises)]
  cases lcc with
  | none =>
    simp [logged, raises, notEmpty, StageState.checkedFrom, StageStore.raised, raisedRows]
  | some window =>
    obtain ⟨windowName, initial, final⟩ := window
    obtain rfl : windowName = name := inBatch.named _ rfl
    simp [logged, raises, notEmpty, StageState.checkedFrom, StageStore.raised, raisedRows]

theorem raise_noop (still : cursorOut ≤ st.store.cursor name)
    : stageEvent st name (.raise written cursorOut) = some st := by
  simp [stageEvent, stageRaise, still]

theorem unwind_noop {deleted : Finset Nat} {lowered : Nat} (still : st.store.cursor name < lowered)
    : stageEvent st name (.unwind lowered deleted) = some st := by
  simp [stageEvent, stageUnwind, still]

theorem unwind_eq {batch : StageBatch} {store : StageStore}
    (logged : store.logs.lookup name = some rows) {deleted : Finset Nat} {lowered : Nat}
    (lowers : lowered ≤ store.cursor name)
    : stageEvent ⟨batch, store⟩ name (.unwind lowered deleted)
        = some ⟨batch, store.unwound name rows deleted lowered⟩ := by
  simp [stageEvent, stageUnwind, Nat.not_lt.mpr lowers, logged, StageStore.unwound, unwoundRows]

theorem raise_checked {store : StageStore} (enforce : store.enforce = true)
    (logged : store.logs.lookup name = some rows) (raises : store.cursor name < cursorOut)
    : stageEvent ⟨⟨false, none⟩, store⟩ name (.raise written cursorOut)
        = if stageLccCheckRaise
              (store.setLog name (raisedRows rows written (store.cursor name) cursorOut)) name
              (store.cursor name) cursorOut
          then some ⟨⟨false, none⟩, store.raised name rows written cursorOut⟩
          else none := by
  have enforced : ∀ rows, (store.setLog name rows).enforce = true := fun _ => enforce
  simp only [stageEvent, stageRaise, cursorWriteLockedKnownPrev]
  rw [if_neg (by omega)]
  simp only [logged, raises, enforced, decide_true, Bool.and_false, Bool.false_eq_true, if_false,
    Bool.not_false, Bool.and_true, Bool.true_and]
  cases verdict : stageLccCheckRaise
      (store.setLog name (raisedRows rows written (store.cursor name) cursorOut)) name
      (store.cursor name) cursorOut with
  | true =>
    rw [raisedRows] at verdict
    simp [verdict, StageStore.raised, raisedRows]
  | false =>
    rw [raisedRows] at verdict
    simp [verdict]

end Events

-- The cursor interval of a batch

/-- Every height from the trusted base up to the cursor has a row in the log of the stage. -/
def Covered (store : StageStore) (name : String) : Prop :=
  ∀ rows, store.logs.lookup name = some rows →
    ∀ h, store.trustedBase + 1 ≤ h → h < store.cursor name → h ∈ rows

/-- The log has no row at a height that the guard asks for below the cursor. -/
def Hole (st : StageState) (name : String) (h : Nat) : Prop :=
  st.checkedFrom name ≤ h ∧ st.store.exemptBelow ≤ h ∧ h < st.store.cursor name
    ∧ ∀ rows, st.store.logs.lookup name = some rows → h ∉ rows

/--
Once the batch has raised the cursor, an unwind takes it back neither below the start of the
deferred check nor over a height without a row.
-/
def UnwindsWithin (st : StageState) (name : String) : StageEvent → Prop
  | .raise _ _ => True
  | .unwind lowered _ =>
    st.batch.lcc ≠ none → st.checkedFrom name ≤ lowered
      ∧ ∀ h < st.store.cursor name, lowered ≤ h → st.store.exemptBelow ≤ h →
          h ∈ (st.store.logs.lookup name).getD ∅

/-- Every event of the batch keeps to `UnwindsWithin` in the state that it starts from. -/
def AllUnwindWithin (st : StageState) (name : String) : List StageEvent → Prop
  | [] => True
  | event :: rest =>
    UnwindsWithin st name event
      ∧ AllUnwindWithin ((stageEvent st name event).getD st) name rest

instance decidableUnwindsWithin (st : StageState) (name : String)
    : (event : StageEvent) → Decidable (UnwindsWithin st name event)
  | .raise _ _ => inferInstanceAs (Decidable True)
  | .unwind _ _ => inferInstanceAs (Decidable (_ → _))

instance decidableAllUnwindWithin (name : String)
    : (st : StageState) → (events : List StageEvent) → Decidable (AllUnwindWithin st name events)
  | _, [] => inferInstanceAs (Decidable True)
  | st, event :: rest =>
    have := decidableAllUnwindWithin name ((stageEvent st name event).getD st) rest
    inferInstanceAs (Decidable (_ ∧ _))

/--
What the events of a batch keep: the log exists, it is full below the start of the deferred
check, and the cursor is inside the interval of this check.
-/
structure BatchSound (st : StageState) (name : String) : Prop extends InBatch st name where
  enforced : st.store.enforce = true
  logged : ∃ rows, st.store.logs.lookup name = some rows
  started : st.checkedFrom name ≤ st.store.cursor name
  ended : ∀ window ∈ st.batch.lcc, st.store.cursor name ≤ window.final
  full : ∀ rows, st.store.logs.lookup name = some rows →
    ∀ h, st.store.trustedBase + 1 ≤ h → h < st.checkedFrom name → h ∈ rows

@[simp]
theorem StageStore.raised_lookup (store : StageStore) (name : String) (rows written : Finset Nat)
    (cursorOut : Nat)
    : (store.raised name rows written cursorOut).logs.lookup name
        = some (raisedRows rows written (store.cursor name) cursorOut) := by
  simp [StageStore.raised]

@[simp]
theorem StageStore.raised_cursor (store : StageStore) (name : String) (rows written : Finset Nat)
    (cursorOut : Nat) : (store.raised name rows written cursorOut).cursor name = cursorOut := by
  simp [StageStore.raised]

@[simp]
theorem StageStore.unwound_lookup (store : StageStore) (name : String) (rows deleted : Finset Nat)
    (lowered : Nat)
    : (store.unwound name rows deleted lowered).logs.lookup name
        = some (unwoundRows rows deleted lowered) := by
  simp [StageStore.unwound]

@[simp]
theorem StageStore.unwound_cursor (store : StageStore) (name : String) (rows deleted : Finset Nat)
    (lowered : Nat) : (store.unwound name rows deleted lowered).cursor name = lowered := by
  simp [StageStore.unwound]

theorem mem_raisedRows_of_lt {rows written : Finset Nat} {cur cursorOut h : Nat} (below : h < cur)
    : h ∈ raisedRows rows written cur cursorOut ↔ h ∈ rows := by
  simp [raisedRows, Nat.not_le.mpr below]

theorem mem_unwoundRows_of_lt {rows deleted : Finset Nat} {lowered h : Nat} (below : h < lowered)
    : h ∈ unwoundRows rows deleted lowered ↔ h ∈ rows := by
  simp [unwoundRows, below]

section Batch

variable {st : StageState} {name : String} {event : StageEvent} {h : Nat}

theorem BatchSound.event_cases (sound : BatchSound st name) (valid : lccValidStageName name = true)
    (event : StageEvent)
    : ∃ rows, st.store.logs.lookup name = some rows
        ∧ (stageEvent st name event = some st
          ∨ (∃ written cursorOut, event = .raise written cursorOut
              ∧ st.store.cursor name < cursorOut
              ∧ stageEvent st name event
                  = some ⟨⟨true, some ⟨name, st.checkedFrom name, cursorOut⟩⟩,
                      st.store.raised name rows written cursorOut⟩)
          ∨ ∃ lowered deleted, event = .unwind lowered deleted
              ∧ lowered ≤ st.store.cursor name
              ∧ stageEvent st name event
                  = some { st with store := st.store.unwound name rows deleted lowered }) := by
  obtain ⟨rows, logged⟩ := sound.logged
  refine ⟨rows, logged, ?_⟩
  cases event with
  | raise written cursorOut =>
    rcases Nat.lt_or_ge (st.store.cursor name) cursorOut with raises | still
    · exact .inr (.inl ⟨written, cursorOut, rfl, raises,
        sound.toInBatch.raise_eq valid logged raises⟩)
    · exact .inl (raise_noop still)
  | unwind lowered deleted =>
    rcases Nat.lt_or_ge (st.store.cursor name) lowered with still | lowers
    · exact .inl (unwind_noop still)
    · exact .inr (.inr ⟨lowered, deleted, rfl, lowers, unwind_eq logged lowers⟩)

theorem BatchSound.step (sound : BatchSound st name) (valid : lccValidStageName name = true)
    (within : UnwindsWithin st name event)
    : BatchSound ((stageEvent st name event).getD st) name := by
  have started := sound.started
  obtain ⟨rows, logged, still | ⟨written, cursorOut, rfl, raises, out⟩
    | ⟨lowered, deleted, rfl, lowers, out⟩⟩ := sound.event_cases valid event
  · rw [still]
    exact sound
  · rw [out]
    refine { isOpen := rfl, named := by simp, enforced := sound.enforced,
             logged := ⟨_, StageStore.raised_lookup ..⟩, started := ?_, ended := by simp,
             full := ?_ }
    · exact Nat.le_of_lt (Nat.lt_of_le_of_lt started (by simpa using raises))
    · intro rows' logged' h low high
      obtain rfl : raisedRows rows written _ cursorOut = rows' := by simpa using logged'
      have below : h < st.checkedFrom name := high
      exact (mem_raisedRows_of_lt (by omega)).mpr (sound.full rows logged h low below)
  · rw [out]
    have reached : StageState.checkedFrom
        { st with store := st.store.unwound name rows deleted lowered } name ≤ lowered
        ∧ StageState.checkedFrom
          { st with store := st.store.unwound name rows deleted lowered } name
            ≤ st.checkedFrom name := by
      simp only [StageState.checkedFrom, UnwindsWithin] at within ⊢
      split
      · rename_i unraised
        simp [lowers]
      · rename_i window raised
        simp only [raised] at within
        exact ⟨(within (by simp)).1, by simp⟩
    refine { isOpen := sound.isOpen, named := sound.named, enforced := sound.enforced,
             logged := ⟨_, StageStore.unwound_lookup ..⟩,
             started := by simpa using reached.1, ended := ?_, full := ?_ }
    · intro window member
      have := sound.ended window member
      simp only [Option.getD_some, StageStore.unwound_cursor]
      omega
    · intro rows' logged' h low high
      obtain rfl : unwoundRows rows deleted lowered = rows' := by simpa using logged'
      simp only [Option.getD_some] at high
      have below : h < lowered := by omega
      exact (mem_unwoundRows_of_lt below).mpr (sound.full rows logged h low (by omega))

theorem Hole.step (hole : Hole st name h) (sound : BatchSound st name)
    (valid : lccValidStageName name = true) (within : UnwindsWithin st name event)
    (raised : st.batch.lcc ≠ none)
    : Hole ((stageEvent st name event).getD st) name h
        ∧ ((stageEvent st name event).getD st).batch.lcc ≠ none := by
  obtain ⟨checked, asked, below, rowless⟩ := hole
  obtain ⟨rows, logged, still | ⟨written, cursorOut, rfl, raises, out⟩
    | ⟨lowered, deleted, rfl, lowers, out⟩⟩ := sound.event_cases valid event
  · rw [still]
    exact ⟨⟨checked, asked, below, rowless⟩, raised⟩
  · rw [out]
    refine ⟨⟨checked, asked, ?_, ?_⟩, by simp⟩
    · simp only [Option.getD_some, StageStore.raised_cursor]
      omega
    · intro rows' logged'
      obtain rfl : raisedRows rows written _ cursorOut = rows' := by simpa using logged'
      exact fun member => rowless rows logged ((mem_raisedRows_of_lt below).mp member)
  · rw [out]
    obtain ⟨-, kept⟩ := within raised
    rw [logged, Option.getD_some] at kept
    have under : h < lowered := by
      rcases Nat.lt_or_ge h lowered with under | passed
      · exact under
      · exact absurd (kept h below passed asked) (rowless rows logged)
    refine ⟨⟨?_, asked, by simpa using under, ?_⟩, raised⟩
    · cases window : st.batch.lcc with
      | none => exact absurd window raised
      | some window' => simpa [StageState.checkedFrom, window] using checked
    · intro rows' logged'
      obtain rfl : unwoundRows rows deleted lowered = rows' := by simpa using logged'
      exact fun member => rowless rows logged ((mem_unwoundRows_of_lt under).mp member)

theorem BatchSound.covered (sound : BatchSound st name) (valid : lccValidStageName name = true)
    (allowed : lccAllowsCommit st = true) : Covered st.store name := by
  intro rows logged h low high
  rcases Nat.lt_or_ge h (st.checkedFrom name) with below | checked
  · exact sound.full rows logged h low below
  cases deferred : st.batch.lcc with
  | none =>
    simp only [StageState.checkedFrom, deferred] at checked
    omega
  | some window =>
    have ended := sound.ended window deferred
    simp only [StageState.checkedFrom, deferred] at checked
    simp only [lccAllowsCommit, deferred, sound.named window deferred, sound.enforced,
      Bool.not_true, Bool.or_false] at allowed
    have asked : st.store.exemptBelow ≤ h := by
      simp only [StageStore.exemptBelow]
      split <;> omega
    exact (stageLccCheckRaise_iff valid logged).mp allowed h checked asked (by omega)

theorem Hole.refused (hole : Hole st name h) (sound : BatchSound st name)
    (valid : lccValidStageName name = true) (raised : st.batch.lcc ≠ none)
    : lccAllowsCommit st = false := by
  obtain ⟨checked, asked, below, rowless⟩ := hole
  obtain ⟨rows, logged⟩ := sound.logged
  cases deferred : st.batch.lcc with
  | none => exact absurd deferred raised
  | some window =>
    have ended := sound.ended window deferred
    simp only [StageState.checkedFrom, deferred] at checked
    simp only [lccAllowsCommit, deferred, sound.named window deferred, sound.enforced,
      Bool.not_true, Bool.or_false]
    refine Bool.eq_false_iff.mpr fun passed => rowless rows logged ?_
    exact (stageLccCheckRaise_iff valid logged).mp passed h checked asked (by omega)

end Batch

-- Whole batches

section Runs

variable {st : StageState} {name : String} {events : List StageEvent} {h : Nat}

theorem BatchSound.run (sound : BatchSound st name) (valid : lccValidStageName name = true)
    (within : AllUnwindWithin st name events) : BatchSound (stageEvents st name events) name := by
  induction events generalizing st with
  | nil => exact sound
  | cons event rest ih => exact ih (sound.step valid within.1) within.2

theorem Hole.run (hole : Hole st name h) (sound : BatchSound st name)
    (valid : lccValidStageName name = true) (within : AllUnwindWithin st name events)
    (raised : st.batch.lcc ≠ none) : lccAllowsCommit (stageEvents st name events) = false := by
  induction events generalizing st with
  | nil => exact hole.refused sound valid raised
  | cons event rest ih =>
    obtain ⟨stays, raised'⟩ := hole.step sound valid within.1 raised
    exact ih stays (sound.step valid within.1) within.2 raised'

theorem hole_of_refused {rows written : Finset Nat} {cursorOut : Nat} (sound : BatchSound st name)
    (valid : lccValidStageName name = true)
    (refused : stageLccCheckRaise
        (st.store.setLog name (raisedRows rows written (st.store.cursor name) cursorOut)) name
        (st.store.cursor name) cursorOut = false)
    : ∃ h, Hole ⟨⟨true, some ⟨name, st.checkedFrom name, cursorOut⟩⟩,
        st.store.raised name rows written cursorOut⟩ name h := by
  have started := sound.started
  have uncovered := Bool.eq_false_iff.mp refused
  rw [Ne, stageLccCheckRaise_iff valid (StageStore.setLog_lookup ..)] at uncovered
  push Not at uncovered
  obtain ⟨h, low, asked, high, rowless⟩ := uncovered
  refine ⟨h, Nat.le_trans started low, asked, by simpa using high, ?_⟩
  intro rows' logged'
  obtain rfl : raisedRows rows written _ cursorOut = rows' := by simpa using logged'
  exact rowless

theorem BatchSound.alone (sound : BatchSound st name) (valid : lccValidStageName name = true)
    (event : StageEvent)
    : (∃ alone, stageEvent ⟨⟨false, none⟩, st.store⟩ name event = some alone
          ∧ alone.store = ((stageEvent st name event).getD st).store)
        ∨ ((∃ h, Hole ((stageEvent st name event).getD st) name h)
          ∧ ((stageEvent st name event).getD st).batch.lcc ≠ none) := by
  obtain ⟨rows, logged⟩ := sound.logged
  cases event with
  | raise written cursorOut =>
    rcases Nat.lt_or_ge (st.store.cursor name) cursorOut with raises | still
    · rw [raise_checked sound.enforced logged raises,
        sound.toInBatch.raise_eq valid logged raises]
      split
      · exact .inl ⟨_, rfl, rfl⟩
      · rename_i refused
        exact .inr ⟨hole_of_refused sound valid (by simpa using refused), by simp⟩
    · refine .inl ⟨_, raise_noop still, ?_⟩
      rw [raise_noop still, Option.getD_some]
  | unwind lowered deleted =>
    rcases Nat.lt_or_ge (st.store.cursor name) lowered with still | lowers
    · refine .inl ⟨_, unwind_noop still, ?_⟩
      rw [unwind_noop still, Option.getD_some]
    · refine .inl ⟨_, unwind_eq logged lowers, ?_⟩
      rw [unwind_eq logged lowers, Option.getD_some]

/--
The deferred check refuses every batch that the check of each step would have refused. Until the
first refusal the batch and the steps without a batch have the same store.
-/
theorem BatchSound.refuses (sound : BatchSound st name) (valid : lccValidStageName name = true)
    (within : AllUnwindWithin st name events) (refused : perStepRefuses st.store name events = true)
    : lccAllowsCommit (stageEvents st name events) = false := by
  induction events generalizing st with
  | nil => cases refused
  | cons event rest ih =>
    have next := sound.step valid within.1
    rcases sound.alone valid event with ⟨alone, passed, same⟩ | ⟨⟨h, hole⟩, raised⟩
    · simp only [perStepRefuses, passed, same] at refused
      exact ih next within.2 refused
    · exact hole.run next valid within.2 raised

end Runs

theorem BatchSound.start {store : StageStore} {name : String} (enforced : store.enforce = true)
    (logged : ∃ rows, store.logs.lookup name = some rows) (covered : Covered store name)
    : BatchSound ⟨⟨true, none⟩, store⟩ name :=
  { isOpen := rfl, named := by simp, enforced := enforced, logged := logged,
    started := le_rfl, ended := by simp, full := covered }

/--
A batch whose unwinds stay within its own raises, over heights with rows, commits a covered log,
and does not commit when the check of each step would have refused one of them.
-/
theorem stageBatchRun_covered {store : StageStore} {name : String} {events : List StageEvent}
    (valid : lccValidStageName name = true) (enforced : store.enforce = true)
    (logged : ∃ rows, store.logs.lookup name = some rows) (covered : Covered store name)
    (within : AllUnwindWithin ⟨⟨true, none⟩, store⟩ name events)
    : (∀ committed, stageBatchRun store name events = some committed → Covered committed name)
        ∧ (perStepRefuses store name events = true → stageBatchRun store name events = none) := by
  have start := BatchSound.start enforced logged covered
  constructor
  · intro committed commits
    simp only [stageBatchRun] at commits
    split at commits
    · rename_i allowed
      cases commits
      exact (start.run valid within).covered valid allowed
    · cases commits
  · intro refused
    simp only [stageBatchRun, start.refuses valid within refused, Bool.false_eq_true, if_false]

/-- A log with a row at each of its first heights, and the cursor above them. -/
def sampleStore (height : Nat) : StageStore where
  logs := (∅ : Table String (Finset Nat)).insert "utxo_apply" (Finset.range height)
  cursors := (∅ : Table String Nat).insert "utxo_apply" height
  trustedBase := 0
  enforce := true

theorem sampleStore_covered (height : Nat) : Covered (sampleStore height) "utxo_apply" := by
  intro rows logged h low high
  obtain rfl : Finset.range height = rows := by simpa [sampleStore] using logged
  simpa [sampleStore, StageStore.cursor] using high

/-- Two raises with a row each and an unwind between them, back over the first one. -/
def sampleEvents : List StageEvent :=
  [.raise {10} 11, .raise {11} 12, .unwind 11 (Finset.range 12), .raise {11} 12]

theorem stageBatchRun_covered_sample
    : (stageBatchRun (sampleStore 10) "utxo_apply" sampleEvents).isSome = true
        ∧ ∀ committed, stageBatchRun (sampleStore 10) "utxo_apply" sampleEvents = some committed →
            Covered committed "utxo_apply" := by
  refine ⟨by decide, ?_⟩
  exact (stageBatchRun_covered (by decide) rfl ⟨Finset.range 10, by decide⟩
    (sampleStore_covered 10) (by decide)).1

/--
The batch raises the cursor over height 10, unwinds it to 5 and raises it to 6 without a row at
5. The deferred check looks at the interval from 10 to 6 only, which is empty.
-/
theorem stageBatchRun_uncovered
    : ∃ store events committed, lccValidStageName "utxo_apply" = true
        ∧ StageStore.enforce store = true ∧ Covered store "utxo_apply"
        ∧ stageBatchRun store "utxo_apply" events = some committed
        ∧ perStepRefuses store "utxo_apply" events = true
        ∧ ¬Covered committed "utxo_apply" := by
  refine ⟨sampleStore 10, [.raise {10} 11, .unwind 5 (Finset.range 11), .raise ∅ 6],
    (((sampleStore 10).raised "utxo_apply" (Finset.range 10) {10} 11).unwound "utxo_apply"
      (Finset.range 11) (Finset.range 11) 5).raised "utxo_apply" (Finset.range 5) ∅ 6,
    by decide, rfl, sampleStore_covered 10, by decide, by decide, ?_⟩
  intro covered
  have member := covered _ (StageStore.raised_lookup ..) 5 (by decide) (by simp)
  simp [raisedRows] at member

end Z23.Sync
