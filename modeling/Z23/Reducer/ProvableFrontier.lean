import Mathlib.Order.Bounds.Defs
import Z23.Reducer.Frontier

/-!
H* is the highest height up to which every stage log and every hash binding proves the chain.
-/

namespace Z23.Reducer

open Z23.Lib Z23.Lib.KeyedRows
open Z23.Lib.Sql (Value)

-- What a provable height is

/-- A row of a log counts as a success: its verdict, its evidence and its tag. -/
structure RowProves (env : FrontierEnv) (db : ProgressDb) (log : StageLog) (height : Int)
    (row : LogRow) : Prop where
  ok : row.ok = .integer 1
  evidence : logSuccessRequiresFullValidation log = true →
    ∃ bytes, row.status = .text bytes
      ∧ mintValidationEvidenceParse bytes = reducerFrontierRequiredEvidence env
  untampered : db.itagColumn log = true →
    stageRowItagVerify env log height 1 ((row.statusText log).getD []) row.itag ≠ .mismatch

/-- The header, the validated header and the coin delta name one hash, and no other row another. -/
structure HashesAgree (db : ProgressDb) (height : Int) (hash : List UInt8) : Prop where
  size : hash.length = 32
  validated : ∃ row, (db.log .validateHeaders).lookup height = some row ∧ row.hash = .blob hash
  admitted : db.headerAdmitHash.lookup height = some (.blob hash)
  applied : db.utxoApplyDeltaBranchHash.lookup height = some (.blob hash)
  script : db.scriptBlockHash height ≠ .null → db.scriptBlockHash height = .blob hash
  proof : db.proofBlockHash height ≠ .null → db.proofBlockHash height = .blob hash

structure ProvenAt (env : FrontierEnv) (db : ProgressDb) (height : Int) : Prop where
  logged : ∀ log, height < frontierNextCursor log (db.cursor log)
    ∧ ∃ row, (db.log log).lookup height = some row ∧ RowProves env db log height row
  bound : ∃ hash, HashesAgree db height hash

/-- Every height above the anchor is proven, up to this one. -/
def ProvableTo (env : FrontierEnv) (db : ProgressDb) (anchor height : Int) : Prop :=
  anchor ≤ height ∧ ∀ h, anchor < h → h ≤ height → ProvenAt env db h

/-- The verdicts and the heights fit the `int` and `int32_t` that they are read into. -/
structure Int32Store (db : ProgressDb) : Prop where
  verdicts : ∀ log height row, (db.log log).lookup height = some row →
    ∀ verdict, row.ok = .integer verdict → -2147483648 ≤ verdict ∧ verdict ≤ int32Max
  heights : ∀ log, frontierNextCursor log (db.cursor log) ≤ int32Max + 1

/-- Some stage has yet to pass the last `int32_t` height. -/
def Unsaturated (db : ProgressDb) : Prop :=
  ∃ log, frontierNextCursor log (db.cursor log) ≤ int32Max

-- One log

theorem castInt32_of_fits {value : Int} (low : -2147483648 ≤ value) (high : value ≤ int32Max)
    : castInt32 value = value := by
  simp only [int32Max] at high
  simp only [castInt32]
  omega

theorem castInt32_le {value : Int} (low : -2147483648 ≤ value) : castInt32 value ≤ value := by
  simp only [castInt32]
  omega

theorem contiguousWalk_eq {rowOk : Int → LogRow → Bool} {rows : List (Int × LogRow)} {last : Int}
    : contiguousWalk rowOk rows (last + 1) (castInt32 last)
        = castInt32 (runEnd rowOk last rows) := by
  induction rows generalizing last with
  | nil => rfl
  | cons head rest ih =>
    obtain ⟨h, row⟩ := head
    simp only [contiguousWalk, runEnd]
    rcases eq_or_ne h (last + 1) with rfl | jump
    · cases decoded : rowOk (last + 1) row with
      | true => simpa [decoded] using ih
      | false => simp
    · simp [jump]

/-- The rows of a log that count when their tags are verified above a watermark. -/
def countsAbove (env : FrontierEnv) (db : ProgressDb) (log : StageLog) (verifyAbove : Int)
    (height : Int) (row : LogRow) : Bool :=
  logRowDecodeOk env log (db.itagColumn log && height > verifyAbove) height row

theorem logContiguousPrefix_eq {env : FrontierEnv} {db : ProgressDb} {log : StageLog}
    {anchor cursor verifyAbove : Int}
    : logContiguousPrefix env db log anchor cursor verifyAbove
        = castInt32 (runEnd (countsAbove env db log verifyAbove)
            (reducerFrontierItagScanFloor anchor cursor verifyAbove)
            ((db.log log).between
              (reducerFrontierItagScanFloor anchor cursor verifyAbove) cursor)) := by
  simp only [logContiguousPrefix]
  split
  · rename_i below
    have none : (db.log log).between (reducerFrontierItagScanFloor anchor cursor verifyAbove)
        cursor = [] := by
      simp only [reducerFrontierItagScanFloor, if_pos below, between, List.filter_eq_nil_iff]
      intro row _
      simp only [decide_eq_true_eq]
      omega
    rw [none, runEnd]
  · exact contiguousWalk_eq

theorem scanFloor_of_le {anchor cursor verifyAbove : Int} (low : verifyAbove ≤ anchor)
    : reducerFrontierItagScanFloor anchor cursor verifyAbove = anchor := by
  simp only [reducerFrontierItagScanFloor]
  split
  · rfl
  · rw [if_neg (by omega)]

theorem LogRow.okRaw_eq_one {row : LogRow}
    (fits : ∀ verdict, row.ok = .integer verdict → -2147483648 ≤ verdict ∧ verdict ≤ int32Max)
    : row.okRaw = 1 ↔ row.ok = .integer 1 := by
  simp only [LogRow.okRaw]
  cases verdict : row.ok with
  | integer value =>
    obtain ⟨low, high⟩ := fits value verdict
    simp [castInt32_of_fits low high]
  | _ => simp

theorem evidence_iff {env : FrontierEnv} {log : StageLog} {row : LogRow}
    : (!logSuccessRequiresFullValidation log
        || (row.statusText log).any (fun bytes =>
          mintValidationEvidenceParse bytes = reducerFrontierRequiredEvidence env)) = true
        ↔ (logSuccessRequiresFullValidation log = true →
            ∃ bytes, row.status = .text bytes
              ∧ mintValidationEvidenceParse bytes = reducerFrontierRequiredEvidence env) := by
  cases full : logSuccessRequiresFullValidation log with
  | false => simp
  | true => cases status : row.status <;> simp [LogRow.statusText, full, status]

theorem logRowDecodeOk_iff {env : FrontierEnv} {db : ProgressDb} {log : StageLog} {height : Int}
    {row : LogRow}
    (fits : ∀ verdict, row.ok = .integer verdict → -2147483648 ≤ verdict ∧ verdict ≤ int32Max)
    : logRowDecodeOk env log (db.itagColumn log) height row = true
        ↔ RowProves env db log height row := by
  simp only [logRowDecodeOk, Bool.and_eq_true, decide_eq_true_eq, evidence_iff, Bool.not_eq_true',
    Bool.and_eq_false_iff, decide_eq_false_iff_not]
  constructor
  · rintro ⟨⟨verdict, evidence⟩, untampered⟩
    refine { ok := (LogRow.okRaw_eq_one fits).mp verdict, evidence := evidence,
             untampered := fun tagged => ?_ }
    rw [verdict, tagged] at untampered
    simpa using untampered
  · intro proves
    have verdict := (LogRow.okRaw_eq_one fits).mpr proves.ok
    refine ⟨⟨verdict, proves.evidence⟩, ?_⟩
    rw [verdict]
    cases tagged : db.itagColumn log with
    | false => exact .inl rfl
    | true => exact .inr (proves.untampered tagged)

theorem runEnd_lt_cursor {good : Int → LogRow → Bool} {rows : KeyedRows LogRow}
    {anchor cursor : Int}
    : runEnd good anchor (rows.between anchor cursor) = anchor
        ∨ runEnd good anchor (rows.between anchor cursor) < cursor := by
  have start : anchor ≤ runEnd good anchor (rows.between anchor cursor) := le_runEnd_between
  rcases eq_or_lt_of_le start with still | moved
  · exact .inl still.symm
  · exact .inr ((le_runEnd_between_iff start).mp le_rfl _ moved le_rfl).1

section Store

variable {env : FrontierEnv} {db : ProgressDb} {anchor h : Int}

theorem countsAbove_unverified {log : StageLog} {height : Int} {row : LogRow} (above : 0 ≤ height)
    : countsAbove env db log (-1) height row
        = logRowDecodeOk env log (db.itagColumn log) height row := by
  simp only [countsAbove, decide_eq_true (show height > -1 by omega), Bool.and_true]

theorem logContiguousPrefix_fits (store : Int32Store db) {log : StageLog} (low : 0 ≤ anchor)
    (high : anchor ≤ int32Max)
    : logContiguousPrefix env db log anchor (frontierNextCursor log (db.cursor log)) (-1)
        = runEnd (countsAbove env db log (-1)) anchor
            ((db.log log).between anchor (frontierNextCursor log (db.cursor log))) := by
  have start : anchor ≤ runEnd (countsAbove env db log (-1)) anchor
      ((db.log log).between anchor (frontierNextCursor log (db.cursor log))) := le_runEnd_between
  have bounded := store.heights log
  have ended : runEnd (countsAbove env db log (-1)) anchor
      ((db.log log).between anchor (frontierNextCursor log (db.cursor log))) ≤ int32Max := by
    rcases runEnd_lt_cursor with still | below
    · exact still.trans_le high
    · exact Int.lt_add_one_iff.mp (lt_of_lt_of_le below bounded)
  rw [logContiguousPrefix_eq, scanFloor_of_le (by omega)]
  exact castInt32_of_fits (by omega) ended

theorem le_logContiguousPrefix_iff (store : Int32Store db) {log : StageLog} (low : 0 ≤ anchor)
    (high : anchor ≤ int32Max) (start : anchor ≤ h)
    : h ≤ logContiguousPrefix env db log anchor (frontierNextCursor log (db.cursor log)) (-1)
        ↔ ∀ k, anchor < k → k ≤ h → k < frontierNextCursor log (db.cursor log)
            ∧ ∃ row, (db.log log).lookup k = some row ∧ RowProves env db log k row := by
  rw [logContiguousPrefix_fits store low high, le_runEnd_between_iff start]
  refine forall_congr' fun k => forall_congr' fun above => forall_congr' fun _ => ?_
  refine and_congr_right fun _ => exists_congr fun row => and_congr_right fun found => ?_
  rw [countsAbove_unverified (by omega), logRowDecodeOk_iff (store.verdicts log k row found)]

theorem le_leastContiguous_iff {verifyWm : Int}
    : h ≤ leastContiguous env db anchor verifyWm
        ↔ h ≤ int32Max ∧ ∀ log, h ≤ logContiguousPrefix env db log anchor
            (frontierNextCursor log (db.cursor log)) verifyWm := by
  simp only [leastContiguous, kLogs, List.foldl, Int.le_min]
  constructor
  · rintro ⟨⟨⟨⟨⟨⟨sentinel, validate⟩, script⟩, body⟩, proof⟩, utxo⟩, tip⟩
    refine ⟨sentinel, fun log => ?_⟩
    cases log <;> assumption
  · rintro ⟨sentinel, all⟩
    exact ⟨⟨⟨⟨⟨⟨sentinel, all _⟩, all _⟩, all _⟩, all _⟩, all _⟩, all _⟩

/-- A stage below the last height keeps the sentinel out of the result. -/
theorem leastContiguous_lt_int32Max (store : Int32Store db) (unsaturated : Unsaturated db)
    (low : 0 ≤ anchor) (high : anchor < int32Max)
    : leastContiguous env db anchor (-1) < int32Max := by
  obtain ⟨log, unsaturated⟩ := unsaturated
  have least := (le_leastContiguous_iff.mp (le_refl (leastContiguous env db anchor (-1)))).2 log
  rw [logContiguousPrefix_fits store low (by omega)] at least
  rcases runEnd_lt_cursor with still | below
  · exact lt_of_le_of_lt least (still.trans_lt high)
  · exact lt_of_le_of_lt least (lt_of_lt_of_le below unsaturated)

end Store

-- Hash agreement

section Hashes

variable {db : ProgressDb} {height : Int}

theorem nullableHashSplit_eq {column : Bool} {hash : Value} {validated : List UInt8}
    (size : validated.length = 32) (absent : column = false → hash = .null)
    : nullableHashSplit column hash (.blob validated)
        = some (decide (hash ≠ .null ∧ hash ≠ .blob validated)) := by
  cases column with
  | false => simp [nullableHashSplit, absent rfl]
  | true =>
    rcases Sql.notBlobOf_cases 32 hash with ⟨bytes, rfl, -, isHash⟩ | ⟨noHash, split⟩
    · simp [nullableHashSplit, isHash, Sql.isNotNull, Sql.ne]
    · have differs : hash ≠ .blob validated := fun same => noHash validated same size
      simp [nullableHashSplit, split, Sql.isNotNull, differs]

theorem ProgressDb.scriptBlockHash_of_no_column (absent : db.scriptBlockHashColumn = false)
    : db.scriptBlockHash height = .null := by
  simp [ProgressDb.scriptBlockHash, absent]

theorem ProgressDb.proofBlockHash_of_no_column (absent : db.proofBlockHashColumn = false)
    : db.proofBlockHash height = .null := by
  simp [ProgressDb.proofBlockHash, absent]

theorem getD_eq_blob {value : Option Value} {bytes : List UInt8}
    : value.getD .null = .blob bytes ↔ value = some (.blob bytes) := by
  cases value <;> simp

/-- Where the three mandatory columns hold hashes, the condition is never unknown. -/
theorem hashSplit_of_hashes {hash admittedHash appliedHash : List UInt8} (size : hash.length = 32)
    (admitted : db.headerAdmitHash.lookup height = some (.blob admittedHash))
    (admittedSize : admittedHash.length = 32)
    (applied : db.utxoApplyDeltaBranchHash.lookup height = some (.blob appliedHash))
    (appliedSize : appliedHash.length = 32)
    : hashSplit db height (.blob hash)
        = some (decide (hash ≠ admittedHash ∨ hash ≠ appliedHash
            ∨ (db.scriptBlockHash height ≠ .null ∧ db.scriptBlockHash height ≠ .blob hash)
            ∨ (db.proofBlockHash height ≠ .null ∧ db.proofBlockHash height ≠ .blob hash))) := by
  have script : nullableHashSplit db.scriptBlockHashColumn (db.scriptBlockHash height) (.blob hash)
      = _ := nullableHashSplit_eq size ProgressDb.scriptBlockHash_of_no_column
  have proof : nullableHashSplit db.proofBlockHashColumn (db.proofBlockHash height) (.blob hash)
      = _ := nullableHashSplit_eq size ProgressDb.proofBlockHash_of_no_column
  have isHash : ∀ {bytes : List UInt8}, bytes.length = 32 →
      Sql.notBlobOf 32 (.blob bytes) = some false := by
    intro bytes sized
    simp [Sql.notBlobOf, Sql.lengthNe, Value.typeof, sized]
  simp only [hashSplit, admitted, applied, Option.getD_some, isHash size, isHash admittedSize,
    isHash appliedSize, script, proof, Sql.ne, Sql.or_some, Bool.false_or, Bool.decide_or]

theorem hashSplit_iff {row : LogRow} (found : (db.log .validateHeaders).lookup height = some row)
    : Sql.holds (hashSplit db height row.hash) = false ↔ ∃ hash, HashesAgree db height hash := by
  -- a value that is no hash makes the condition true, whatever the other values are
  rcases Sql.notBlobOf_cases 32 row.hash with ⟨hash, validated, size, -⟩ | ⟨noHash, split⟩
  case inr =>
    refine ⟨fun agree => ?_, fun ⟨hash, agree⟩ => ?_⟩
    · simp [hashSplit, split, Sql.holds] at agree
    · obtain ⟨row', found', hashed⟩ := agree.validated
      cases found.symm.trans found'
      exact absurd agree.size (noHash hash hashed)
  rcases Sql.notBlobOf_cases 32 ((db.headerAdmitHash.lookup height).getD .null) with
    ⟨admittedHash, admitted, admittedSize, -⟩ | ⟨noHash, split⟩
  case inr =>
    refine ⟨fun agree => ?_, fun ⟨hash, agree⟩ => ?_⟩
    · simp [hashSplit, split, Sql.holds] at agree
    · exact absurd agree.size (noHash hash (getD_eq_blob.mpr agree.admitted))
  rcases Sql.notBlobOf_cases 32 ((db.utxoApplyDeltaBranchHash.lookup height).getD .null) with
    ⟨appliedHash, applied, appliedSize, -⟩ | ⟨noHash, split⟩
  case inr =>
    refine ⟨fun agree => ?_, fun ⟨hash, agree⟩ => ?_⟩
    · simp [hashSplit, split, Sql.holds] at agree
    · exact absurd agree.size (noHash hash (getD_eq_blob.mpr agree.applied))
  rw [getD_eq_blob] at admitted applied
  rw [validated, hashSplit_of_hashes size admitted admittedSize applied appliedSize, Sql.holds]
  simp only [Option.some.injEq, decide_eq_true_eq, decide_eq_false_iff_not, not_or, not_and,
    not_not]
  constructor
  · rintro ⟨rfl, rfl, script, proof⟩
    exact ⟨hash, { size := size, validated := ⟨row, found, validated⟩, admitted := admitted,
                   applied := applied, script := script, proof := proof }⟩
  · rintro ⟨hash', agree⟩
    obtain ⟨row', found', validated'⟩ := agree.validated
    cases found.symm.trans found'
    obtain rfl : hash = hash' := by simpa [validated] using validated'
    refine ⟨?_, ?_, agree.script, agree.proof⟩
    · simpa [admitted, eq_comm] using agree.admitted
    · simpa [applied, eq_comm] using agree.applied

theorem le_applyHashAgreement_iff {anchor hstar h : Int} (low : 0 ≤ anchor)
    (high : hstar ≤ int32Max) (start : anchor < h)
    (logged : ∀ k, anchor < k → k ≤ hstar → ∃ row, (db.log .validateHeaders).lookup k = some row)
    : h ≤ reducerFrontierApplyHashAgreement db anchor hstar
        ↔ h ≤ hstar ∧ ∀ k, anchor < k → k ≤ h → ∃ hash, HashesAgree db k hash := by
  simp only [reducerFrontierApplyHashAgreement]
  split
  · rename_i below
    exact ⟨fun under => absurd start (by omega), fun ⟨under, _⟩ => absurd start (by omega)⟩
  split
  · rename_i _ none
    have agree := List.find?_eq_none.mp none
    refine ⟨fun under => ⟨under, fun k passed below => ?_⟩, And.left⟩
    obtain ⟨row, found⟩ := logged k passed (by omega)
    have inRange := agree (k, row) (mem_between.mpr ⟨passed, by omega, found⟩)
    exact (hashSplit_iff found).mp (by simpa using inRange)
  · rename_i _ split row first
    obtain ⟨⟨passed, under, found⟩, disagrees, earlier⟩ := between_find? first
    have exact32 : castInt32 split = split := castInt32_of_fits (by omega) (by omega)
    simp only [exact32]
    rw [if_neg (by omega)]
    constructor
    · intro below
      refine ⟨by omega, fun k above upTo => ?_⟩
      obtain ⟨row', found'⟩ := logged k above (by omega)
      exact (hashSplit_iff found').mp (earlier k row' above (by omega) found')
    · rintro ⟨-, agree⟩
      by_contra beyond
      have agrees := (hashSplit_iff found).mpr (agree split passed (by omega))
      exact Bool.false_ne_true (agrees.symm.trans disagrees)

end Hashes

-- The frontier

theorem candidate_fits {env : FrontierEnv} {db : ProgressDb} {height : Int} {rowless : Bool}
    (covered : reducerFrontierCoinAuthorityCovers db height = true)
    (candidate : reducerAnchorCandidateOk env db height rowless = true)
    : 0 ≤ height ∧ height ≤ int32Max := by
  simp only [reducerFrontierCoinAuthorityCovers, Bool.and_eq_true, decide_eq_true_eq] at covered
  simp only [reducerAnchorCandidateOk, Bool.and_eq_true, decide_eq_true_eq] at candidate
  exact ⟨covered.1, by omega⟩

theorem raiseBase_fits {env : FrontierEnv} {db : ProgressDb} {coveredFloor out anchor : Int}
    (outFits : 0 ≤ out ∧ out ≤ int32Max)
    (raised : reducerTrustedAnchorRaiseBase env db coveredFloor out = some anchor)
    : 0 ≤ anchor ∧ anchor ≤ int32Max := by
  obtain ⟨base, -, selected⟩ := Option.map_eq_some_iff.mp raised
  cases base with
  | none =>
    cases selected
    exact outFits
  | some height =>
    simp only [] at selected
    split at selected
    · rename_i accepted
      cases selected
      simp only [Bool.and_eq_true] at accepted
      exact candidate_fits accepted.1.2 accepted.2
    · cases selected
      exact outFits

theorem reducerTrustedAnchor_fits {env : FrontierEnv} {db : ProgressDb} {compiledAnchor : Floor}
    {anchor : Int} (selected : reducerTrustedAnchor env db compiledAnchor = some anchor)
    : 0 ≤ anchor ∧ anchor ≤ int32Max := by
  refine raiseBase_fits ?_ selected
  cases row : (anchorRowHeights db _).find? fun h =>
      reducerFrontierCoinAuthorityCovers db h && reducerAnchorCandidateOk env db h false with
  | some height =>
    have accepted := List.find?_some row
    simp only [Bool.and_eq_true] at accepted
    exact candidate_fits accepted.1 accepted.2
  | none =>
    simp only [Option.getD_none]
    split
    · exact ⟨le_rfl, by decide⟩
    · exact compiledAnchor.2

section Frontier

variable {env : FrontierEnv} {db : ProgressDb} {anchor h : Int}

theorem ProvenAt.lt_int32Max (unsaturated : Unsaturated db) (proven : ProvenAt env db h)
    : h < int32Max := by
  obtain ⟨log, unsaturated⟩ := unsaturated
  exact lt_of_lt_of_le (proven.logged log).1 unsaturated

/-- The logs together reach a height exactly when each has a counting row at every height. -/
theorem le_leastContiguous_iff_logged (store : Int32Store db) (low : 0 ≤ anchor)
    (high : anchor ≤ int32Max) (start : anchor ≤ h)
    : h ≤ leastContiguous env db anchor (-1)
        ↔ h ≤ int32Max ∧ ∀ k, anchor < k → k ≤ h → ∀ log,
            k < frontierNextCursor log (db.cursor log)
              ∧ ∃ row, (db.log log).lookup k = some row ∧ RowProves env db log k row := by
  rw [le_leastContiguous_iff]
  refine and_congr_right fun _ => ?_
  simp only [le_logContiguousPrefix_iff store low high start]
  exact ⟨fun logs k passed upTo log => logs log k passed upTo,
    fun heights log k passed upTo => heights k passed upTo log⟩

theorem le_hstarAbove_iff (store : Int32Store db) (unsaturated : Unsaturated db)
    (low : 0 ≤ anchor) (high : anchor ≤ int32Max) (start : anchor < h)
    : h ≤ hstarAbove env db (-1) anchor ↔ ∀ k, anchor < k → k ≤ h → ProvenAt env db k := by
  have guarded : ∀ hs, h ≤ max (reducerFrontierApplyHashAgreement db anchor hs) anchor
      ↔ h ≤ reducerFrontierApplyHashAgreement db anchor hs := by
    intro hs
    omega
  simp only [hstarAbove, guarded]
  split
  · rename_i saturated
    -- only an anchor at the last height leaves the sentinel in place
    have last : anchor = int32Max := by
      by_contra below
      have moved : leastContiguous env db anchor (-1) < int32Max :=
        leastContiguous_lt_int32Max store unsaturated low (by omega)
      omega
    constructor
    · intro reached
      simp only [reducerFrontierApplyHashAgreement, le_refl, if_true] at reached
      omega
    · intro proven
      have := (proven h start le_rfl).lt_int32Max unsaturated
      omega
  · have bounded := (le_leastContiguous_iff.mp
      (le_refl (leastContiguous env db anchor (-1)))).1
    have logged : ∀ k, anchor < k → k ≤ leastContiguous env db anchor (-1) →
        ∃ row, (db.log .validateHeaders).lookup k = some row := by
      intro k passed upTo
      have reached := (le_leastContiguous_iff_logged store low high passed.le).mp upTo
      obtain ⟨row, found, -⟩ := (reached.2 k passed le_rfl .validateHeaders).2
      exact ⟨row, found⟩
    rw [le_applyHashAgreement_iff low bounded start logged,
      le_leastContiguous_iff_logged store low high start.le]
    constructor
    · rintro ⟨⟨-, heights⟩, hashes⟩ k passed upTo
      exact { logged := heights k passed upTo, bound := hashes k passed upTo }
    · intro proven
      have := (proven h start le_rfl).lt_int32Max unsaturated
      exact ⟨⟨by omega, fun k passed upTo => (proven k passed upTo).logged⟩,
        fun k passed upTo => (proven k passed upTo).bound⟩

theorem anchor_le_hstarAbove {verifyWm : Int} : anchor ≤ hstarAbove env db verifyWm anchor :=
  le_max_right _ _

/-- H* is the highest height up to which everything above the selected anchor is proven. -/
theorem computeHstar_isGreatest {compiledAnchor : Floor} (store : Int32Store db)
    (unsaturated : Unsaturated db)
    (selected : reducerTrustedAnchor env db compiledAnchor = some anchor)
    : ∃ frontier, reducerFrontierComputeHstar env compiledAnchor db (-1) = some frontier
        ∧ IsGreatest { h | ProvableTo env db anchor h } frontier.hstar := by
  obtain ⟨low, high⟩ := reducerTrustedAnchor_fits selected
  refine ⟨⟨hstarAbove env db (-1) anchor, tipFinalizeServedFloor db⟩,
    by simp [reducerFrontierComputeHstar, selected], ⟨anchor_le_hstarAbove, ?_⟩, ?_⟩
  · intro h passed upTo
    exact (le_hstarAbove_iff store unsaturated low high passed).mp upTo h passed le_rfl
  · rintro h ⟨start, proven⟩
    rcases eq_or_lt_of_le start with rfl | passed
    · exact anchor_le_hstarAbove
    · exact (le_hstarAbove_iff store unsaturated low high passed).mpr proven

end Frontier

-- A store of one proven height

def sampleEnv : FrontierEnv where
  mintSkipCrypto := false
  sha3 := fun _ => List.replicate 32 0

def sampleHash : List UInt8 := List.replicate 32 7

def sampleRow (ok : Int) : LogRow where
  ok := .integer ok
  status := .text (asciiBytes "verified")
  itag := .null
  hash := .blob sampleHash

def singleRow {α : Type} (key : Int) (value : α) : KeyedRows α := KeyedRows.empty.upsert key value

/-- Height 1 is logged by every stage, with the verdict `ok` of utxo_apply, above a genesis floor. -/
def sampleDb (ok : Int) : ProgressDb where
  log := fun log => singleRow 1 (sampleRow (if log = .utxoApply then ok else 1))
  itagColumn := fun _ => true
  scriptBlockHashColumn := true
  proofBlockHashColumn := true
  headerAdmitHash := singleRow 1 (.blob sampleHash)
  utxoApplyDeltaBranchHash := singleRow 1 (.blob sampleHash)
  cursor := fun log => if log = .tipFinalize then 1 else 2
  trustedBaseHeight := none
  coinsAppliedHeight := none
  migrationComplete := none
  coinsNonempty := true

def genesisFloor : Floor := ⟨0, by decide⟩

theorem singleRow_lookup {α : Type} {key height : Int} {value found : α}
    (present : (singleRow key value).lookup height = some found) : height = key ∧ found = value := by
  simpa [singleRow, empty, upsert, lookup_eq_some] using present

theorem sampleDb_int32Store : Int32Store (sampleDb 1) where
  verdicts := by
    intro log height row present verdict stored
    obtain ⟨rfl, rfl⟩ := singleRow_lookup present
    obtain rfl : 1 = verdict := by simpa [sampleRow] using stored
    decide
  heights := by
    intro log
    cases log <;> decide

theorem computeHstar_isGreatest_sample
    : reducerFrontierComputeHstar sampleEnv genesisFloor (sampleDb 1) (-1) = some ⟨1, 1⟩
        ∧ IsGreatest { h | ProvableTo sampleEnv (sampleDb 1) 0 h } 1 := by
  have computed : reducerFrontierComputeHstar sampleEnv genesisFloor (sampleDb 1) (-1)
      = some ⟨1, 1⟩ := by
    decide
  have selected : reducerTrustedAnchor sampleEnv (sampleDb 1) genesisFloor = some 0 := by decide
  obtain ⟨frontier, same, greatest⟩ := computeHstar_isGreatest sampleDb_int32Store
    ⟨.utxoApply, by decide⟩ selected
  cases computed.symm.trans same
  exact ⟨computed, greatest⟩

/-- A row at each height from 1 to `count`. -/
def fullRows {α : Type} (count : Nat) (value : α) : KeyedRows α where
  rows := (List.range count).map (fun (i : Nat) => ((i : Int) + 1, value))
  sorted := by
    refine List.pairwise_map.mpr (List.pairwise_lt_range.imp fun below => ?_)
    simpa using below

theorem fullRows_lookup {α : Type} {count : Nat} {height : Int} {value found : α}
    : (fullRows count value).lookup height = some found
        ↔ 1 ≤ height ∧ height ≤ count ∧ found = value := by
  simp only [lookup_eq_some, fullRows, List.mem_map, List.mem_range, Prod.mk.injEq]
  constructor
  · rintro ⟨i, below, rfl, rfl⟩
    exact ⟨by omega, by omega, rfl⟩
  · rintro ⟨low, high, rfl⟩
    exact ⟨(height - 1).toNat, by omega, by omega, rfl⟩

/-- Every stage has logged every height up to the last `int32_t` one. -/
def fullDb : ProgressDb where
  log := fun _ => fullRows 2147483647 (sampleRow 1)
  itagColumn := fun _ => true
  scriptBlockHashColumn := true
  proofBlockHashColumn := true
  headerAdmitHash := fullRows 2147483647 (.blob sampleHash)
  utxoApplyDeltaBranchHash := fullRows 2147483647 (.blob sampleHash)
  cursor := fun log => if log = .tipFinalize then 2147483647 else 2147483648
  trustedBaseHeight := none
  coinsAppliedHeight := none
  migrationComplete := none
  coinsNonempty := true

theorem fullDb_provenAt {h : Int} (low : 1 ≤ h) (high : h ≤ 2147483647)
    : ProvenAt sampleEnv fullDb h := by
  have row : ∀ log, (fullDb.log log).lookup h = some (sampleRow 1) :=
    fun _ => fullRows_lookup.mpr ⟨low, high, rfl⟩
  have hash : (fullRows 2147483647 (Value.blob sampleHash)).lookup h = some (.blob sampleHash) :=
    fullRows_lookup.mpr ⟨low, high, rfl⟩
  have script : fullDb.scriptBlockHash h = .blob sampleHash := by
    simp only [ProgressDb.scriptBlockHash, row]
    rfl
  have proof : fullDb.proofBlockHash h = .blob sampleHash := by
    simp only [ProgressDb.proofBlockHash, row]
    rfl
  refine { logged := fun log => ⟨?_, _, row log, rfl, fun _ => ⟨_, rfl, by decide⟩, ?_⟩,
           bound := ⟨sampleHash, rfl, ⟨_, row _, rfl⟩, hash, hash, fun _ => script,
             fun _ => proof⟩ }
  · refine lt_of_le_of_lt high ?_
    cases log <;> decide
  · intro _
    simp [stageRowItagVerify, sampleRow]

theorem fullDb_int32Store : Int32Store fullDb where
  verdicts := by
    intro log height row present verdict stored
    obtain ⟨-, -, rfl⟩ := fullRows_lookup.mp present
    obtain rfl : 1 = verdict := by simpa [sampleRow] using stored
    decide
  heights := by
    intro log
    cases log <;> decide

theorem fullDb_anchor : reducerTrustedAnchor sampleEnv fullDb genesisFloor = some 0 := by
  have none : ∀ floor, anchorRowHeights fullDb floor = [] := by
    intro floor
    simp only [anchorRowHeights, List.map_eq_nil_iff, List.reverse_eq_nil_iff,
      List.filter_eq_nil_iff]
    rintro ⟨h, row⟩ member
    obtain ⟨-, -, rfl⟩ := fullRows_lookup.mp (lookup_eq_some.mpr member)
    have status : (sampleRow 1).status ≠ .text (asciiBytes "anchor") := by decide
    simp [status]
  have undeclared : reducerFrontierTrustedBaseHeightRead fullDb = some Option.none := rfl
  simp [reducerTrustedAnchor, reducerTrustedAnchorRaiseBase, none, genesisFloor, undeclared]

/-- Every log reaches the sentinel, which the fold takes for no log at all. -/
theorem fullDb_hstar : hstarAbove sampleEnv fullDb (-1) 0 = 0 := by
  have saturated : leastContiguous sampleEnv fullDb 0 (-1) = int32Max := by
    refine le_antisymm (le_leastContiguous_iff.mp le_rfl).1 ?_
    refine (le_leastContiguous_iff_logged fullDb_int32Store le_rfl (by decide) (by decide)).mpr
      ⟨le_rfl, fun k passed upTo log => ?_⟩
    exact (fullDb_provenAt (by omega) upTo).logged log
  simp [hstarAbove, saturated, reducerFrontierApplyHashAgreement]

/--
A verdict is read into an `int`, so a stored 2^32 + 1 counts as 1; and the last `int32_t` height
is the sentinel of the fold, so a store that is complete up to it is reported at the anchor.
-/
theorem computeHstar_wide_values
    : (reducerTrustedAnchor sampleEnv (sampleDb 4294967297) genesisFloor = some 0
        ∧ reducerFrontierComputeHstar sampleEnv genesisFloor (sampleDb 4294967297) (-1)
            = some ⟨1, 1⟩
        ∧ ¬IsGreatest { h | ProvableTo sampleEnv (sampleDb 4294967297) 0 h } 1)
      ∧ reducerTrustedAnchor sampleEnv fullDb genesisFloor = some 0
        ∧ (reducerFrontierComputeHstar sampleEnv genesisFloor fullDb (-1)).map Frontier.hstar
            = some 0
        ∧ ¬IsGreatest { h | ProvableTo sampleEnv fullDb 0 h } 0 := by
  refine ⟨⟨by decide, by decide, ?_⟩, fullDb_anchor, ?_, ?_⟩
  · rintro ⟨⟨-, proven⟩, -⟩
    obtain ⟨-, row, present, proves⟩ := (proven 1 (by decide) le_rfl).logged .utxoApply
    obtain ⟨-, rfl⟩ := singleRow_lookup present
    simpa [sampleRow] using proves.ok
  · simp [reducerFrontierComputeHstar, fullDb_anchor, fullDb_hstar]
  · rintro ⟨-, greatest⟩
    have reached : (1 : Int) ≤ 0 :=
      greatest ⟨by decide, fun k passed upTo => fullDb_provenAt (by omega) (by omega)⟩
    omega

end Z23.Reducer
