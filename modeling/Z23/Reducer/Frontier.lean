import Mathlib.Data.Option.Basic
import Z23.Lib.Bytes
import Z23.Lib.KeyedRows
import Z23.Lib.Sql

/-!
The reducer frontier: the rows of progress.kv that it reads, the trusted anchor and the
computation of H*.
-/

namespace Z23.Reducer

open Z23.Lib Z23.Lib.Bytes
open Z23.Lib.Sql (Value)

def int32Max : Int := 2147483647

/-- The conversion of a 64-bit value to `int32_t`. -/
def castInt32 (value : Int) : Int := (value + 2147483648) % 4294967296 - 2147483648

/-- The height of a finality floor: an `int32_t` that is not negative. -/
abbrev Floor : Type := { height : Int // 0 ≤ height ∧ height ≤ int32Max }

def asciiBytes (text : String) : List UInt8 := text.toList.map (fun c => UInt8.ofNat c.toNat)

-- progress.kv

/-- The success-checked stage logs, in the order of `k_logs`. -/
inductive StageLog where
  | validateHeaders
  | scriptValidate
  | bodyPersist
  | proofValidate
  | utxoApply
  | tipFinalize
deriving DecidableEq, Repr

def kLogs : List StageLog :=
  [.validateHeaders, .scriptValidate, .bodyPersist, .proofValidate, .utxoApply, .tipFinalize]

def StageLog.table : StageLog → String
  | .validateHeaders => "validate_headers_log"
  | .scriptValidate => "script_validate_log"
  | .bodyPersist => "body_persist_log"
  | .proofValidate => "proof_validate_log"
  | .utxoApply => "utxo_apply_log"
  | .tipFinalize => "tip_finalize_log"

def StageLog.servedTip : StageLog → Bool
  | .tipFinalize => true
  | _ => false

def logSuccessRequiresFullValidation : StageLog → Bool
  | .scriptValidate | .proofValidate | .utxoApply => true
  | _ => false

/--
The columns of a stage-log row that the frontier reads. `hash` is the hash of validate_headers and
the nullable block_hash of script_validate and proof_validate.
-/
structure LogRow where
  ok : Value
  status : Value
  itag : Value
  hash : Value
deriving DecidableEq, Repr

/--
The state that the frontier reads. The column flags say which schema generation a table has; a
stage without a cursor row has the cursor 0.
-/
structure ProgressDb where
  log : StageLog → KeyedRows LogRow
  itagColumn : StageLog → Bool
  scriptBlockHashColumn : Bool
  proofBlockHashColumn : Bool
  headerAdmitHash : KeyedRows Value
  utxoApplyDeltaBranchHash : KeyedRows Value
  cursor : StageLog → Int
  trustedBaseHeight : Option Value
  coinsAppliedHeight : Option (List UInt8)
  migrationComplete : Option (List UInt8)
  coinsNonempty : Bool

/-- What the process supplies: the fast-mint switch and SHA3-256. -/
structure FrontierEnv where
  mintSkipCrypto : Bool
  sha3 : List UInt8 → List UInt8

-- One row

inductive MintValidationEvidence where
  | invalid
  | verified
  | checkpointFold
deriving DecidableEq, Repr

def mintValidationEvidenceParse (bytes : List UInt8) : MintValidationEvidence :=
  if bytes = asciiBytes "verified" then .verified
  else if bytes = asciiBytes "checkpoint_fold" then .checkpointFold
  else .invalid

def mintValidationEvidenceExpected (skip : Bool) : MintValidationEvidence :=
  if skip then .checkpointFold else .verified

def reducerFrontierRequiredEvidence (env : FrontierEnv) : MintValidationEvidence :=
  mintValidationEvidenceExpected env.mintSkipCrypto

inductive StageRowItagVerdict where
  | absent
  | matches
  | mismatch
deriving DecidableEq, Repr

def stageRowItagLen : Nat := 16

def stageRowItagCompute (env : FrontierEnv) (log : StageLog) (height ok : Int)
    (status : List UInt8) : List UInt8 :=
  let count := status.length % 4294967296
  let covered :=
    if logSuccessRequiresFullValidation log then bytesLE 4 count ++ status.take count else []
  let digest := env.sha3
    (asciiBytes log.table ++ [0] ++ bytesLE 8 (height % 18446744073709551616).toNat
      ++ [if ok ≠ 0 then 1 else 0] ++ covered)
  digest.take stageRowItagLen

def stageRowItagVerify (env : FrontierEnv) (log : StageLog) (height ok : Int)
    (status : List UInt8) : Value → StageRowItagVerdict
  | .blob tag =>
    if tag.length ≠ stageRowItagLen then .absent
    else if stageRowItagCompute env log height ok status = tag then .matches
    else .mismatch
  | _ => .absent

/-- `sqlite3_column_int` of an integer `ok`, and 0 for any other type. -/
def LogRow.okRaw (row : LogRow) : Int :=
  match row.ok with
  | .integer value => castInt32 value
  | _ => 0

/-- The status bytes of a log whose rows carry evidence. -/
def LogRow.statusText (row : LogRow) (log : StageLog) : Option (List UInt8) :=
  match logSuccessRequiresFullValidation log, row.status with
  | true, .text bytes => some bytes
  | _, _ => none

def logRowDecodeOk (env : FrontierEnv) (log : StageLog) (verifyItag : Bool) (height : Int)
    (row : LogRow) : Bool :=
  let status := row.statusText log
  let rowOk := row.okRaw = 1
    && (!logSuccessRequiresFullValidation log
      || status.any (fun bytes =>
        mintValidationEvidenceParse bytes = reducerFrontierRequiredEvidence env))
  rowOk && !(verifyItag
    && stageRowItagVerify env log height row.okRaw (status.getD []) row.itag = .mismatch)

inductive LogRowState where
  | absent
  | ok
  | fail
deriving DecidableEq, Repr

def logOkAt (env : FrontierEnv) (db : ProgressDb) (log : StageLog) (height : Int) : LogRowState :=
  match (db.log log).lookup height with
  | none => .absent
  | some row => if logRowDecodeOk env log (db.itagColumn log) height row then .ok else .fail

-- The contiguous prefix of one log

def frontierNextCursor (log : StageLog) (cursor : Int) : Int :=
  if log.servedTip && cursor > 0 then cursor + 1 else cursor

def reducerFrontierItagScanFloor (anchor cursor verifyAbove : Int) : Int :=
  if cursor ≤ anchor then anchor
  else if verifyAbove > anchor then
    if verifyAbove < cursor - 1 then verifyAbove else cursor - 1
  else anchor

/-- The scan loop: the streamed rows, the height expected next and the height reached. -/
def contiguousWalk (rowOk : Int → LogRow → Bool) : List (Int × LogRow) → Int → Int → Int
  | [], _, hContiguous => hContiguous
  | (h, row) :: rest, expect, hContiguous =>
    if h ≠ expect || !rowOk h row then hContiguous
    else contiguousWalk rowOk rest (expect + 1) (castInt32 h)

def logContiguousPrefix (env : FrontierEnv) (db : ProgressDb) (log : StageLog)
    (anchor cursor verifyAbove : Int) : Int :=
  let scanFloor := reducerFrontierItagScanFloor anchor cursor verifyAbove
  if cursor ≤ anchor then castInt32 scanFloor
  else
    contiguousWalk
      (fun h row => logRowDecodeOk env log (db.itagColumn log && h > verifyAbove) h row)
      ((db.log log).between scanFloor cursor) (scanFloor + 1) (castInt32 scanFloor)

-- The trusted anchor

def trustedBaseFailDisprovesSeed : StageLog → Bool
  | .scriptValidate | .utxoApply => true
  | _ => false

/-- One log's verdict on a candidate; `first` is the first height above it. -/
def anchorCandidateLogOk (env : FrontierEnv) (db : ProgressDb) (first : Int)
    (allowRowlessFirst : Bool) (log : StageLog) : Bool :=
  let cursor := frontierNextCursor log (db.cursor log)
  if cursor < first then false
  else if cursor = first then true
  else
    match logOkAt env db log first with
    | .ok => true
    | .fail => allowRowlessFirst && !trustedBaseFailDisprovesSeed log
    | .absent => allowRowlessFirst

def reducerAnchorCandidateOk (env : FrontierEnv) (db : ProgressDb) (height : Int)
    (allowRowlessFirst : Bool) : Bool :=
  height + 1 ≤ int32Max
    && kLogs.all (anchorCandidateLogOk env db (height + 1) allowRowlessFirst)

/-- The signed value of an 8-byte little-endian blob, when it fits `int32_t`. -/
def coinsKvGetAppliedHeight (db : ProgressDb) : Option (Option Int) :=
  match db.coinsAppliedHeight with
  | none => some none
  | some blob =>
    if blob.length ≠ 8 then none
    else
      let unsigned : Int := natLE blob
      let value :=
        if unsigned ≥ 9223372036854775808 then unsigned - 18446744073709551616 else unsigned
      if value < -2147483648 || value > int32Max then none else some (some value)

/-- The applied frontier of a store that is proven to hold the live coin set. -/
def coinsKvIsProvenAuthority (db : ProgressDb) : Option Int :=
  match coinsKvGetAppliedHeight db with
  | some (some applied) =>
    if db.migrationComplete = some [1] && db.coinsNonempty then some applied else none
  | _ => none

def reducerFrontierCoinAuthorityCovers (db : ProgressDb) (height : Int) : Bool :=
  0 ≤ height && (coinsKvIsProvenAuthority db).any (fun applied => applied > height)

/-- `none` is a malformed declaration, `some none` an absent one. -/
def reducerFrontierTrustedBaseHeightRead (db : ProgressDb) : Option (Option Int) :=
  match db.trustedBaseHeight with
  | none => some none
  | some (.blob bytes) =>
    if bytes.length ≠ 8 then none
    else if (natLE bytes : Int) > int32Max then none
    else some (some (natLE bytes))
  | some _ => none

def reducerTrustedAnchorRaiseBase (env : FrontierEnv) (db : ProgressDb) (coveredFloor out : Int)
    : Option Int :=
  (reducerFrontierTrustedBaseHeightRead db).map fun base =>
    match base with
    | none => out
    | some height =>
      if height ≥ coveredFloor && height > out
          && reducerFrontierCoinAuthorityCovers db height
          && reducerAnchorCandidateOk env db height true then height
      else out

/-- The heights of the finalized anchor rows at or above the floor, from the highest down. -/
def anchorRowHeights (db : ProgressDb) (coveredFloor : Int) : List Int :=
  (((db.log .tipFinalize).rows.filter fun (h, row) =>
    row.ok = .integer 1 && row.status = .text (asciiBytes "anchor")
      && h ≥ coveredFloor).reverse).map (fun row => castInt32 row.1)

def reducerTrustedAnchor (env : FrontierEnv) (db : ProgressDb) (compiledAnchor : Floor)
    : Option Int :=
  let coveredFloor :=
    if compiledAnchor.1 > 0 && !reducerFrontierCoinAuthorityCovers db compiledAnchor.1 then 0
    else compiledAnchor.1
  let out := ((anchorRowHeights db coveredFloor).find? fun h =>
    reducerFrontierCoinAuthorityCovers db h && reducerAnchorCandidateOk env db h false).getD
      coveredFloor
  reducerTrustedAnchorRaiseBase env db coveredFloor out

-- Hash agreement

/-- A hash column of a joined row: NULL when there is no row or no such column. -/
def ProgressDb.scriptBlockHash (db : ProgressDb) (height : Int) : Value :=
  if db.scriptBlockHashColumn then
    (((db.log .scriptValidate).lookup height).map LogRow.hash).getD .null
  else .null

@[inherit_doc ProgressDb.scriptBlockHash]
def ProgressDb.proofBlockHash (db : ProgressDb) (height : Int) : Value :=
  if db.proofBlockHashColumn then
    (((db.log .proofValidate).lookup height).map LogRow.hash).getD .null
  else .null

/-- The clause on a nullable hash, which is part of the query when the column exists. -/
def nullableHashSplit (column : Bool) (hash validated : Value) : Sql.Truth :=
  if column then
    Sql.and (Sql.isNotNull hash) (Sql.or (Sql.notBlobOf 32 hash) (Sql.ne hash validated))
  else some false

/-- The condition of the split scan on one validate_headers row and the rows joined to it. -/
def hashSplit (db : ProgressDb) (height : Int) (validated : Value) : Sql.Truth :=
  let admitted := (db.headerAdmitHash.lookup height).getD .null
  let applied := (db.utxoApplyDeltaBranchHash.lookup height).getD .null
  Sql.or (Sql.notBlobOf 32 validated) <|
    Sql.or (Sql.notBlobOf 32 admitted) <|
    Sql.or (Sql.notBlobOf 32 applied) <|
    Sql.or (Sql.ne validated admitted) <|
    Sql.or (Sql.ne validated applied) <|
    Sql.or (nullableHashSplit db.scriptBlockHashColumn (db.scriptBlockHash height) validated)
      (nullableHashSplit db.proofBlockHashColumn (db.proofBlockHash height) validated)

def reducerFrontierApplyHashAgreement (db : ProgressDb) (anchor hstar : Int) : Int :=
  if hstar ≤ anchor then hstar
  else
    match ((db.log .validateHeaders).between anchor (hstar + 1)).find?
        (fun (h, row) => Sql.holds (hashSplit db h row.hash)) with
    | none => hstar
    | some (h, _) =>
      let h := castInt32 h
      if h - 1 < anchor then anchor else h - 1

-- H*

structure Frontier where
  hstar : Int
  servedFloor : Int
deriving DecidableEq, Repr

/-- The highest finalized height with `ok = 1`, or 0. -/
def tipFinalizeServedFloor (db : ProgressDb) : Int :=
  castInt32
    ((((db.log .tipFinalize).rows.filter fun row => row.2.ok = .integer 1).getLast?.map
      (·.1)).getD 0)

/-- The least contiguous prefix of the logs, from a sentinel above every height. -/
def leastContiguous (env : FrontierEnv) (db : ProgressDb) (anchor verifyWm : Int) : Int :=
  kLogs.foldl (fun hs log =>
    min hs (logContiguousPrefix env db log anchor (frontierNextCursor log (db.cursor log))
      verifyWm)) int32Max

/-- The computation above a selected anchor; `verifyWm` is the watermark in force, or -1. -/
def hstarAbove (env : FrontierEnv) (db : ProgressDb) (verifyWm anchor : Int) : Int :=
  let hs := leastContiguous env db anchor verifyWm
  let hs := if hs = int32Max then anchor else hs
  max (reducerFrontierApplyHashAgreement db anchor hs) anchor

/-- `none` is the failed read of the trusted base. -/
def reducerFrontierComputeHstar (env : FrontierEnv) (compiledAnchor : Floor) (db : ProgressDb)
    (verifyWm : Int) : Option Frontier :=
  (reducerTrustedAnchor env db compiledAnchor).map fun anchor =>
    { hstar := hstarAbove env db verifyWm anchor
      servedFloor := tipFinalizeServedFloor db }

end Z23.Reducer
