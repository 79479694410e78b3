import Z23.Script.SigOps

/-!
The kinds of standard output scripts. A data carrier is scanned by a loop of its own, which differs
from the decoder of operations on a last push that is cut off.
-/

namespace Z23.Script

-- Templates

def opReturn : UInt8 := 0x6a

inductive TxnOutType where
  | nonstandard
  | pubkey
  | pubkeyHash
  | scriptHash
  | multisig
  | nullData
deriving DecidableEq, Repr

/-- A byte of a template and the values it may have. -/
structure SolverByteCheck where
  offset : Nat
  expect : List UInt8

structure SolverTemplate where
  size : Nat
  copyOff : Nat
  copyLen : Nat
  type : TxnOutType
  checks : List SolverByteCheck

/-- What the solver writes: a type, and the solutions of a match. -/
structure Solved where
  type : TxnOutType
  solutions : List Bytes
  matched : Bool
deriving DecidableEq, Repr

def Solved.none : Solved := ⟨.nonstandard, [], false⟩

/-- The template that is tried before the data carriers. -/
def solverTemplatesP2sh : List SolverTemplate :=
  [⟨23, 2, 20, .scriptHash, [⟨0, [opHash160]⟩, ⟨1, [20]⟩, ⟨22, [opEqual]⟩]⟩]

def solverTemplatesAfterNull : List SolverTemplate :=
  [⟨25, 3, 20, .pubkeyHash,
    [⟨0, [opDup]⟩, ⟨1, [opHash160]⟩, ⟨2, [20]⟩, ⟨23, [opEqualverify]⟩, ⟨24, [opChecksig]⟩]⟩,
  ⟨35, 1, 33, .pubkey, [⟨0, [33]⟩, ⟨34, [opChecksig]⟩, ⟨1, [0x02, 0x03]⟩]⟩,
  ⟨67, 1, 65, .pubkey, [⟨0, [65]⟩, ⟨66, [opChecksig]⟩, ⟨1, [0x04]⟩]⟩]

def scriptSolverTemplateMatches (s : Bytes) (t : SolverTemplate) : Bool :=
  s.length == t.size && t.checks.all fun c => c.expect.contains (s.getD c.offset 0)

def scriptSolverTakeTemplate (s : Bytes) (templates : List SolverTemplate) : Option Solved :=
  (templates.find? (scriptSolverTemplateMatches s)).map fun t =>
    ⟨t.type, [(s.drop t.copyOff).take t.copyLen], true⟩

-- Multisig

/-- The counts of a frame `OP_m ... OP_n OP_CHECKMULTISIG`. -/
def scriptSolverMultisigCounts (s : Bytes) : Option (Nat × Nat) :=
  let lastOp := s.getD (s.length - 2) 0
  let firstOp := s.getD 0 0
  if s.length ≥ 4 ∧ s.getD (s.length - 1) 0 = opCheckmultisig ∧ op1 ≤ lastOp ∧ lastOp ≤ op16
      ∧ op1 ≤ firstOp ∧ firstOp ≤ op16 ∧ firstOp ≤ lastOp then
    some (firstOp.toNat - 0x50, lastOp.toNat - 0x50)
  else none

/-- Up to `n` pushes of a key from a place on, and the place behind them. -/
def scriptSolverReadMultisigKeys (s : Bytes) : Nat → Nat → List Bytes × Nat
  | 0, pos => ([], pos)
  | n + 1, pos =>
    let klen := (s.getD pos 0).toNat
    if s.length - 2 ≤ pos then ([], pos)
    else if klen ≠ 33 ∧ klen ≠ 65 then ([], pos)
    else if pos + 1 + klen > s.length - 2 then ([], pos + 1)
    else
      let read := scriptSolverReadMultisigKeys s n (pos + 1 + klen)
      ((s.drop (pos + 1)).take klen :: read.1, read.2)

def scriptSolverMatchMultisig (s : Bytes) (solutionsCap : Nat) : Option Solved :=
  match scriptSolverMultisigCounts s with
  | none => none
  | some (m, n) =>
    if n + 2 > solutionsCap then none
    else
      let read := scriptSolverReadMultisigKeys s n 1
      if read.1.length = n ∧ read.2 = s.length - 2 then
        some ⟨.multisig, [UInt8.ofNat m] :: (read.1 ++ [[UInt8.ofNat n]]), true⟩
      else none

-- Data carriers

/-- The loop of `script_solver_nulldata_pushes_ok`; `fuel` is at least what is left. -/
def nulldataPushesFrom (s : Bytes) : Nat → Nat → Bool
  | 0, _ => true
  | fuel + 1, i =>
    if s.length ≤ i then true
    else if s.getD i 0 ≤ opPushdata4 then
      match pushLength s (s.getD i 0) (i + 1) with
      | none => false
      -- the cursor may go past the end here
      | some (pushLen, start) => nulldataPushesFrom s fuel (start + pushLen)
    else false

def scriptSolverNulldataPushesOk (s : Bytes) : Bool := nulldataPushesFrom s s.length 1

inductive SolverError where
  | nullSolutions
deriving DecidableEq, Repr

/-- Models `domain_consensus_script_solver` with its pointers given. -/
def domainConsensusScriptSolver (s : Bytes) (solutionsCap : Nat) : Except SolverError Solved :=
  if solutionsCap = 0 then .error .nullSolutions
  else
    match scriptSolverTakeTemplate s solverTemplatesP2sh with
    | some solved => .ok solved
    | none =>
      if s.length ≥ 1 ∧ s.getD 0 0 = opReturn ∧ scriptSolverNulldataPushesOk s then
        .ok ⟨.nullData, [], true⟩
      else
        .ok ((scriptSolverTakeTemplate s solverTemplatesAfterNull).getD
          ((scriptSolverMatchMultisig s solutionsCap).getD .none))

-- The scan against the decoder

/-- From a place on, `script_get_op` decodes pushes up to the end. -/
inductive PushesToEnd (s : Bytes) : Nat → Prop where
  | done : PushesToEnd s s.length
  | push {i next : Nat} {op : UInt8} : scriptSkipOp s i = some (op, next) → op ≤ opPushdata4 →
      PushesToEnd s next → PushesToEnd s i

/-- From a place on there are pushes, and a last one with a length that goes past the end. -/
inductive CutOff (s : Bytes) : Nat → Prop where
  | here {i pushLen start : Nat} : i < s.length → s.getD i 0 ≤ opPushdata4 →
      pushLength s (s.getD i 0) (i + 1) = some (pushLen, start) → s.length < start + pushLen →
      CutOff s i
  | push {i next : Nat} {op : UInt8} : scriptSkipOp s i = some (op, next) → op ≤ opPushdata4 →
      CutOff s next → CutOff s i

def DataCarrier (s : Bytes) : Prop := s.head? = some opReturn ∧ PushesToEnd s 1

def TruncatedCarrier (s : Bytes) : Prop := s.head? = some opReturn ∧ CutOff s 1

variable {s : Bytes} {i next : Nat}

/-- A push that `script_get_op` decodes. -/
theorem scriptSkipOp_push {op : UInt8}
    : scriptSkipOp s i = some (op, next) ∧ op ≤ opPushdata4 ↔
      i < s.length ∧ s.getD i 0 = op ∧ op ≤ opPushdata4 ∧
        ∃ pushLen start, pushLength s op (i + 1) = some (pushLen, start) ∧
          start + pushLen = next ∧ next ≤ s.length := by
  rw [scriptSkipOp]
  grind

theorem PushesToEnd.not_cutOff (whole : PushesToEnd s i) : ¬ CutOff s i := by
  induction whole with
  | done =>
    intro cut
    cases cut with
    | here inside => exact Nat.lt_irrefl _ inside
    | push step small _ => exact Nat.lt_irrefl _ (scriptSkipOp_push.mp ⟨step, small⟩).1
  | push step small _ ih =>
    intro cut
    cases cut with
    | here inside push length past =>
      obtain ⟨-, rfl, -, pushLen, start, found, rfl, fits⟩ := scriptSkipOp_push.mp ⟨step, small⟩
      rw [found] at length
      cases length
      omega
    | push otherStep _ cut =>
      rw [step] at otherStep
      cases otherStep
      exact ih cut

theorem walks_turn (inside : i < s.length)
    : PushesToEnd s i ∨ CutOff s i ↔
      s.getD i 0 ≤ opPushdata4 ∧
        ∃ pushLen start, pushLength s (s.getD i 0) (i + 1) = some (pushLen, start) ∧
          (s.length < start + pushLen ∨ start + pushLen ≤ s.length ∧
            (PushesToEnd s (start + pushLen) ∨ CutOff s (start + pushLen))) := by
  constructor
  · rintro (whole | cut)
    · cases whole with
      | done => exact absurd inside (Nat.lt_irrefl _)
      | push step small rest =>
        obtain ⟨-, rfl, -, pushLen, start, length, rfl, fits⟩ := scriptSkipOp_push.mp ⟨step, small⟩
        exact ⟨small, pushLen, start, length, .inr ⟨fits, .inl rest⟩⟩
    · cases cut with
      | here _ small length past => exact ⟨small, _, _, length, .inl past⟩
      | push step small rest =>
        obtain ⟨-, rfl, -, pushLen, start, length, rfl, fits⟩ := scriptSkipOp_push.mp ⟨step, small⟩
        exact ⟨small, pushLen, start, length, .inr ⟨fits, .inr rest⟩⟩
  · rintro ⟨small, pushLen, start, length, past | ⟨fits, rest⟩⟩
    · exact .inr (.here inside small length past)
    · have step := (scriptSkipOp_push.mpr ⟨inside, rfl, small, pushLen, start, length, rfl, fits⟩).1
      exact rest.imp (.push step small) (.push step small)

theorem nulldataPushesFrom_past (past : s.length ≤ i) (fuel : Nat)
    : nulldataPushesFrom s fuel i = true := by
  cases fuel with
  | zero => rfl
  | succ fuel => rw [nulldataPushesFrom, if_pos past]

theorem nulldataPushesFrom_iff {fuel : Nat} (enough : s.length ≤ i + fuel) (within : i ≤ s.length)
    : nulldataPushesFrom s fuel i = true ↔ PushesToEnd s i ∨ CutOff s i := by
  induction fuel generalizing i with
  | zero =>
    obtain rfl : i = s.length := by omega
    exact iff_of_true rfl (.inl .done)
  | succ fuel ih =>
    rcases Nat.eq_or_lt_of_le within with rfl | inside
    · exact iff_of_true (nulldataPushesFrom_past (Nat.le_refl _) _) (.inl .done)
    rw [walks_turn inside, nulldataPushesFrom, if_neg (Nat.not_le.mpr inside)]
    split
    case isFalse large => exact iff_of_false Bool.false_ne_true fun turn => large turn.1
    case isTrue small =>
      split
      case h_1 none =>
        refine iff_of_false Bool.false_ne_true ?_
        rintro ⟨-, _, _, found, -⟩
        rw [none] at found
        cases found
      case h_2 pushLen start length =>
        have forward := pushLength_forward length
        rcases Nat.lt_or_ge s.length (start + pushLen) with past | fits
        · have accepted := nulldataPushesFrom_past (Nat.le_of_lt past) fuel
          exact iff_of_true accepted ⟨small, _, _, length, .inl past⟩
        · rw [ih (by omega) fits]
          refine ⟨fun rest => ⟨small, _, _, length, .inr ⟨fits, rest⟩⟩, ?_⟩
          rintro ⟨-, _, _, again, turn⟩
          rw [length] at again
          cases again
          exact turn.elim (fun past => absurd fits (Nat.not_le.mpr past)) And.right

-- The solver

theorem takeTemplate_type {templates : List SolverTemplate} {solved : Solved}
    (taken : scriptSolverTakeTemplate s templates = some solved)
    (others : ∀ t ∈ templates, t.type ≠ .nullData)
    : solved.type ≠ .nullData := by
  obtain ⟨t, found, rfl⟩ := Option.map_eq_some_iff.mp taken
  exact others t (List.mem_of_find?_eq_some found)

theorem matchMultisig_type {solutionsCap : Nat} {solved : Solved}
    (taken : scriptSolverMatchMultisig s solutionsCap = some solved)
    : solved.type ≠ .nullData := by
  rw [scriptSolverMatchMultisig] at taken
  grind

theorem takeTemplate_p2sh (starts : s.head? = some opReturn)
    : scriptSolverTakeTemplate s solverTemplatesP2sh = none := by
  cases s with
  | nil => cases starts
  | cons first rest =>
    cases starts
    simp [scriptSolverTakeTemplate, solverTemplatesP2sh, scriptSolverTemplateMatches, opReturn,
      opHash160]

theorem head_eq_opReturn : s.head? = some opReturn ↔ s.length ≥ 1 ∧ s.getD 0 0 = opReturn := by
  cases s with
  | nil => simp
  | cons first rest => simp

theorem scriptSolver_type {solutionsCap : Nat} (room : 0 < solutionsCap)
    : ∃ solved, domainConsensusScriptSolver s solutionsCap = .ok solved ∧
      (solved.type = .nullData ↔
        s.head? = some opReturn ∧ (PushesToEnd s 1 ∨ CutOff s 1)) := by
  rw [domainConsensusScriptSolver, if_neg (Nat.ne_of_gt room)]
  cases first : scriptSolverTakeTemplate s solverTemplatesP2sh with
  | some solved =>
    refine ⟨solved, rfl, iff_of_false (takeTemplate_type first (by decide)) ?_⟩
    rintro ⟨starts, -⟩
    rw [takeTemplate_p2sh starts] at first
    cases first
  | none =>
    have scan (starts : s.head? = some opReturn)
        : scriptSolverNulldataPushesOk s = true ↔ PushesToEnd s 1 ∨ CutOff s 1 :=
      nulldataPushesFrom_iff (by omega) (head_eq_opReturn.mp starts).1
    dsimp only
    split
    case isTrue found =>
      have starts := head_eq_opReturn.mpr ⟨found.1, found.2.1⟩
      exact ⟨_, rfl, iff_of_true rfl ⟨starts, (scan starts).mp found.2.2⟩⟩
    case isFalse other =>
      refine ⟨_, rfl, iff_of_false ?_ ?_⟩
      · cases later : scriptSolverTakeTemplate s solverTemplatesAfterNull with
        | some solved => exact takeTemplate_type later (by decide)
        | none =>
          cases keys : scriptSolverMatchMultisig s solutionsCap with
          | some solved => exact matchMultisig_type keys
          | none => exact TxnOutType.noConfusion
      · rintro ⟨starts, walks⟩
        obtain ⟨long, first⟩ := head_eq_opReturn.mp starts
        exact other ⟨long, first, (scan starts).mpr walks⟩

/-- The solver is exact on every script but those with a last push that is cut off. -/
theorem scriptSolver_nullData_iff (s : Bytes) {solutionsCap : Nat} (room : 0 < solutionsCap)
    : ∃ solved, domainConsensusScriptSolver s solutionsCap = .ok solved ∧
      ((solved.type = .nullData ↔ DataCarrier s) ↔ ¬ TruncatedCarrier s) := by
  obtain ⟨solved, ran, type⟩ := @scriptSolver_type s solutionsCap room
  refine ⟨solved, ran, ?_⟩
  rw [type, DataCarrier, TruncatedCarrier]
  by_cases starts : s.head? = some opReturn
  · have apart : PushesToEnd s 1 → ¬ CutOff s 1 := PushesToEnd.not_cutOff
    simp only [starts, true_and]
    constructor
    · intro exact cut
      exact apart (exact.mp (.inr cut)) cut
    · intro whole
      exact or_iff_left whole
  · simp [starts]

theorem scriptSolver_nullData_iff_push
    : ∃ solved, domainConsensusScriptSolver [0x6a, 0x01, 0xff] 1 = .ok solved ∧
      ((solved.type = .nullData ↔ DataCarrier [0x6a, 0x01, 0xff]) ↔
        ¬ TruncatedCarrier [0x6a, 0x01, 0xff]) :=
  scriptSolver_nullData_iff [0x6a, 0x01, 0xff] (by decide)

/-- Two bytes are announced and one follows. -/
theorem scriptSolver_nullData_truncated
    : domainConsensusScriptSolver [0x6a, 0x02, 0xff] 1 = .ok ⟨.nullData, [], true⟩ ∧
      ¬ DataCarrier [0x6a, 0x02, 0xff] := by
  refine ⟨rfl, fun carrier => carrier.2.not_cutOff ?_⟩
  exact .here (by decide) (by decide) rfl (by decide)

end Z23.Script
