import Z23.Script.Envelope
import Z23.Script.PushOnly

/-!
Signature operations counted in the bytes of a script against the calls of signature hooks that
running it makes. The counter remembers the opcode before; a small number there is the number of
keys that the stack holds when the check runs.
-/

namespace Z23.Script

open Z23.Lib.Failing
open Z23.Lib.Watching
open Z23.Lib.Watching.Watched

-- The counter

def opChecksig : UInt8 := 0xac
def opCheckmultisig : UInt8 := 0xae
def opCheckdatasig : UInt8 := 0xba
def opInvalidopcode : UInt8 := 0xff

def verifyCheckdatasigSigops : UInt32 := 2048

/-- What one opcode adds to the count, given the one before. -/
def sigOpsOf (flags : UInt32) (accurate : Bool) (lastOpcode opcode : UInt8) : Nat :=
  if opcode = opChecksig ∨ opcode = opChecksigverify then 1
  else if opcode = opCheckdatasig ∨ opcode = opCheckdatasigverify then
    if hasFlag flags verifyCheckdatasigSigops then 1 else 0
  else if opcode = opCheckmultisig ∨ opcode = opCheckmultisigverify then
    if accurate ∧ op1 ≤ lastOpcode ∧ lastOpcode ≤ op16 then lastOpcode.toNat - (op1.toNat - 1)
    else 20
  else 0

/-- The loop of `script_get_sig_op_count`; `fuel` is at least what is left. -/
def sigOpCountFrom (script : Bytes) (flags : UInt32) (accurate : Bool)
    : Nat → Nat → UInt8 → Nat → Nat
  | 0, _, _, n => n
  | fuel + 1, pc, lastOpcode, n =>
    if script.length ≤ pc then n
    else
      match scriptSkipOp script pc with
      | none => n
      | some (opcode, next) =>
        -- the count is a 32-bit word
        sigOpCountFrom script flags accurate fuel next opcode
          ((n + sigOpsOf flags accurate lastOpcode opcode) % 2 ^ 32)

def scriptGetSigOpCount (script : Bytes) (flags : UInt32) (accurate : Bool) : Nat :=
  sigOpCountFrom script flags accurate script.length 0 opInvalidopcode 0

/-- What the opcodes from a place on add. -/
def sigOpsFrom (script : Bytes) (flags : UInt32) (accurate : Bool) : Nat → Nat → UInt8 → Nat
  | 0, _, _ => 0
  | fuel + 1, pc, lastOpcode =>
    if script.length ≤ pc then 0
    else
      match scriptSkipOp script pc with
      | none => 0
      | some (opcode, next) =>
        sigOpsOf flags accurate lastOpcode opcode
          + sigOpsFrom script flags accurate fuel next opcode

theorem sigOpsOf_le (flags : UInt32) (accurate : Bool) (lastOpcode opcode : UInt8)
    : sigOpsOf flags accurate lastOpcode opcode ≤ 20 := by
  unfold sigOpsOf
  split_ifs with _ _ _ _ small
  · omega
  · omega
  · omega
  · have last := UInt8.le_iff_toNat_le.mp small.2.2
    have values : op1.toNat = 81 ∧ op16.toNat = 96 := by decide
    omega
  · omega
  · omega

theorem sigOpsOf_accurate_le (flags : UInt32) (lastOpcode opcode : UInt8)
    : sigOpsOf flags true lastOpcode opcode ≤ sigOpsOf flags false lastOpcode opcode := by
  have bounded := sigOpsOf_le flags true lastOpcode opcode
  unfold sigOpsOf at bounded ⊢
  split_ifs at bounded ⊢ <;> simp_all

theorem sigOpCountFrom_eq (script : Bytes) (flags : UInt32) (accurate : Bool) (fuel pc : Nat)
    (lastOpcode : UInt8) (n : Nat) (fits : n + 20 * fuel < 2 ^ 32)
    : sigOpCountFrom script flags accurate fuel pc lastOpcode n
      = n + sigOpsFrom script flags accurate fuel pc lastOpcode := by
  induction fuel generalizing pc lastOpcode n with
  | zero => rfl
  | succ fuel ih =>
    simp only [sigOpCountFrom, sigOpsFrom]
    split
    · rfl
    · cases scriptSkipOp script pc with
      | none => rfl
      | some fetched =>
        have adds := sigOpsOf_le flags accurate lastOpcode fetched.1
        dsimp only
        rw [Nat.mod_eq_of_lt (by omega), ih _ _ _ (by omega), Nat.add_assoc]

theorem scriptGetSigOpCount_eq (script : Bytes) (flags : UInt32) (accurate : Bool)
    (fits : script.length ≤ maxScriptSize)
    : scriptGetSigOpCount script flags accurate
      = sigOpsFrom script flags accurate script.length 0 opInvalidopcode := by
  simp only [maxScriptSize] at fits
  rw [scriptGetSigOpCount, sigOpCountFrom_eq _ _ _ _ _ _ _ (by omega), Nat.zero_add]

theorem sigOpsFrom_accurate_le (script : Bytes) (flags : UInt32) (fuel pc : Nat)
    (lastOpcode : UInt8)
    : sigOpsFrom script flags true fuel pc lastOpcode
      ≤ sigOpsFrom script flags false fuel pc lastOpcode := by
  induction fuel generalizing pc lastOpcode with
  | zero => exact Nat.le_refl _
  | succ fuel ih =>
    simp only [sigOpsFrom]
    split
    · exact Nat.le_refl _
    · cases scriptSkipOp script pc with
      | none => exact Nat.le_refl _
      | some fetched =>
        exact Nat.add_le_add (sigOpsOf_accurate_le flags lastOpcode fetched.1) (ih _ _)

-- Calls of one opcode

/-- A call of a hook for signatures. -/
def Event.isSigCheck : Event → Bool
  | .sigCheck => true
  | _ => false

namespace Watch

abbrev calls {α : Type} (run : Run α) : Nat := tally Event.isSigCheck run

def NoCall (event : Event) : Prop := event.isSigCheck = false

theorem noCall_of_inBounds (event : Event) (h : event.InBounds) : NoCall event := by
  cases event with
  | sigCheck => exact h.elim
  | _ => rfl

variable {α β : Type}

variable {n : Nat}

theorem calls_none {run : Run α} (sees : OnlySees run NoCall) : calls run ≤ n := by
  rw [calls, tally_eq_zero sees]
  exact Nat.zero_le n

theorem calls_then {first : Run α} {next : α → Run β} (sees : OnlySees first NoCall)
    (rest : ∀ value, first.result = .ok value → calls (next value) ≤ n)
    : calls (first >>= next) ≤ n := by
  have sum := tally_bind_le (Nat.le_of_eq (tally_eq_zero sees)) rest
  rwa [Nat.zero_add] at sum

theorem calls_quietly {plain : Eval α} {next : α → Run β}
    (rest : ∀ value, plain = .ok value → calls (next value) ≤ n)
    : calls (quietly plain >>= next) ≤ n :=
  calls_then (OnlySees.quietly _) rest

theorem calls_last {first : Run α} {next : α → Run β} (bounded : calls first ≤ n)
    (rest : ∀ value, OnlySees (next value) NoCall)
    : calls (first >>= next) ≤ n := by
  have sum := tally_bind_le bounded fun value _ => Nat.le_of_eq (tally_eq_zero (rest value))
  rwa [Nat.add_zero] at sum

theorem stackTop_noCall (stack : Stack) (i : Nat) : OnlySees (stackTop stack i) NoCall := by
  intro event member
  rw [List.mem_singleton.mp member]
  rfl

theorem stackPop_noCall (stack : Stack) (n : Nat) : OnlySees (stackPop stack n) NoCall := by
  intro event member
  rw [List.mem_singleton.mp member]
  rfl

theorem pushResult_noCall (stack : Stack) (item : Bytes) (isVerify fSuccess : Bool)
    (code : ScriptError)
    : OnlySees (stackPush stack item >>= fun pushed => verifyTailWhen isVerify pushed fSuccess code)
        NoCall :=
  sees_push_then noCall_of_inBounds (sees_verifyTail noCall_of_inBounds _ _ _ _ _)

theorem signatureVerifies_calls (c : EvalCtx) (sig pubkey : Bytes)
    : calls (signatureVerifies c sig pubkey) ≤ 1 := by
  simp only [calls, tally, signatureVerifies]
  split
  · exact Nat.le_refl 1
  · exact Nat.zero_le 1

theorem checkdatasigVerify_calls (env : ScriptEnv) (sig msg pubkey : Bytes)
    : calls (evalopCheckdatasigVerify env sig msg pubkey) ≤ 1 := by
  simp only [calls, tally, evalopCheckdatasigVerify]
  split
  · split
    · exact Nat.le_refl 1
    · exact Nat.zero_le 1
  · exact Nat.zero_le 1

theorem evalopChecksig_calls (c : EvalCtx) (stack : Stack) (opcode : UInt8)
    : calls (evalopChecksig c stack opcode) ≤ 1 := by
  refine calls_quietly fun _ _ => calls_then (stackTop_noCall stack 2) fun _ _ => ?_
  refine calls_then (stackTop_noCall stack 1) fun _ _ => calls_quietly fun _ _ => ?_
  refine calls_last (signatureVerifies_calls c _ _) fun fSuccess => sees_quietly fun _ => ?_
  exact OnlySees.bind (stackPop_noCall stack 2) fun _ _ => pushResult_noCall _ _ _ _ _

theorem evalopCheckdatasig_calls (c : EvalCtx) (stack : Stack) (opcode : UInt8)
    : calls (evalopCheckdatasig c stack opcode) ≤ 1 := by
  refine calls_quietly fun _ _ => calls_then (stackTop_noCall stack 3) fun _ _ => ?_
  refine calls_then (stackTop_noCall stack 2) fun _ _ => ?_
  refine calls_then (stackTop_noCall stack 1) fun _ _ => ?_
  refine calls_quietly fun _ _ => calls_quietly fun _ _ => ?_
  refine calls_last (checkdatasigVerify_calls c.env _ _ _) fun fSuccess => sees_quietly fun _ => ?_
  exact OnlySees.bind (stackPop_noCall stack 3) fun _ _ => pushResult_noCall _ _ _ _ _

theorem evalopMultisigMatch_calls (c : EvalCtx) (stack : Stack)
    (nKeysCount isig ikey nSigsCount : Nat)
    : calls (evalopMultisigMatch c stack nKeysCount isig ikey nSigsCount) ≤ nKeysCount := by
  induction nKeysCount generalizing isig ikey nSigsCount with
  | zero => exact calls_none (OnlySees.pure _)
  | succ nKeysCount ih =>
    have rest : ∀ isig nSigsCount,
        calls (if nSigsCount > nKeysCount then pure false
          else evalopMultisigMatch c stack nKeysCount isig (ikey + 1) nSigsCount)
        ≤ nKeysCount := by
      intro isig nSigsCount
      split
      · exact calls_none (OnlySees.pure _)
      · exact ih isig (ikey + 1) nSigsCount
    simp only [evalopMultisigMatch]
    split
    · exact calls_none (OnlySees.pure _)
    · refine calls_then (stackTop_noCall stack isig) fun _ _ => ?_
      refine calls_then (stackTop_noCall stack ikey) fun _ _ => calls_quietly fun _ _ => ?_
      refine Nat.le_trans (tally_bind_le (signatureVerifies_calls c _ _) fun _ _ => rest _ _) ?_
      omega

theorem multisigPops_noCall (c : EvalCtx) (fSuccess : Bool) (pops ikey2 : Nat) (stack : Stack)
    : OnlySees (multisigPops c fSuccess pops ikey2 stack) NoCall := by
  induction pops generalizing ikey2 stack with
  | zero => exact OnlySees.pure _
  | succ pops ih =>
    refine OnlySees.bind (stackTop_noCall stack 1) fun _ _ => OnlySees.check fun _ => ?_
    exact OnlySees.bind (stackPop_noCall stack 1) fun _ _ => ih _ _

theorem evalopCheckmultisig_calls (c : EvalCtx) (stack : Stack) (nOpCount : Nat) (opcode : UInt8)
    (keys : Ensures (Script.evalopMultisigLayout c stack nOpCount) fun m => m.nKeysCount ≤ n)
    : calls (evalopCheckmultisig c stack nOpCount opcode) ≤ n := by
  refine calls_then ((evalopMultisigLayout_inBounds c stack nOpCount).mono noCall_of_inBounds) ?_
  intro m read
  have bounded : m.nKeysCount ≤ n := keys m read
  have matched := evalopMultisigMatch_calls c stack m.nKeysCount m.isig m.ikey m.nSigsCount
  refine calls_last (Nat.le_trans matched bounded) fun fSuccess => ?_
  refine OnlySees.bind ?_ fun left _ => sees_push_then noCall_of_inBounds ?_
  · refine OnlySees.bind (multisigPops_noCall c fSuccess _ _ stack) fun left _ => ?_
    refine sees_need fun _ => OnlySees.bind (stackTop_noCall left 1) fun _ _ => ?_
    exact OnlySees.check fun _ => stackPop_noCall left 1
  · exact OnlySees.bind (sees_verifyTail noCall_of_inBounds _ _ _ _ _) fun _ _ => OnlySees.pure _

end Watch

-- The opcode before

def isSmallInt (opcode : UInt8) : Prop := op1 ≤ opcode ∧ opcode ≤ op16

instance (opcode : UInt8) : Decidable (isSmallInt opcode) :=
  inferInstanceAs (Decidable (op1 ≤ opcode ∧ opcode ≤ op16))

/-- The number that a small number opcode stands for. -/
def smallIntOf (opcode : UInt8) : Nat := opcode.toNat - (op1.toNat - 1)

/-- After a small number in an executed branch the stack has it on top. -/
def Follows (lastOpcode : UInt8) (state : EvalState) : Prop :=
  isSmallInt lastOpcode → evalopBranchExecuting state = true →
    stackTop state.stack 1 = scriptNumSerialize (smallIntOf lastOpcode)

variable {opcode : UInt8}

theorem smallInt_cases (small : isSmallInt opcode)
    : ∃ n : Fin 16, opcode = UInt8.ofNat (81 + n) := by
  obtain ⟨low, high⟩ := small
  rw [UInt8.le_iff_toNat_le] at low high
  have values : op1.toNat = 81 ∧ op16.toNat = 96 := by decide
  refine ⟨⟨opcode.toNat - 81, by omega⟩, ?_⟩
  rw [← UInt8.toNat_inj, UInt8.toNat_ofNat']
  dsimp only
  omega

theorem smallInt_read (small : isSmallInt opcode) (minimal : Bool)
    : scriptNumFromBytes (scriptNumSerialize (smallIntOf opcode)) minimal scriptNumDefaultMaxSize
      = .ok (smallIntOf opcode : Int) := by
  obtain ⟨n, rfl⟩ := smallInt_cases small
  clear small
  revert n minimal
  decide

theorem smallInt_evalOpOf (small : isSmallInt opcode)
    : evalOpOf opcode = some .pushSmallInt := by
  obtain ⟨n, rfl⟩ := smallInt_cases small
  clear small
  revert n
  decide

theorem evalopExecute_smallInt (c : EvalCtx) (state : EvalState) (small : isSmallInt opcode)
    (data : Bytes)
    : Ensures (evalopExecute c state opcode data) fun next =>
        next.vfExec = state.vfExec ∧
          (state.fExec = true →
            stackTop next.stack 1 = scriptNumSerialize (smallIntOf opcode)) := by
  have noPush : ¬ opcode ≤ opPushdata4 := by
    intro push
    have order : ¬ op1 ≤ opPushdata4 := by decide
    exact order (UInt8.le_trans small.1 push)
  have noBranch : ¬ opIf ≤ opcode := by
    intro branch
    have order : ¬ opIf ≤ op16 := by decide
    exact order (UInt8.le_trans branch small.2)
  simp only [evalopExecute, noPush, noBranch, decide_false, Bool.and_false, Bool.false_and,
    Bool.or_false, Bool.false_eq_true, if_false]
  split
  · next executing =>
      simp only [evalopDispatch, smallInt_evalOpOf small, EvalOp.run]
      refine Ensures.bind (stackPush_ensures _ _) ?_
      rintro pushed ⟨rfl, -⟩
      refine Ensures.ok ⟨rfl, fun _ => ?_⟩
      have low := UInt8.le_iff_toNat_le.mp small.1
      have value : ((opcode.toNat : Int) - (op1.toNat - 1)) = (smallIntOf opcode : Nat) := by
        have one : op1.toNat = 81 := by decide
        simp only [smallIntOf, one] at low ⊢
        omega
      rw [value]
      rfl
  · next skipped => exact Ensures.ok ⟨rfl, fun executing => absurd executing skipped⟩

theorem evalopStep_follows (c : EvalCtx) (state : EvalState) {data : Bytes} {pc : Nat}
    (found : fetchOp c.script state.pc = .ok (opcode, data, pc))
    : Ensures (evalopStep c state) (Follows opcode) := by
  by_cases small : isSmallInt opcode
  · have fetches : Ensures (fetchOp c.script state.pc) fun fetched =>
        fetched = (opcode, data, pc) := by
      intro fetched read
      rw [found] at read
      cases read
      rfl
    refine Ensures.bind fetches ?_
    rintro _ rfl
    refine Ensures.skip fun _ => Ensures.skip fun _ => Ensures.skip fun _ => ?_
    refine Ensures.bind (evalopExecute_smallInt c _ small _) ?_
    rintro next ⟨sameBranches, pushed⟩
    refine Ensures.skip fun _ => Ensures.ok fun _ executing => pushed ?_
    simpa only [evalopBranchExecuting, sameBranches] using executing
  · exact fun _ _ yes => absurd yes small

theorem evalopMultisigLayout_keys (c : EvalCtx) (stack : Stack) (nOpCount : Nat)
    : Ensures (evalopMultisigLayout c stack nOpCount) fun m =>
        m.nKeysCount ≤ 20 ∧
          ∃ bnKeys, scriptNumFromBytes (stackTop stack 1) c.fRequireMinimal
              scriptNumDefaultMaxSize = .ok bnKeys
            ∧ m.nKeysCount = (scriptNumGetInt bnKeys).toNat := by
  refine Ensures.skip fun _ => ?_
  have reads : Ensures (snFromTop stack 1 c.fRequireMinimal scriptNumDefaultMaxSize) fun bnKeys =>
      scriptNumFromBytes (stackTop stack 1) c.fRequireMinimal scriptNumDefaultMaxSize
        = .ok bnKeys := fun _ read => read
  refine Ensures.bind reads fun bnKeys read => Ensures.check fun few => ?_
  refine Ensures.skip fun _ => Ensures.skip fun _ => Ensures.skip fun _ => ?_
  refine Ensures.skip fun _ => Ensures.skip fun _ => Ensures.ok ⟨?_, bnKeys, read, rfl⟩
  simp only [Bool.and_eq_true, decide_eq_true_eq] at few
  dsimp only
  omega

variable {lastOpcode : UInt8}

theorem evalopMultisigLayout_follows (c : EvalCtx) {state : EvalState}
    (follows : Follows lastOpcode state) (executing : evalopBranchExecuting state = true)
    (nOpCount : Nat)
    : Ensures (evalopMultisigLayout c state.stack nOpCount) fun m =>
        m.nKeysCount ≤ if isSmallInt lastOpcode then smallIntOf lastOpcode else 20 := by
  intro m read
  obtain ⟨few, bnKeys, asked, keys⟩ := evalopMultisigLayout_keys c state.stack nOpCount m read
  split
  · next small =>
      rw [follows small executing, smallInt_read small] at asked
      cases asked
      rw [keys]
      have high := UInt8.le_iff_toNat_le.mp small.2
      have sixteen : op16.toNat = 96 := by decide
      simp only [scriptNumGetInt, smallIntOf] at high ⊢
      omega
  · exact few

-- Runs

theorem evalOpOf_row {op : EvalOp} (found : evalOpOf opcode = some op)
    : ∃ row ∈ scriptEvalOpTable, row.2 = op ∧ opcode ∈ row.1 := by
  obtain ⟨row, located, same⟩ := Option.map_eq_some_iff.mp found
  have listed := List.find?_some located
  exact ⟨row, List.mem_of_find?_eq_some located, same, List.contains_iff_mem.mp listed⟩

theorem evalOpOf_checksig (found : evalOpOf opcode = some .checksig)
    : opcode = opChecksig ∨ opcode = opChecksigverify := by
  obtain ⟨row, member, same, listed⟩ := evalOpOf_row found
  have rows : ∀ row ∈ scriptEvalOpTable, row.2 = .checksig →
      row.1 = [opChecksig, opChecksigverify] := by decide
  rw [rows row member same] at listed
  simpa using listed

theorem evalOpOf_checkdatasig (found : evalOpOf opcode = some .checkdatasig)
    : opcode = opCheckdatasig ∨ opcode = opCheckdatasigverify := by
  obtain ⟨row, member, same, listed⟩ := evalOpOf_row found
  have rows : ∀ row ∈ scriptEvalOpTable, row.2 = .checkdatasig →
      row.1 = [opCheckdatasig, opCheckdatasigverify] := by decide
  rw [rows row member same] at listed
  simpa using listed

theorem evalOpOf_checkmultisig (found : evalOpOf opcode = some .checkmultisig)
    : opcode = opCheckmultisig ∨ opcode = opCheckmultisigverify := by
  obtain ⟨row, member, same, listed⟩ := evalOpOf_row found
  have rows : ∀ row ∈ scriptEvalOpTable, row.2 = .checkmultisig →
      row.1 = [opCheckmultisig, opCheckmultisigverify] := by decide
  rw [rows row member same] at listed
  simpa using listed

theorem sigOpsOf_checkdatasig {flags : UInt32} (on : hasFlag flags verifyCheckdatasigSigops = true)
    (datasig : opcode = opCheckdatasig ∨ opcode = opCheckdatasigverify)
    : sigOpsOf flags true lastOpcode opcode = 1 := by
  have other : ¬ (opcode = opChecksig ∨ opcode = opChecksigverify) := by
    rcases datasig with rfl | rfl
    · decide
    · decide
  simp only [sigOpsOf, if_neg other, if_pos datasig, on, if_true]

theorem sigOpsOf_checkmultisig {flags : UInt32}
    (multisig : opcode = opCheckmultisig ∨ opcode = opCheckmultisigverify)
    : sigOpsOf flags true lastOpcode opcode
      = if isSmallInt lastOpcode then smallIntOf lastOpcode else 20 := by
  have others : ¬ (opcode = opChecksig ∨ opcode = opChecksigverify)
      ∧ ¬ (opcode = opCheckdatasig ∨ opcode = opCheckdatasigverify) := by
    rcases multisig with rfl | rfl
    · decide
    · decide
  simp only [sigOpsOf, if_neg others.1, if_neg others.2, if_pos multisig, true_and]
  rfl

namespace Watch

section Bound

variable {flags : UInt32} (on : hasFlag flags verifyCheckdatasigSigops = true) (c : EvalCtx)
include on

variable {lastOpcode opcode : UInt8} {state : EvalState}

theorem run_calls {op : EvalOp} (located : evalOpOf opcode = some op)
    (keys : op = .checkmultisig →
      Ensures (Script.evalopMultisigLayout c state.stack state.nOpCount) fun m =>
        m.nKeysCount ≤ if isSmallInt lastOpcode then smallIntOf lastOpcode else 20)
    : calls (run c state opcode op) ≤ sigOpsOf flags true lastOpcode opcode := by
  cases checks : op.checksSignatures with
  | false => exact calls_none (run_inBounds noCall_of_inBounds c state rfl opcode checks)
  | true =>
    cases op with
    | checksig =>
      have one : sigOpsOf flags true lastOpcode opcode = 1 := if_pos (evalOpOf_checksig located)
      rw [one]
      exact calls_last (evalopChecksig_calls c state.stack opcode) fun _ => OnlySees.pure _
    | checkdatasig =>
      rw [sigOpsOf_checkdatasig on (evalOpOf_checkdatasig located)]
      exact calls_last (evalopCheckdatasig_calls c state.stack opcode) fun _ => OnlySees.pure _
    | checkmultisig =>
      rw [sigOpsOf_checkmultisig (evalOpOf_checkmultisig located)]
      refine calls_last ?_ fun _ => OnlySees.pure _
      exact evalopCheckmultisig_calls c state.stack _ opcode (keys rfl)
    | _ => cases checks

theorem evalopExecute_calls (follows : Follows lastOpcode state)
    (sameExec : state.fExec = evalopBranchExecuting state) (data : Bytes)
    : calls (evalopExecute c state opcode data) ≤ sigOpsOf flags true lastOpcode opcode := by
  unfold evalopExecute
  split
  · refine calls_none (sees_onStack state (OnlySees.check fun _ => ?_))
    exact sees_push noCall_of_inBounds _ _
  · split
    · next runs =>
        unfold evalopDispatch
        cases located : evalOpOf opcode with
        | none => exact calls_none (OnlySees.quietly _)
        | some op =>
          refine run_calls on c located fun multisig => ?_
          -- the check of several signatures is no branch opcode, so its branch is executed
          have executing : state.fExec = true := by
            have noBranch : ¬ opcode ≤ opEndif := by
              rcases evalOpOf_checkmultisig (multisig ▸ located) with rfl | rfl
              · decide
              · decide
            simpa [noBranch] using runs
          exact evalopMultisigLayout_follows c follows (sameExec ▸ executing) _
    · exact calls_none (OnlySees.pure _)

theorem evalopStep_calls {data : Bytes} {pc : Nat} (follows : Follows lastOpcode state)
    (found : fetchOp c.script state.pc = .ok (opcode, data, pc))
    : calls (evalopStep c state) ≤ sigOpsOf flags true lastOpcode opcode := by
  refine calls_quietly fun fetched read => ?_
  rw [found] at read
  cases read
  refine calls_quietly fun _ _ => calls_quietly fun _ _ => calls_quietly fun _ _ => ?_
  have followsFetched : Follows lastOpcode (state.fetched opcode pc) := follows
  refine calls_last (evalopExecute_calls on c followsFetched rfl data) fun next => ?_
  exact OnlySees.check fun _ => OnlySees.bind (OnlySees.see rfl) fun _ _ => OnlySees.pure _

theorem evalLoop_calls (fuel : Nat) (follows : Follows lastOpcode state)
    : calls (evalLoop c fuel state) ≤ sigOpsFrom c.script flags true fuel state.pc lastOpcode := by
  induction fuel generalizing state lastOpcode with
  | zero => exact calls_none (OnlySees.pure _)
  | succ fuel ih =>
    simp only [evalLoop, sigOpsFrom]
    split
    · exact calls_none (OnlySees.pure _)
    · cases found : scriptGetOp c.script state.pc with
      | none =>
        have stuck : fetchOp c.script state.pc = .error .badOpcode := by
          simp only [fetchOp, found]
        have nothing : calls (evalopStep c state >>= evalLoop c fuel) = 0 := by
          simp only [calls, tally, evalopStep, seen_bind, result_bind, stuck]
          rfl
        rw [nothing]
        exact Nat.zero_le _
      | some fetched =>
        obtain ⟨opcode, data, pc⟩ := fetched
        have read : fetchOp c.script state.pc = .ok (opcode, data, pc) := by
          simp only [fetchOp, found]
        rw [scriptSkipOp_of_scriptGetOp found]
        refine tally_bind_le (evalopStep_calls on c follows read) fun next ran => ?_
        rw [result_evalopStep] at ran
        obtain ⟨_, _, again⟩ := evalopStep_fetches c state next ran
        rw [found] at again
        cases again
        exact ih (evalopStep_follows c state read next ran)

end Bound

end Watch

/-- Running a script calls the signature hooks at most as often as the accurate count of its
bytes, which is at most the other count. -/
theorem evalScript_calls_le_sigOpCount (env : ScriptEnv) (flags : UInt32) (stack : Stack)
    (script : Bytes) (fits : script.length ≤ maxScriptSize) (countFlags : UInt32)
    (on : hasFlag countFlags verifyCheckdatasigSigops = true)
    : (Watch.evalScript env flags stack script).result = evalScript env flags stack script
      ∧ (Watch.evalScript env flags stack script).seen.countP Event.isSigCheck
        ≤ scriptGetSigOpCount script countFlags true
      ∧ scriptGetSigOpCount script countFlags true
        ≤ scriptGetSigOpCount script countFlags false := by
  rw [scriptGetSigOpCount_eq script countFlags true fits,
    scriptGetSigOpCount_eq script countFlags false fits]
  refine ⟨Watch.result_evalScript env flags stack script, ?_,
    sigOpsFrom_accurate_le script countFlags _ _ _⟩
  have start : Follows opInvalidopcode { stack } := by
    intro small
    exact absurd small (by decide)
  refine Watch.calls_quietly fun _ _ => ?_
  refine Watch.calls_last (Watch.evalLoop_calls on _ _ start) fun final => ?_
  exact OnlySees.check fun _ => OnlySees.pure _

/-- A hook that accepts every signature. -/
def acceptingEnv : ScriptEnv :=
  { quietEnv with
    checker := some {
      checkSig := some fun _ _ _ _ => true
      checkLockTime := none
      verifySignature := some fun _ _ _ => true } }

/-- One signature against two keys. -/
def oneOfTwoKeys : Bytes := [0x51, 0x02, 3, 3, 0x02, 3, 3, 0x52, 0xae]

/-- The first key verifies the signature, so one of two counted checks is made. -/
theorem evalScript_calls_le_sigOpCount_multisig
    : (Watch.evalScript acceptingEnv 0 [[], []] oneOfTwoKeys).seen.countP Event.isSigCheck = 1
      ∧ (Watch.evalScript acceptingEnv 0 [[], []] oneOfTwoKeys).seen.countP Event.isSigCheck
        ≤ 2 := by
  have bounds := evalScript_calls_le_sigOpCount acceptingEnv 0 [[], []] oneOfTwoKeys (by decide)
    verifyCheckdatasigSigops (by decide)
  exact ⟨by decide, bounds.2.1⟩

end Z23.Script
