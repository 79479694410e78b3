import Z23.Script.Interpreter

/-!
The two assertions of a verification. No handler fails one, and the stack that the redeem script
starts from is never empty: the template of the output has already read it.
-/

namespace Z23.Script

open Z23.Lib.Failing

-- Pieces of handlers

@[simp] theorem stackPush_not_aborted (stack : Stack) (item : Bytes)
    : stackPush stack item ≠ .error .aborted := by
  simp [stackPush, bind_eq_error_iff, require_eq_error_iff, pure, Except.pure]

@[simp] theorem needItems_not_aborted (stack : Stack) (n : Nat)
    : needItems stack n ≠ .error .aborted := by
  simp [needItems, require_eq_error_iff]

@[simp] theorem snFromTop_not_aborted (stack : Stack) (i : Nat) (minimal : Bool) (maxSize : Nat)
    : snFromTop stack i minimal maxSize ≠ .error .aborted := by
  simp [snFromTop, scriptNumFromBytes, bind_eq_error_iff, require_eq_error_iff, pure, Except.pure]

@[simp] theorem evalopPushBool_not_aborted (stack : Stack) (fSuccess : Bool)
    : evalopPushBool stack fSuccess ≠ .error .aborted :=
  stackPush_not_aborted _ _

theorem verifyTailWhen_not_aborted (isVerify : Bool) (stack : Stack) (fSuccess : Bool)
    {code : ScriptError} (other : code ≠ .aborted)
    : verifyTailWhen isVerify stack fSuccess code ≠ .error .aborted := by
  unfold verifyTailWhen
  split
  · simp [evalopVerifyTail, bind_eq_error_iff, require_eq_error_iff, pure, Except.pure, other]
  · simp

theorem checkRawSignatureEncoding_not_aborted (checkLowS : Bytes → Bool) (sig : Bytes)
    (flags : UInt32)
    : checkRawSignatureEncoding checkLowS sig flags ≠ .error .aborted := by
  simp [checkRawSignatureEncoding, bind_eq_error_iff, require_eq_error_iff]

@[simp] theorem checkPubkeyEncoding_not_aborted (pubkey : Bytes) (flags : UInt32)
    : checkPubkeyEncoding pubkey flags ≠ .error .aborted := by
  simp [checkPubkeyEncoding, require_eq_error_iff]

@[simp] theorem checkDataSignatureEncoding_not_aborted (checkLowS : Bytes → Bool) (sig : Bytes)
    (flags : UInt32)
    : checkDataSignatureEncoding checkLowS sig flags ≠ .error .aborted := by
  unfold checkDataSignatureEncoding
  split
  · simp
  · exact checkRawSignatureEncoding_not_aborted checkLowS sig flags

@[simp] theorem checkEncodings_not_aborted (c : EvalCtx) (sig pubkey : Bytes)
    : checkEncodings c sig pubkey ≠ .error .aborted := by
  simp only [checkEncodings, checkTransactionSignatureEncoding]
  split
  · simp [bind_eq_error_iff]
  · simp [bind_eq_error_iff, require_eq_error_iff, checkRawSignatureEncoding_not_aborted]

@[simp] theorem checkNullFail_not_aborted (c : EvalCtx) (fSuccess : Bool) (sig : Bytes)
    : checkNullFail c fSuccess sig ≠ .error .aborted := by
  simp [checkNullFail, require_eq_error_iff]

-- Handlers

theorem evalopMultisigMatch_not_aborted (c : EvalCtx) (stack : Stack)
    (nKeysCount isig ikey nSigsCount : Nat)
    : evalopMultisigMatch c stack nKeysCount isig ikey nSigsCount ≠ .error .aborted := by
  induction nKeysCount generalizing isig ikey nSigsCount with
  | zero => simp [evalopMultisigMatch]
  | succ nKeysCount ih =>
    have rest : ∀ isig nSigsCount,
        (if nSigsCount > nKeysCount then pure false
          else evalopMultisigMatch c stack nKeysCount isig (ikey + 1) nSigsCount)
          ≠ .error .aborted := by
      intro isig nSigsCount
      split
      · simp [pure, Except.pure]
      · exact ih isig (ikey + 1) nSigsCount
    simp only [evalopMultisigMatch]
    split
    · simp
    · simp only [ne_eq, bind_eq_error_iff, checkEncodings_not_aborted, false_or, not_exists,
        not_and]
      intro _ _
      exact rest _ _

theorem multisigPops_not_aborted (c : EvalCtx) (fSuccess : Bool) (pops ikey2 : Nat) (stack : Stack)
    : multisigPops c fSuccess pops ikey2 stack ≠ .error .aborted := by
  induction pops generalizing ikey2 stack with
  | zero => simp [multisigPops]
  | succ pops ih => simp [multisigPops, bind_eq_error_iff, require_eq_error_iff, ih]

theorem evalopCheckmultisig_not_aborted (c : EvalCtx) (stack : Stack) (nOpCount : Nat)
    (opcode : UInt8)
    : evalopCheckmultisig c stack nOpCount opcode ≠ .error .aborted := by
  have layout : evalopMultisigLayout c stack nOpCount ≠ .error .aborted := by
    simp [evalopMultisigLayout, bind_eq_error_iff, require_eq_error_iff, pure, Except.pure]
  have cleanup : ∀ m fSuccess, evalopMultisigCleanup c stack m fSuccess ≠ .error .aborted := by
    intro m fSuccess
    simp [evalopMultisigCleanup, bind_eq_error_iff, require_eq_error_iff, pure, Except.pure,
      multisigPops_not_aborted]
  simp [evalopCheckmultisig, bind_eq_error_iff, pure, Except.pure, layout, cleanup,
    evalopMultisigMatch_not_aborted, verifyTailWhen_not_aborted]

theorem onStack_not_aborted (state : EvalState) {run : Eval Stack} (runs : run ≠ .error .aborted)
    : onStack state run ≠ .error .aborted := by
  simp [onStack, bind_eq_error_iff, pure, Except.pure, runs]

theorem evalopChecklocktimeverify_not_aborted (c : EvalCtx) (stack : Stack)
    : evalopChecklocktimeverify c stack ≠ .error .aborted := by
  unfold evalopChecklocktimeverify
  split
  · simp [bind_eq_error_iff, require_eq_error_iff, pure, Except.pure]
  · simp [bind_eq_error_iff, require_eq_error_iff, pure, Except.pure]

theorem evalopIfdup_not_aborted (stack : Stack) : evalopIfdup stack ≠ .error .aborted := by
  simp only [evalopIfdup, ne_eq, bind_eq_error_iff, needItems_not_aborted, false_or, not_exists,
    not_and]
  intro _ _
  split
  · simp
  · simp [pure, Except.pure]

theorem evalopPlaces_not_aborted (stack : Stack)
    : evalop2swap stack ≠ .error .aborted ∧ evalopRot stack ≠ .error .aborted
      ∧ evalopSwap stack ≠ .error .aborted := by
  refine ⟨?_, ?_, ?_⟩
  · unfold evalop2swap
    split
    · simp
    · simp
  · unfold evalopRot
    split
    · simp
    · simp
  · unfold evalopSwap
    split
    · simp
    · simp

theorem evalOp_run_not_aborted (c : EvalCtx) (state : EvalState) (opcode : UInt8) (op : EvalOp)
    : op.run c state opcode ≠ .error .aborted := by
  cases op with
  | nop => simp [EvalOp.run]
  | «return» => simp [EvalOp.run]
  | ifNotif =>
    simp [EvalOp.run, evalopIfNotif, bind_eq_error_iff, require_eq_error_iff, pure, Except.pure]
  | «else» =>
    simp only [EvalOp.run, evalopElse]
    split
    · simp
    · simp
  | endif =>
    simp only [EvalOp.run, evalopEndif]
    split
    · simp
    · simp
  | toaltstack =>
    simp [EvalOp.run, evalopToaltstack, bind_eq_error_iff, pure, Except.pure]
  | fromaltstack =>
    simp [EvalOp.run, evalopFromaltstack, bind_eq_error_iff, require_eq_error_iff, pure,
      Except.pure]
  | checkmultisig =>
    simp [EvalOp.run, bind_eq_error_iff, pure, Except.pure, evalopCheckmultisig_not_aborted]
  | checklocktimeverify =>
    exact onStack_not_aborted state (evalopChecklocktimeverify_not_aborted c _)
  | ifdup => exact onStack_not_aborted state (evalopIfdup_not_aborted _)
  | swap2 => exact onStack_not_aborted state (evalopPlaces_not_aborted _).1
  | rot => exact onStack_not_aborted state (evalopPlaces_not_aborted _).2.1
  | swap => exact onStack_not_aborted state (evalopPlaces_not_aborted _).2.2
  | _ =>
    apply onStack_not_aborted
    simp [evalopPushSmallInt, evalopUpgradableNop, evalopVerify, evalop2drop, evalopDupOverPair,
        evalop3dup, evalop2rot, evalopDepth, evalopDrop, evalopDupOver, evalopNip,
        evalopPickRoll, evalopTuck, evalopSize, evalopEqual, evalopUnaryArith,
        evalopBinaryArith, evalopWithin, evalopHash, evalopChecksig, evalopCheckdatasig, snPush,
        bind_eq_error_iff, require_eq_error_iff, pure, Except.pure,
        verifyTailWhen_not_aborted]

-- Runs

theorem evalopExecute_not_aborted (c : EvalCtx) (state : EvalState) (opcode : UInt8) (data : Bytes)
    : evalopExecute c state opcode data ≠ .error .aborted := by
  unfold evalopExecute
  split
  · apply onStack_not_aborted
    simp [evalopPushData, bind_eq_error_iff, require_eq_error_iff]
  · split
    · unfold evalopDispatch
      split
      · simp
      · exact evalOp_run_not_aborted c state opcode _
    · simp

theorem evalopStep_not_aborted (c : EvalCtx) (state : EvalState)
    : evalopStep c state ≠ .error .aborted := by
  have fetches : fetchOp c.script state.pc ≠ .error .aborted := by
    unfold fetchOp
    split
    · simp
    · simp
  simp [evalopStep, bind_eq_error_iff, require_eq_error_iff, pure, Except.pure, fetches,
    evalopExecute_not_aborted]

theorem evalLoop_not_aborted (c : EvalCtx) (fuel : Nat) (state : EvalState)
    : evalLoop c fuel state ≠ .error .aborted := by
  induction fuel generalizing state with
  | zero => simp [evalLoop]
  | succ fuel ih =>
    simp only [evalLoop]
    split
    · simp
    · simp [bind_eq_error_iff, evalopStep_not_aborted, ih]

theorem evalScript_not_aborted (env : ScriptEnv) (flags : UInt32) (stack : Stack) (script : Bytes)
    : evalScript env flags stack script ≠ .error .aborted := by
  simp [evalScript, bind_eq_error_iff, require_eq_error_iff, pure, Except.pure,
    evalLoop_not_aborted]

theorem scriptStackTopIsTrue_not_aborted (stack : Stack)
    : scriptStackTopIsTrue stack ≠ .error .aborted := by
  simp [scriptStackTopIsTrue, bind_eq_error_iff, require_eq_error_iff]

theorem evalScript_p2sh_nil (env : ScriptEnv) (flags : UInt32) (script : Bytes)
    (p2sh : scriptIsP2sh script = true)
    : evalScript env flags [] script = .error .invalidStackOperation := by
  simp only [scriptIsP2sh, Bool.and_eq_true, beq_iff_eq] at p2sh
  obtain ⟨⟨⟨size, first⟩, -⟩, -⟩ := p2sh
  have fetched : fetchOp script 0 = .ok (opHash160, [], 1) := by
    have starts : ¬ script.length ≤ 0 := by omega
    have noPush : ¬ opHash160 ≤ opPushdata4 := by decide
    simp only [fetchOp, scriptGetOp, if_neg starts, first, if_neg noPush]
  have fits : script.length ≤ maxScriptSize := by
    rw [size]
    decide
  have stuck : evalopStep { env, script, flags } { stack := [] }
      = .error .invalidStackOperation := by
    simp only [evalopStep, fetched]
    rfl
  have loop : evalLoop { env, script, flags } script.length { stack := [] }
      = .error .invalidStackOperation := by
    rw [size]
    simp only [evalLoop, size, stuck]
    rfl
  simp only [evalScript, fits, loop]
  rfl

theorem runRedeem_not_aborted (env : ScriptEnv) (flags : UInt32) (scriptSig : Bytes)
    {stackCopy : Stack} (filled : stackCopy ≠ [])
    : runRedeem env flags scriptSig stackCopy ≠ .error .aborted := by
  have some : 0 < stackCopy.length := List.length_pos_iff.mpr filled
  simp [runRedeem, bind_eq_error_iff, require_eq_error_iff, pure, Except.pure, some,
    evalScript_not_aborted, scriptStackTopIsTrue_not_aborted]

theorem checkCleanstack_not_aborted {flags : UInt32}
    (bound : hasFlag flags verifyCleanstack = true → hasFlag flags verifyP2sh = true)
    (stack : Stack)
    : checkCleanstack flags stack ≠ .error .aborted := by
  unfold checkCleanstack
  split
  · next clean => simp [bind_eq_error_iff, require_eq_error_iff, bound clean]
  · simp

theorem verifyP2shRedeem_not_aborted (env : ScriptEnv) (flags : UInt32) (stack stackCopy : Stack)
    (scriptSig scriptPubKey : Bytes) (ran : evalScript env flags stackCopy scriptPubKey = .ok stack)
    : verifyP2shRedeem env flags stack stackCopy scriptSig scriptPubKey ≠ .error .aborted := by
  unfold verifyP2shRedeem
  split
  · next template =>
      apply runRedeem_not_aborted
      intro empty
      rw [empty, evalScript_p2sh_nil env flags scriptPubKey (Bool.and_eq_true_iff.mp template).2]
        at ran
      cases ran
  · simp

theorem verifyScript_not_aborted (env : ScriptEnv) (flags : UInt32) (scriptSig scriptPubKey : Bytes)
    (bound : hasFlag flags verifyCleanstack = true → hasFlag flags verifyP2sh = true)
    : verifyScript env flags scriptSig scriptPubKey ≠ .error .aborted := by
  simp only [verifyScript, verifyP2shRedeemAndCleanstack, ne_eq, bind_eq_error_iff,
    require_eq_error_iff, evalScript_not_aborted, scriptStackTopIsTrue_not_aborted,
    checkCleanstack_not_aborted bound, reduceCtorEq, and_false, exists_false, false_or, or_false,
    not_exists, not_and]
  intro _ _ stackCopy _ stack ran _ _
  exact verifyP2shRedeem_not_aborted env flags stack stackCopy scriptSig scriptPubKey ran

end Z23.Script
