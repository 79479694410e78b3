import Z23.Script.Interpreter

/-!
Fewer flags accept no less. Every rule that a flag turns on is a check that leaves the stacks
alone, so a run under more flags that does not fail is also the run under fewer.
-/

namespace Z23.Script

open Z23.Lib.Failing

/-- The lax flags drop rules of the strict ones, and do not make a rule that stays on again a
discouraged no-op. -/
structure Softens (lax strict : UInt32) : Prop where
  kept : ∀ flag, hasFlag lax flag = true → hasFlag strict flag = true
  nops :
    hasFlag lax verifyDiscourageUpgradableNops = true →
    hasFlag strict verifyChecklocktimeverify = true →
      hasFlag lax verifyChecklocktimeverify = true

theorem hasFlag_of_subset {lax strict flag : UInt32} (subset : lax &&& strict = lax)
    (on : hasFlag lax flag = true)
    : hasFlag strict flag = true := by
  simp only [hasFlag, bne_iff_ne, ne_eq] at on ⊢
  intro off
  apply on
  rw [← subset, UInt32.and_assoc, off, UInt32.and_zero]

theorem Softens.kept_or_dropped {lax strict : UInt32} (softens : Softens lax strict) (flag : UInt32)
    : hasFlag lax flag = hasFlag strict flag ∨ hasFlag lax flag = false := by
  cases on : hasFlag lax flag with
  | false => exact .inr rfl
  | true => exact .inl (softens.kept flag on).symm

theorem onStack_relaxes (state : EvalState) {strictNext laxNext : Eval Stack}
    (relaxes : Relaxes strictNext laxNext)
    : Relaxes (onStack state strictNext) (onStack state laxNext) :=
  Relaxes.bind relaxes fun _ => Relaxes.refl _

section Handlers

variable {lax strict : UInt32} (softens : Softens lax strict)
include softens

theorem gate_softens (flag : UInt32) (rule : Bool → Bool) (passes : rule false = true)
    (failure : ScriptError)
    : Relaxes (require (rule (hasFlag strict flag)) failure)
        (require (rule (hasFlag lax flag)) failure) := by
  rcases softens.kept_or_dropped flag with same | off
  · rw [same]
    exact Relaxes.refl _
  · rw [off]
    exact Relaxes.require (fun _ => passes) _ _

-- Numbers

theorem scriptNumFromBytes_softens (data : Bytes) (maxSize : Nat)
    : Relaxes (scriptNumFromBytes data (hasFlag strict verifyMinimaldata) maxSize)
        (scriptNumFromBytes data (hasFlag lax verifyMinimaldata) maxSize) := by
  refine Relaxes.bind (Relaxes.refl _) fun _ => Relaxes.bind ?_ fun _ => Relaxes.refl _
  exact gate_softens softens verifyMinimaldata (fun on => !(on && nonMinimal data)) rfl _

variable (env : ScriptEnv) (script : Bytes) (stack : Stack) (opcode : UInt8)

theorem snFromTop_softens (i maxSize : Nat)
    : Relaxes (snFromTop stack i (EvalCtx.mk env script strict).fRequireMinimal maxSize)
        (snFromTop stack i (EvalCtx.mk env script lax).fRequireMinimal maxSize) :=
  scriptNumFromBytes_softens softens _ maxSize

theorem evalopPickRoll_softens
    : Relaxes (evalopPickRoll { env, script, flags := strict } stack opcode)
        (evalopPickRoll { env, script, flags := lax } stack opcode) := by
  refine Relaxes.bind (Relaxes.refl _) fun _ => ?_
  exact Relaxes.bind (snFromTop_softens softens env script stack 1 _) fun _ => Relaxes.refl _

theorem evalopUnaryArith_softens
    : Relaxes (evalopUnaryArith { env, script, flags := strict } stack opcode)
        (evalopUnaryArith { env, script, flags := lax } stack opcode) := by
  refine Relaxes.bind (Relaxes.refl _) fun _ => ?_
  exact Relaxes.bind (snFromTop_softens softens env script stack 1 _) fun _ => Relaxes.refl _

theorem evalopBinaryArith_softens
    : Relaxes (evalopBinaryArith { env, script, flags := strict } stack opcode)
        (evalopBinaryArith { env, script, flags := lax } stack opcode) := by
  refine Relaxes.bind (Relaxes.refl _) fun _ => ?_
  refine Relaxes.bind (snFromTop_softens softens env script stack 2 _) fun _ => ?_
  exact Relaxes.bind (snFromTop_softens softens env script stack 1 _) fun _ => Relaxes.refl _

theorem evalopWithin_softens
    : Relaxes (evalopWithin { env, script, flags := strict } stack)
        (evalopWithin { env, script, flags := lax } stack) := by
  refine Relaxes.bind (Relaxes.refl _) fun _ => ?_
  refine Relaxes.bind (snFromTop_softens softens env script stack 3 _) fun _ => ?_
  refine Relaxes.bind (snFromTop_softens softens env script stack 2 _) fun _ => ?_
  exact Relaxes.bind (snFromTop_softens softens env script stack 1 _) fun _ => Relaxes.refl _

theorem evalopPushData_softens (data : Bytes)
    : Relaxes (evalopPushData { env, script, flags := strict } stack opcode data)
        (evalopPushData { env, script, flags := lax } stack opcode data) := by
  refine Relaxes.bind ?_ fun _ => Relaxes.refl _
  exact gate_softens softens verifyMinimaldata
    (fun on => !(on && !checkMinimalPush data opcode)) rfl _

-- Upgrades

theorem evalopUpgradableNop_softens
    : Relaxes (evalopUpgradableNop { env, script, flags := strict } stack)
        (evalopUpgradableNop { env, script, flags := lax } stack) := by
  refine Relaxes.bind ?_ fun _ => Relaxes.refl _
  exact gate_softens softens verifyDiscourageUpgradableNops (fun on => !on) rfl _

theorem evalopChecklocktimeverify_softens
    : Relaxes (evalopChecklocktimeverify { env, script, flags := strict } stack)
        (evalopChecklocktimeverify { env, script, flags := lax } stack) := by
  simp only [evalopChecklocktimeverify]
  cases laxChecks : hasFlag lax verifyChecklocktimeverify with
  | true =>
    rw [softens.kept _ laxChecks]
    refine Relaxes.bind (Relaxes.refl _) fun _ => ?_
    exact Relaxes.bind (snFromTop_softens softens env script stack 1 5) fun _ => Relaxes.refl _
  | false =>
    cases strictChecks : hasFlag strict verifyChecklocktimeverify with
    | true =>
      have allowed : hasFlag lax verifyDiscourageUpgradableNops = false := by
        cases discouraged : hasFlag lax verifyDiscourageUpgradableNops with
        | false => rfl
        | true => exact (softens.nops discouraged strictChecks).symm.trans laxChecks
      rw [allowed]
      refine Relaxes.skip fun _ => Relaxes.skip fun _ => ?_
      exact Relaxes.skip fun _ => Relaxes.skip fun _ => Relaxes.refl _
    | false => exact evalopUpgradableNop_softens softens env script stack

-- Signatures

theorem checkRawSignatureEncoding_softens (checkLowS : Bytes → Bool) (sig : Bytes)
    : Relaxes (checkRawSignatureEncoding checkLowS sig strict)
        (checkRawSignatureEncoding checkLowS sig lax) := by
  refine Relaxes.bind (Relaxes.refl _) fun _ => ?_
  exact gate_softens softens verifyLowS (fun on => !(on && !checkLowS sig)) rfl _

theorem checkDataSignatureEncoding_softens (checkLowS : Bytes → Bool) (sig : Bytes)
    : Relaxes (checkDataSignatureEncoding checkLowS sig strict)
        (checkDataSignatureEncoding checkLowS sig lax) := by
  unfold checkDataSignatureEncoding
  split
  · exact Relaxes.refl _
  · exact checkRawSignatureEncoding_softens softens checkLowS sig

theorem checkTransactionSignatureEncoding_softens (checkLowS : Bytes → Bool) (sig : Bytes)
    : Relaxes (checkTransactionSignatureEncoding checkLowS sig strict)
        (checkTransactionSignatureEncoding checkLowS sig lax) := by
  unfold checkTransactionSignatureEncoding
  split
  · exact Relaxes.refl _
  · refine Relaxes.bind (checkRawSignatureEncoding_softens softens checkLowS _) fun _ => ?_
    exact gate_softens softens verifyStrictenc
      (fun on => !(on && !sighashIsDefined (sig.getD (sig.length - 1) 0))) rfl _

theorem checkPubkeyEncoding_softens (pubkey : Bytes)
    : Relaxes (checkPubkeyEncoding pubkey strict) (checkPubkeyEncoding pubkey lax) :=
  gate_softens softens verifyStrictenc (fun on => !(on && !isStrictPubkey pubkey)) rfl _

theorem checkEncodings_softens (sig pubkey : Bytes)
    : Relaxes (checkEncodings { env, script, flags := strict } sig pubkey)
        (checkEncodings { env, script, flags := lax } sig pubkey) :=
  Relaxes.bind (checkTransactionSignatureEncoding_softens softens env.checkLowS sig)
    fun _ => checkPubkeyEncoding_softens softens pubkey

theorem checkNullFail_softens (fSuccess : Bool) (sig : Bytes)
    : Relaxes (checkNullFail { env, script, flags := strict } fSuccess sig)
        (checkNullFail { env, script, flags := lax } fSuccess sig) :=
  gate_softens softens verifyNullfail (fun on => !(!fSuccess && on && sig.length > 0))
    (by simp) _

theorem evalopChecksig_softens
    : Relaxes (evalopChecksig { env, script, flags := strict } stack opcode)
        (evalopChecksig { env, script, flags := lax } stack opcode) := by
  refine Relaxes.bind (Relaxes.refl _) fun _ => ?_
  refine Relaxes.bind (checkEncodings_softens softens env script _ _) fun _ => ?_
  exact Relaxes.bind (checkNullFail_softens softens env script _ _) fun _ => Relaxes.refl _

theorem evalopCheckdatasig_softens
    : Relaxes (evalopCheckdatasig { env, script, flags := strict } stack opcode)
        (evalopCheckdatasig { env, script, flags := lax } stack opcode) := by
  refine Relaxes.bind (Relaxes.refl _) fun _ => ?_
  refine Relaxes.bind (checkDataSignatureEncoding_softens softens env.checkLowS _) fun _ => ?_
  refine Relaxes.bind (checkPubkeyEncoding_softens softens _) fun _ => ?_
  exact Relaxes.bind (checkNullFail_softens softens env script _ _) fun _ => Relaxes.refl _

theorem evalopMultisigLayout_softens (nOpCount : Nat)
    : Relaxes (evalopMultisigLayout { env, script, flags := strict } stack nOpCount)
        (evalopMultisigLayout { env, script, flags := lax } stack nOpCount) := by
  refine Relaxes.bind (Relaxes.refl _) fun _ => ?_
  refine Relaxes.bind (snFromTop_softens softens env script stack 1 _) fun _ => ?_
  refine Relaxes.bind (Relaxes.refl _) fun _ => ?_
  refine Relaxes.bind (Relaxes.refl _) fun _ => ?_
  refine Relaxes.bind (Relaxes.refl _) fun _ => ?_
  exact Relaxes.bind (snFromTop_softens softens env script stack _ _) fun _ => Relaxes.refl _

theorem evalopMultisigMatch_softens (nKeysCount isig ikey nSigsCount : Nat)
    : Relaxes
        (evalopMultisigMatch { env, script, flags := strict } stack nKeysCount isig ikey nSigsCount)
        (evalopMultisigMatch { env, script, flags := lax } stack nKeysCount isig ikey
          nSigsCount) := by
  induction nKeysCount generalizing isig ikey nSigsCount with
  | zero => exact Relaxes.refl _
  | succ nKeysCount ih =>
    simp only [evalopMultisigMatch]
    split
    · exact Relaxes.refl _
    · refine Relaxes.bind (checkEncodings_softens softens env script _ _) fun _ => ?_
      have sameCheck : signatureVerifies { env, script, flags := strict }
          = signatureVerifies { env, script, flags := lax } := rfl
      rw [sameCheck]
      exact Relaxes.ite (Relaxes.refl _) (ih _ _ _)

theorem multisigPops_softens (fSuccess : Bool) (pops ikey2 : Nat) (stack : Stack)
    : Relaxes (multisigPops { env, script, flags := strict } fSuccess pops ikey2 stack)
        (multisigPops { env, script, flags := lax } fSuccess pops ikey2 stack) := by
  induction pops generalizing ikey2 stack with
  | zero => exact Relaxes.refl _
  | succ pops ih =>
    refine Relaxes.bind ?_ fun _ => ih _ _
    exact gate_softens softens verifyNullfail
      (fun on => !(!fSuccess && on && ikey2 == 0 && (stackTop stack 1).length > 0)) (by simp) _

theorem evalopMultisigCleanup_softens (m : MultisigLayout) (fSuccess : Bool)
    : Relaxes (evalopMultisigCleanup { env, script, flags := strict } stack m fSuccess)
        (evalopMultisigCleanup { env, script, flags := lax } stack m fSuccess) := by
  refine Relaxes.bind (multisigPops_softens softens env script fSuccess _ _ stack) fun left => ?_
  refine Relaxes.bind (Relaxes.refl _) fun _ => Relaxes.bind ?_ fun _ => Relaxes.refl _
  exact gate_softens softens verifyNulldummy
    (fun on => !(on && (stackTop left 1).length > 0)) rfl _

theorem evalopCheckmultisig_softens (nOpCount : Nat)
    : Relaxes (evalopCheckmultisig { env, script, flags := strict } stack nOpCount opcode)
        (evalopCheckmultisig { env, script, flags := lax } stack nOpCount opcode) := by
  refine Relaxes.bind (evalopMultisigLayout_softens softens env script stack nOpCount) fun m => ?_
  refine Relaxes.bind (evalopMultisigMatch_softens softens env script stack _ _ _ _) fun _ => ?_
  exact Relaxes.bind (evalopMultisigCleanup_softens softens env script stack m _)
    fun _ => Relaxes.refl _

-- Steps

variable (state : EvalState)

theorem evalOp_run_softens (op : EvalOp)
    : Relaxes (op.run { env, script, flags := strict } state opcode)
        (op.run { env, script, flags := lax } state opcode) := by
  cases op with
  | checklocktimeverify =>
    exact onStack_relaxes state (evalopChecklocktimeverify_softens softens env script _)
  | upgradableNop => exact onStack_relaxes state (evalopUpgradableNop_softens softens env script _)
  | pickRoll => exact onStack_relaxes state (evalopPickRoll_softens softens env script _ opcode)
  | unaryArith => exact onStack_relaxes state (evalopUnaryArith_softens softens env script _ opcode)
  | binaryArith =>
    exact onStack_relaxes state (evalopBinaryArith_softens softens env script _ opcode)
  | within => exact onStack_relaxes state (evalopWithin_softens softens env script _)
  | checksig => exact onStack_relaxes state (evalopChecksig_softens softens env script _ opcode)
  | checkdatasig =>
    exact onStack_relaxes state (evalopCheckdatasig_softens softens env script _ opcode)
  | checkmultisig =>
    exact Relaxes.bind (evalopCheckmultisig_softens softens env script _ opcode _)
      fun _ => Relaxes.refl _
  | _ => exact Relaxes.refl _

theorem evalopExecute_softens (data : Bytes)
    : Relaxes (evalopExecute { env, script, flags := strict } state opcode data)
        (evalopExecute { env, script, flags := lax } state opcode data) := by
  unfold evalopExecute
  split
  · exact onStack_relaxes state (evalopPushData_softens softens env script _ opcode data)
  · split
    · unfold evalopDispatch
      split
      · exact Relaxes.refl _
      · exact evalOp_run_softens softens env script opcode state _
    · exact Relaxes.refl _

theorem evalopStep_softens
    : Relaxes (evalopStep { env, script, flags := strict } state)
        (evalopStep { env, script, flags := lax } state) := by
  refine Relaxes.bind (Relaxes.refl _) fun fetched => ?_
  refine Relaxes.bind (Relaxes.refl _) fun _ => ?_
  refine Relaxes.bind (Relaxes.refl _) fun _ => ?_
  refine Relaxes.bind (Relaxes.refl _) fun _ => ?_
  exact Relaxes.bind (evalopExecute_softens softens env script _ _ _) fun _ => Relaxes.refl _

-- Runs

theorem evalLoop_softens (fuel : Nat)
    : Relaxes (evalLoop { env, script, flags := strict } fuel state)
        (evalLoop { env, script, flags := lax } fuel state) := by
  induction fuel generalizing state with
  | zero => exact Relaxes.refl _
  | succ fuel ih =>
    simp only [evalLoop]
    split
    · exact Relaxes.refl _
    · exact Relaxes.bind (evalopStep_softens softens env script state) fun next => ih next

theorem evalScript_softens
    : Relaxes (evalScript env strict stack script) (evalScript env lax stack script) := by
  refine Relaxes.bind (Relaxes.refl _) fun _ => ?_
  exact Relaxes.bind (evalLoop_softens softens env script _ _) fun _ => Relaxes.refl _

theorem runRedeem_softens (scriptSig : Bytes) (stackCopy : Stack)
    : Relaxes (runRedeem env strict scriptSig stackCopy)
        (runRedeem env lax scriptSig stackCopy) := by
  refine Relaxes.bind (Relaxes.refl _) fun _ => ?_
  refine Relaxes.bind (Relaxes.refl _) fun _ => ?_
  exact Relaxes.bind (evalScript_softens softens env _ _) fun _ => Relaxes.refl _

section

variable (bound : hasFlag lax verifyCleanstack = true → hasFlag lax verifyP2sh = true)
include bound

theorem checkCleanstack_softens (stack : Stack)
    : Relaxes (checkCleanstack strict stack) (checkCleanstack lax stack) := by
  simp only [checkCleanstack]
  cases clean : hasFlag lax verifyCleanstack with
  | false => exact fun _ _ => rfl
  | true =>
    rw [softens.kept _ clean, bound clean, softens.kept _ (bound clean)]
    exact Relaxes.refl _

theorem verifyP2shRedeemAndCleanstack_softens (stackCopy : Stack) (scriptSig scriptPubKey : Bytes)
    : Relaxes
        (verifyP2shRedeemAndCleanstack env strict stack stackCopy scriptSig scriptPubKey)
        (verifyP2shRedeemAndCleanstack env lax stack stackCopy scriptSig scriptPubKey) := by
  simp only [verifyP2shRedeemAndCleanstack]
  cases laxP2sh : hasFlag lax verifyP2sh with
  | true =>
    refine Relaxes.bind ?_ fun last => checkCleanstack_softens softens bound last
    simp only [verifyP2shRedeem, laxP2sh, softens.kept _ laxP2sh]
    split
    · exact runRedeem_softens softens env scriptSig stackCopy
    · exact Relaxes.refl _
  | false =>
    have dirty : hasFlag lax verifyCleanstack = false := by
      cases clean : hasFlag lax verifyCleanstack with
      | false => rfl
      | true => exact (bound clean).symm.trans laxP2sh
    simp only [verifyP2shRedeem, laxP2sh, checkCleanstack, dirty]
    exact Relaxes.skip fun _ => fun _ _ => rfl

theorem verifyScript_relaxes (scriptSig scriptPubKey : Bytes)
    : Relaxes (verifyScript env strict scriptSig scriptPubKey)
        (verifyScript env lax scriptSig scriptPubKey) := by
  refine Relaxes.bind ?_ fun _ => ?_
  · exact gate_softens softens verifySigpushonly
      (fun on => !(on && !scriptIsPushOnly scriptSig)) rfl _
  · refine Relaxes.bind (evalScript_softens softens env _ _) fun stackCopy => ?_
    refine Relaxes.bind (evalScript_softens softens env _ _) fun stack => ?_
    refine Relaxes.bind (Relaxes.refl _) fun _ => ?_
    exact verifyP2shRedeemAndCleanstack_softens softens env stack bound stackCopy scriptSig
      scriptPubKey

end

end Handlers

/-- Acceptance under more flags is acceptance under fewer, unless fewer flags discourage the no-op
that a lock time check becomes without its flag. -/
theorem verifyScript_softFork (env : ScriptEnv) (scriptSig scriptPubKey : Bytes)
    (lax strict : UInt32) (subset : lax &&& strict = lax)
    (laxBound : hasFlag lax verifyCleanstack = true → hasFlag lax verifyP2sh = true)
    (_strictBound : hasFlag strict verifyCleanstack = true → hasFlag strict verifyP2sh = true)
    (nops : ¬ (hasFlag lax verifyDiscourageUpgradableNops = true ∧
      hasFlag strict verifyChecklocktimeverify = true ∧
      hasFlag lax verifyChecklocktimeverify = false))
    (accepted : verifyScript env strict scriptSig scriptPubKey = .ok ())
    : verifyScript env lax scriptSig scriptPubKey = .ok () := by
  have softens : Softens lax strict := {
    kept := fun _ on => hasFlag_of_subset subset on
    nops := by
      intro discouraged checks
      cases laxChecks : hasFlag lax verifyChecklocktimeverify with
      | true => rfl
      | false => exact absurd ⟨discouraged, checks, laxChecks⟩ nops }
  exact verifyScript_relaxes softens env laxBound scriptSig scriptPubKey () accepted

/-- Every flag against `P2SH` alone, on a lock time of one. -/
theorem verifyScript_softFork_lockTime
    : verifyScript quietEnv 2043 [0x51] [0xb1] = .ok ()
      ∧ verifyScript quietEnv verifyP2sh [0x51] [0xb1] = .ok () :=
  ⟨rfl, verifyScript_softFork quietEnv [0x51] [0xb1] verifyP2sh 2043 (by decide) (by decide)
    (by decide) (by decide) rfl⟩

end Z23.Script
