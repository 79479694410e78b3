import Z23.Primitives
import Z23.Script.SigOps

/-!
The signature operations of a redeem script. The counter scans the pushes of the input for the last
one; a verification runs the input and takes the top of the stack. Both have the same count: a push
leaves its data on the stack, and the number that a small number opcode leaves has no signature
operation in it.
-/

namespace Z23.Script

open Z23.Lib.Failing

-- The counter

/-- The loop of `script_get_sig_op_count_p2sh`: the data of the last operation, none where one is no
push or does not decode; `fuel` is at least what is left. -/
def lastPushFrom (script : Bytes) : Nat → Nat → Bytes → Option Bytes
  | 0, _, lastPush => some lastPush
  | fuel + 1, pc, lastPush =>
    if script.length ≤ pc then some lastPush
    else
      match scriptGetOp script pc with
      | none => none
      | some (opcode, data, next) =>
        if op16 < opcode then none
        else if data.length > maxScriptElementSize then none
        else lastPushFrom script fuel next data

def scriptGetSigOpCountP2sh (scriptPubKey scriptSig : Bytes) (flags : UInt32) : Nat :=
  if !hasFlag flags verifyP2sh || !scriptIsP2sh scriptPubKey then
    scriptGetSigOpCount scriptPubKey flags true
  else
    match lastPushFrom scriptSig scriptSig.length 0 [] with
    | none => 0
    | some lastPush => scriptGetSigOpCount (scriptSet lastPush) flags true

/-- The error of the counter of a transaction that is reachable with a transaction. -/
inductive SigopsError where
  | nullPrevouts
deriving DecidableEq, Repr

/-- What one input adds; an input without its spent output adds nothing. -/
def p2shSigOpsOf (flags : UInt32) (input : TxIn) : Option TxOut → Nat
  | none => 0
  | some prevout =>
    if scriptIsP2sh prevout.scriptPubKey then
      scriptGetSigOpCountP2sh prevout.scriptPubKey input.scriptSig flags
    else 0

/-- Models `domain_consensus_tx_p2sh_sig_op_count`; the sum is a 64-bit word. -/
def domainConsensusTxP2shSigOpCount (tx : Transaction) (prevouts : Option (List (Option TxOut)))
    (flags : UInt32) : Except SigopsError Nat :=
  if !hasFlag flags verifyP2sh then .ok 0
  else if transactionIsCoinbase tx then .ok 0
  else
    match prevouts with
    | none => if 0 < tx.vin.length then .error .nullPrevouts else .ok 0
    | some prevouts => .ok ((tx.vin.zipWith (p2shSigOpsOf flags) prevouts).sum % 2 ^ 64)

-- The redeem script that a verification evaluates

/-- A verification up to the evaluation of a redeem script: the stack that the script starts with
and its bytes, where there is one to evaluate. -/
def redeemToEvaluate (env : ScriptEnv) (flags : UInt32) (scriptSig scriptPubKey : Bytes)
    : Eval (Option (Stack × Bytes)) := do
  require (!(hasFlag flags verifySigpushonly && !scriptIsPushOnly scriptSig)) .sigPushonly
  let stackCopy ← evalScript env flags [] scriptSig
  let stack ← evalScript env flags stackCopy scriptPubKey
  scriptStackTopIsTrue stack
  if hasFlag flags verifyP2sh && scriptIsP2sh scriptPubKey then do
    require (scriptIsPushOnly scriptSig) .sigPushonly
    require (0 < stackCopy.length) .aborted
    return some (stackCopy.drop 1, scriptSet (stackTop stackCopy 1))
  else return none

/-- What reaching the redeem script says about the scripts. -/
structure ReachesRedeem (env : ScriptEnv) (flags : UInt32) (scriptSig scriptPubKey : Bytes)
    (stack : Stack) (redeem : Bytes) : Prop where
  p2sh : hasFlag flags verifyP2sh = true ∧ scriptIsP2sh scriptPubKey = true
  pushOnly : scriptIsPushOnly scriptSig = true
  ran : ∃ stackCopy, evalScript env flags [] scriptSig = .ok stackCopy
    ∧ stack = stackCopy.drop 1 ∧ redeem = scriptSet (stackTop stackCopy 1)

theorem bind_eq_ok {α β : Type} {run : Eval α} {next : α → Eval β} {result : β}
    (ran : (run >>= next) = .ok result) : ∃ value, run = .ok value ∧ next value = .ok result := by
  cases run with
  | error failure => cases ran
  | ok value => exact ⟨value, rfl, ran⟩

theorem require_eq_ok {passes : Bool} {failure : ScriptError} {value : Unit}
    (ran : require passes failure = .ok value) : passes = true := by
  cases passes with
  | false => cases ran
  | true => rfl

variable {scriptPubKey scriptSig : Bytes}

theorem redeemToEvaluate_reaches {env : ScriptEnv} {flags : UInt32} {redeem : Bytes} {stack : Stack}
    (evaluates : redeemToEvaluate env flags scriptSig scriptPubKey = .ok (some (stack, redeem)))
    : ReachesRedeem env flags scriptSig scriptPubKey stack redeem := by
  obtain ⟨-, -, evaluates⟩ := bind_eq_ok evaluates
  obtain ⟨stackCopy, ran, evaluates⟩ := bind_eq_ok evaluates
  obtain ⟨after, -, evaluates⟩ := bind_eq_ok evaluates
  obtain ⟨-, -, evaluates⟩ := bind_eq_ok evaluates
  split at evaluates
  · rename_i p2sh
    obtain ⟨_, pushOnly, evaluates⟩ := bind_eq_ok evaluates
    obtain ⟨-, -, evaluates⟩ := bind_eq_ok evaluates
    cases evaluates
    exact {
      p2sh := Bool.and_eq_true _ _ ▸ p2sh
      pushOnly := require_eq_ok pushOnly
      ran := ⟨stackCopy, ran, rfl, rfl⟩ }
  · cases evaluates

theorem verifyScript_redeem {env : ScriptEnv} {flags : UInt32} {stack : Stack} {redeem : Bytes}
    (evaluates : redeemToEvaluate env flags scriptSig scriptPubKey = .ok (some (stack, redeem)))
    : verifyScript env flags scriptSig scriptPubKey
        = evalScript env flags stack redeem >>= fun left =>
            scriptStackTopIsTrue left >>= fun _ => checkCleanstack flags left := by
  obtain ⟨_, allowed, evaluates⟩ := bind_eq_ok evaluates
  obtain ⟨stackCopy, ran, evaluates⟩ := bind_eq_ok evaluates
  obtain ⟨after, ranAfter, evaluates⟩ := bind_eq_ok evaluates
  obtain ⟨_, isTrue, evaluates⟩ := bind_eq_ok evaluates
  split at evaluates
  · rename_i p2sh
    obtain ⟨_, pushOnly, evaluates⟩ := bind_eq_ok evaluates
    obtain ⟨_, nonempty, evaluates⟩ := bind_eq_ok evaluates
    cases evaluates
    refine (bind_ok allowed _).trans ?_
    refine (bind_ok ran _).trans ?_
    refine (bind_ok ranAfter _).trans ?_
    refine (bind_ok isTrue _).trans ?_
    rw [verifyP2shRedeemAndCleanstack, verifyP2shRedeem, if_pos p2sh, runRedeem,
      bind_ok pushOnly, bind_ok nonempty]
    cases evalScript env flags (stackCopy.drop 1) (scriptSet (stackTop stackCopy 1)) with
    | error failure => rfl
    | ok left =>
      change ((scriptStackTopIsTrue left >>= fun _ => pure left) >>= checkCleanstack flags)
        = (scriptStackTopIsTrue left >>= fun _ => checkCleanstack flags left)
      cases scriptStackTopIsTrue left with
      | error failure => rfl
      | ok value => rfl
  · cases evaluates

-- Pushes on the stack

/-- Two scripts with the same accurate count under all flags. -/
def SameCount (a b : Bytes) : Prop :=
  ∀ flags, scriptGetSigOpCount (scriptSet a) flags true
    = scriptGetSigOpCount (scriptSet b) flags true

variable {opcode : UInt8}

/-- The number of a small number opcode, `OP_1NEGATE` among them, has no signature operation. -/
theorem sameCount_smallInt (found : evalOpOf opcode = some .pushSmallInt)
    : SameCount [] (scriptNumSerialize ((opcode.toNat : Int) - (op1.toNat - 1))) := by
  obtain ⟨row, member, same, listed⟩ := evalOpOf_row found
  have rows : ∀ row ∈ scriptEvalOpTable, row.2 = .pushSmallInt →
      row.1 = [0x4f, 0x51, 0x52, 0x53, 0x54, 0x55, 0x56, 0x57, 0x58, 0x59, 0x5a, 0x5b, 0x5c, 0x5d,
        0x5e, 0x5f, 0x60] := by decide
  rw [rows row member same] at listed
  intro flags
  simp only [List.mem_cons, List.not_mem_nil, or_false] at listed
  rcases listed with rfl | rfl | rfl | rfl | rfl | rfl | rfl | rfl | rfl | rfl | rfl | rfl | rfl
    | rfl | rfl | rfl | rfl
  all_goals rfl

/-- The opcodes up to `OP_16` that push no data are numbers or not known. -/
theorem evalOpOf_numbers (above : ¬ opcode ≤ opPushdata4) (below : ¬ op16 < opcode)
    : evalOpOf opcode = none ∨ evalOpOf opcode = some .pushSmallInt := by
  have values : opPushdata4.toNat = 78 ∧ op16.toNat = 96 := by decide
  rw [UInt8.le_iff_toNat_le] at above
  rw [UInt8.lt_iff_toNat_lt] at below
  have within : ∃ n : Fin 18, opcode = UInt8.ofNat (79 + n) := by
    refine ⟨⟨opcode.toNat - 79, by omega⟩, ?_⟩
    rw [← UInt8.toNat_inj, UInt8.toNat_ofNat']
    dsimp only
    omega
  obtain ⟨n, rfl⟩ := within
  clear above below
  revert n
  decide

theorem scriptGetOp_noData {script data : Bytes} {pc next : Nat}
    (found : scriptGetOp script pc = some (opcode, data, next)) (noPush : ¬ opcode ≤ opPushdata4)
    : data = [] := by
  simp only [scriptGetOp] at found
  split at found
  · cases found
  · split at found
    · rename_i push
      split at found
      · cases found
      · split at found
        · cases found
        · split at found
          · cases found
          · cases found
            exact absurd push noPush
    · cases found
      rfl

theorem evalopStep_push {c : EvalCtx} {state next : EvalState} {data : Bytes} {pc : Nat}
    (found : scriptGetOp c.script state.pc = some (opcode, data, pc)) (push : ¬ op16 < opcode)
    (noBranch : state.vfExec = []) (ran : evalopStep c state = .ok next)
    : data.length ≤ maxScriptElementSize ∧ next.vfExec = [] ∧ next.pc = pc
      ∧ SameCount data (stackTop next.stack 1) := by
  have fetched : fetchOp c.script state.pc = .ok (opcode, data, pc) := by
    rw [fetchOp, found]
  have executing : evalopBranchExecuting state = true := by
    rw [evalopBranchExecuting, noBranch]
    rfl
  rw [evalopStep, bind_ok fetched] at ran
  obtain ⟨_, short, ran⟩ := bind_eq_ok ran
  obtain ⟨_, _, ran⟩ := bind_eq_ok ran
  obtain ⟨_, _, ran⟩ := bind_eq_ok ran
  obtain ⟨after, executed, ran⟩ := bind_eq_ok ran
  obtain ⟨_, _, ran⟩ := bind_eq_ok ran
  cases ran
  refine ⟨of_decide_eq_true (require_eq_ok short), ?_⟩
  rw [evalopExecute] at executed
  simp only [executing, Bool.true_and, Bool.true_or, if_true] at executed
  split at executed
  · obtain ⟨stack, pushed, executed⟩ := bind_eq_ok executed
    obtain ⟨_, _, pushed⟩ := bind_eq_ok pushed
    obtain ⟨_, _, pushed⟩ := bind_eq_ok pushed
    cases pushed
    cases executed
    exact ⟨noBranch, rfl, fun _ => rfl⟩
  · rename_i noPush
    have noPush : ¬ opcode ≤ opPushdata4 := fun below => noPush (decide_eq_true below)
    rw [evalopDispatch] at executed
    rcases evalOpOf_numbers noPush push with unknown | number
    · rw [unknown] at executed
      cases executed
    · rw [number] at executed
      obtain ⟨stack, pushed, executed⟩ := bind_eq_ok executed
      obtain ⟨_, _, pushed⟩ := bind_eq_ok pushed
      cases pushed
      cases executed
      rw [scriptGetOp_noData found noPush]
      exact ⟨noBranch, rfl, sameCount_smallInt number⟩

theorem evalLoop_lastPush {c : EvalCtx} (fuel : Nat) {state final : EvalState} {lastPush : Bytes}
    (pushes : decodesToPushesFrom c.script fuel state.pc = true) (noBranch : state.vfExec = [])
    (same : SameCount lastPush (stackTop state.stack 1)) (ran : evalLoop c fuel state = .ok final)
    : ∃ redeem, lastPushFrom c.script fuel state.pc lastPush = some redeem
        ∧ SameCount redeem (stackTop final.stack 1) := by
  induction fuel generalizing state lastPush with
  | zero =>
    cases ran
    exact ⟨lastPush, rfl, same⟩
  | succ fuel ih =>
    simp only [evalLoop] at ran
    simp only [lastPushFrom]
    simp only [decodesToPushesFrom] at pushes
    split at ran
    · rename_i ended
      cases ran
      rw [if_pos ended]
      exact ⟨lastPush, rfl, same⟩
    · rename_i inside
      rw [if_neg inside] at pushes ⊢
      obtain ⟨next, stepped, ran⟩ := bind_eq_ok ran
      obtain ⟨opcode, data, found⟩ := evalopStep_fetches c state next stepped
      rw [scriptSkipOp_of_scriptGetOp found] at pushes
      dsimp only at pushes
      rw [Bool.and_eq_true] at pushes
      have push : ¬ op16 < opcode := UInt8.not_lt.mpr (of_decide_eq_true pushes.1)
      obtain ⟨short, noBranch, -, counted⟩ := evalopStep_push found push noBranch stepped
      rw [found]
      dsimp only
      rw [if_neg push, if_neg (Nat.not_lt.mpr short)]
      exact ih pushes.2 noBranch counted ran

-- The count is that of the script that runs

theorem scriptGetSigOpCountP2sh_eq {env : ScriptEnv} {flags : UInt32} {redeem : Bytes}
    {stack : Stack}
    (evaluates : redeemToEvaluate env flags scriptSig scriptPubKey = .ok (some (stack, redeem)))
    (countFlags : UInt32) (counting : hasFlag countFlags verifyP2sh = true)
    : scriptGetSigOpCountP2sh scriptPubKey scriptSig countFlags
        = scriptGetSigOpCount redeem countFlags true := by
  obtain ⟨p2sh, pushOnly, stackCopy, ran, -, rfl⟩ := redeemToEvaluate_reaches evaluates
  have decodes := evalScript_decodes env flags [] scriptSig stackCopy ran
  have pushes : decodesToPushesFrom scriptSig scriptSig.length 0 = true := by
    rw [← pushOnlyFrom_eq_decodesToPushesFrom scriptSig.length decodes]
    exact pushOnly
  obtain ⟨_, _, ran⟩ := bind_eq_ok ran
  obtain ⟨final, looped, ran⟩ := bind_eq_ok ran
  obtain ⟨_, _, ran⟩ := bind_eq_ok ran
  cases ran
  have start : SameCount [] (stackTop [] 1) := fun _ => rfl
  obtain ⟨lastPush, scanned, same⟩ := evalLoop_lastPush scriptSig.length pushes rfl start looped
  rw [scriptGetSigOpCountP2sh, counting, p2sh.2]
  have shown : lastPushFrom scriptSig scriptSig.length 0 [] = some lastPush := scanned
  rw [shown]
  exact same countFlags

/-- The count of a transaction whose inputs all reach their redeem scripts is the count of these. -/
theorem domainConsensusTxP2shSigOpCount_redeems {tx : Transaction} {prevouts : List (Option TxOut)}
    {flags : UInt32} (counting : hasFlag flags verifyP2sh = true)
    (spends : transactionIsCoinbase tx = false) (redeemOf : TxIn → TxOut → Bytes)
    (evaluated : ∀ input prevout, (input, some prevout) ∈ tx.vin.zip prevouts →
      scriptIsP2sh prevout.scriptPubKey = true →
      ∃ env stack, redeemToEvaluate env flags input.scriptSig prevout.scriptPubKey
        = .ok (some (stack, redeemOf input prevout)))
    : domainConsensusTxP2shSigOpCount tx (some prevouts) flags
        = .ok ((tx.vin.zipWith (fun input spent => spent.elim 0 fun prevout =>
            if scriptIsP2sh prevout.scriptPubKey then
              scriptGetSigOpCount (redeemOf input prevout) flags true
            else 0) prevouts).sum % 2 ^ 64) := by
  rw [domainConsensusTxP2shSigOpCount, counting, spends, ← List.map_uncurry_zip_eq_zipWith,
    ← List.map_uncurry_zip_eq_zipWith]
  simp only [Bool.not_true, Bool.false_eq_true, if_false]
  congr 3
  refine List.map_congr_left ?_
  rintro ⟨input, spent⟩ member
  cases spent with
  | none => rfl
  | some prevout =>
    simp only [Function.uncurry, p2shSigOpsOf, Option.elim]
    split
    · rename_i p2sh
      obtain ⟨env, stack, evaluates⟩ := evaluated input prevout member p2sh
      exact scriptGetSigOpCountP2sh_eq evaluates flags counting
    · rfl

/-- A verification that goes on to evaluate a redeem script evaluates the bytes that the counter
counts. -/
theorem verifyScript_redeem_counted {env : ScriptEnv} {flags : UInt32}
    {scriptSig scriptPubKey redeem : Bytes} {stack : Stack}
    (evaluates : redeemToEvaluate env flags scriptSig scriptPubKey = .ok (some (stack, redeem)))
    (countFlags : UInt32) (counting : hasFlag countFlags verifyP2sh = true)
    : verifyScript env flags scriptSig scriptPubKey
        = (evalScript env flags stack redeem >>= fun left =>
            scriptStackTopIsTrue left >>= fun _ => checkCleanstack flags left)
      ∧ scriptGetSigOpCountP2sh scriptPubKey scriptSig countFlags
        = scriptGetSigOpCount redeem countFlags true :=
  ⟨verifyScript_redeem evaluates, scriptGetSigOpCountP2sh_eq evaluates countFlags counting⟩

/-- An input that pushes the script `OP_CHECKSIG OP_CHECKSIG OP_1`. -/
def checksigInput : Bytes := [0x51, 0x03, 0xac, 0xac, 0x51]

def checksigOutput : Bytes := [0xa9, 0x14] ++ List.replicate 20 0 ++ [0x87]

/-- Every script has the hash of zeros. -/
def zeroHashEnv : ScriptEnv := { quietEnv with hash160 := fun _ => List.replicate 20 0 }

theorem verifyScript_redeem_counted_checksig
    : redeemToEvaluate zeroHashEnv verifyP2sh checksigInput checksigOutput
        = .ok (some ([[1]], [0xac, 0xac, 0x51]))
      ∧ scriptGetSigOpCountP2sh checksigOutput checksigInput verifyP2sh = 2 := by
  have evaluates : redeemToEvaluate zeroHashEnv verifyP2sh checksigInput checksigOutput
      = .ok (some ([[1]], [0xac, 0xac, 0x51])) := by decide +kernel
  refine ⟨evaluates, ?_⟩
  rw [(verifyScript_redeem_counted evaluates verifyP2sh (by decide)).2]
  decide

/-- Two inputs that redeem the same script, and one whose output is not known. -/
def checksigSpend : Transaction :=
  { vin := [{ prevout := ⟨.fill 1, 0⟩, scriptSig := checksigInput },
      { prevout := ⟨.fill 1, 1⟩, scriptSig := checksigInput }, { prevout := ⟨.fill 2, 0⟩ }]
    vout := [], hash := .fill 3 }

theorem domainConsensusTxP2shSigOpCount_redeems_two
    : domainConsensusTxP2shSigOpCount checksigSpend
        (some [some ⟨1, checksigOutput⟩, some ⟨1, checksigOutput⟩, none]) verifyP2sh = .ok 4 := by
  have evaluates : redeemToEvaluate zeroHashEnv verifyP2sh checksigInput checksigOutput
      = .ok (some ([[1]], [0xac, 0xac, 0x51])) := by decide +kernel
  rw [domainConsensusTxP2shSigOpCount_redeems (by decide) (by decide)
    (fun _ _ => [0xac, 0xac, 0x51])]
  · decide
  · intro input prevout member _
    have both : input.scriptSig = checksigInput ∧ prevout.scriptPubKey = checksigOutput := by
      simp only [checksigSpend, List.zip_cons_cons, List.zip_nil_left, List.mem_cons,
        Prod.mk.injEq, Option.some.injEq, reduceCtorEq, and_false, List.not_mem_nil, or_false]
        at member
      rcases member with ⟨rfl, rfl⟩ | ⟨rfl, rfl⟩
      · exact ⟨rfl, rfl⟩
      · exact ⟨rfl, rfl⟩
    rw [both.1, both.2]
    exact ⟨zeroHashEnv, _, evaluates⟩

end Z23.Script
