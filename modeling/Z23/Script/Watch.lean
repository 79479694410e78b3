import Z23.Lib.Watching
import Z23.Script.Interpreter

/-!
The interpreter watched while it runs: every place of a stack that a handler looks at, every item
it stores, every call of a signature hook, and the state after each opcode. Forgetting what was
seen gives back the interpreter.
-/

namespace Z23.Script

open Z23.Lib.Failing
open Z23.Lib.Watching
open Z23.Lib.Watching.Watched

inductive Event where
  /-- The item at a depth of a stack of some height, the top being at depth 1. -/
  | access (depth height : Nat)
  /-- An item of a size goes onto a stack. -/
  | store (size : Nat)
  /-- A call of `check_sig` or `verify_signature`. -/
  | sigCheck
  /-- The state that an opcode leaves. -/
  | ran (state : EvalState)

namespace Watch

abbrev Run := Watched Event ScriptError

def stackTop (stack : Stack) (i : Nat) : Run Bytes where
  seen := [.access i stack.length]
  result := .ok (Script.stackTop stack i)

/-- `n` times `stack_pop`. -/
def stackPop (stack : Stack) (n : Nat) : Run Stack where
  seen := [.access n stack.length]
  result := .ok (stack.drop n)

/-- `stack_erase_at` of the item at depth `i`. -/
def stackErase (stack : Stack) (i : Nat) : Run Stack where
  seen := [.access i stack.length]
  result := .ok (stack.eraseIdx (i - 1))

/-- `stack_erase_range` of the items from depth `i` up to above depth `j`. -/
def stackEraseRange (stack : Stack) (i j : Nat) : Run Stack where
  seen := [.access i stack.length]
  result := .ok (stack.take j ++ stack.drop i)

def stackPush (stack : Stack) (item : Bytes) : Run Stack where
  seen := seenAfter (fun _ => see (.store item.length)) (Script.stackPush stack item)
  result := Script.stackPush stack item

def needItems (stack : Stack) (n : Nat) : Run Unit := quietly (Script.needItems stack n)

def check (passes : Bool) (code : ScriptError) : Run Unit := quietly (require passes code)

def snFromTop (stack : Stack) (i : Nat) (minimal : Bool) (maxSize : Nat) : Run Int := do
  let item ← stackTop stack i
  quietly (scriptNumFromBytes item minimal maxSize)

def snPush (stack : Stack) (value : Int) : Run Stack :=
  stackPush stack (scriptNumSerialize value)

def evalopPushBool (stack : Stack) (fSuccess : Bool) : Run Stack :=
  stackPush stack (if fSuccess then [1] else [])

def evalopVerifyTail (stack : Stack) (fSuccess : Bool) (code : ScriptError) : Run Stack := do
  check fSuccess code
  stackPop stack 1

def verifyTailWhen (isVerify : Bool) (stack : Stack) (fSuccess : Bool) (code : ScriptError)
    : Run Stack :=
  if isVerify then evalopVerifyTail stack fSuccess code else pure stack

-- Handlers that only move items

def evalopPushSmallInt (stack : Stack) (opcode : UInt8) : Run Stack :=
  snPush stack ((opcode.toNat : Int) - (op1.toNat - 1))

def evalopVerify (stack : Stack) : Run Stack := do
  needItems stack 1
  let top ← stackTop stack 1
  check (castToBool top) .verify
  stackPop stack 1

def evalop2drop (stack : Stack) : Run Stack := do
  needItems stack 2
  stackPop stack 2

def evalopDupOverPair (stack : Stack) (opcode : UInt8) : Run Stack := do
  let depth := if opcode = op2dup then 2 else 4
  needItems stack depth
  let v1 ← stackTop stack depth
  let v2 ← stackTop stack (depth - 1)
  let pushed ← stackPush stack v1
  stackPush pushed v2

def evalop3dup (stack : Stack) : Run Stack := do
  needItems stack 3
  let v1 ← stackTop stack 3
  let v2 ← stackTop stack 2
  let v3 ← stackTop stack 1
  let one ← stackPush stack v1
  let two ← stackPush one v2
  stackPush two v3

def evalop2rot (stack : Stack) : Run Stack := do
  needItems stack 6
  let v1 ← stackTop stack 6
  let v2 ← stackTop stack 5
  let erased ← stackEraseRange stack 6 4
  let one ← stackPush erased v1
  stackPush one v2

/-- A swap of two places writes to both. -/
def swapPlaces (stack : Stack) (i j : Nat) : Run Unit where
  seen := [.access i stack.length, .access j stack.length]
  result := .ok ()

def evalop2swap (stack : Stack) : Run Stack := do
  needItems stack 4
  swapPlaces stack 4 2
  swapPlaces stack 3 1
  quietly (Script.evalop2swap stack)

def evalopIfdup (stack : Stack) : Run Stack := do
  needItems stack 1
  let top ← stackTop stack 1
  if castToBool top then do
    let v ← stackTop stack 1
    stackPush stack v
  else pure stack

def evalopDepth (stack : Stack) : Run Stack := snPush stack stack.length

def evalopDrop (stack : Stack) : Run Stack := do
  needItems stack 1
  stackPop stack 1

def evalopDupOver (stack : Stack) (opcode : UInt8) : Run Stack := do
  let depth := if opcode = opDup then 1 else 2
  needItems stack depth
  let v ← stackTop stack depth
  stackPush stack v

def evalopNip (stack : Stack) : Run Stack := do
  needItems stack 2
  stackErase stack 2

def evalopRot (stack : Stack) : Run Stack := do
  needItems stack 3
  swapPlaces stack 3 2
  swapPlaces stack 2 1
  quietly (Script.evalopRot stack)

def evalopSwap (stack : Stack) : Run Stack := do
  needItems stack 2
  swapPlaces stack 2 1
  quietly (Script.evalopSwap stack)

/-- `stack_insert_at` two places below the top moves the items above. -/
def evalopTuck (stack : Stack) : Run Stack := do
  needItems stack 2
  let v ← stackTop stack 1
  check (stack.length < maxStackItems) .stackSize
  let _ ← stackTop stack 2
  see (.store v.length)
  pure (stack.take 2 ++ v :: stack.drop 2)

def evalopSize (stack : Stack) : Run Stack := do
  needItems stack 1
  let top ← stackTop stack 1
  snPush stack top.length

def evalopEqual (stack : Stack) (opcode : UInt8) : Run Stack := do
  needItems stack 2
  let v1 ← stackTop stack 2
  let v2 ← stackTop stack 1
  let popped ← stackPop stack 2
  let pushed ← evalopPushBool popped (v1 == v2)
  verifyTailWhen (opcode == opEqualverify) pushed (v1 == v2) .equalverify

def evalopHash (env : ScriptEnv) (stack : Stack) (opcode : UInt8) : Run Stack := do
  needItems stack 1
  let top ← stackTop stack 1
  let popped ← stackPop stack 1
  stackPush popped (evalopHashDigest env opcode top)

-- Handlers of numbers

/-- `OP_ROLL` takes the item from its place, `OP_PICK` leaves it there. -/
def rollErase (stack : Stack) (opcode : UInt8) (i : Nat) : Run Stack :=
  if opcode = opRoll then stackErase stack i else pure stack

def evalopPickRoll (c : EvalCtx) (stack : Stack) (opcode : UInt8) : Run Stack := do
  needItems stack 2
  let bn ← snFromTop stack 1 c.fRequireMinimal scriptNumDefaultMaxSize
  let n := scriptNumGetInt bn
  let popped ← stackPop stack 1
  check (0 ≤ n && n < popped.length) .invalidStackOperation
  let v ← stackTop popped (n.toNat + 1)
  let rest ← rollErase popped opcode (n.toNat + 1)
  stackPush rest v

def evalopUnaryArith (c : EvalCtx) (stack : Stack) (opcode : UInt8) : Run Stack := do
  needItems stack 1
  let bn ← snFromTop stack 1 c.fRequireMinimal scriptNumDefaultMaxSize
  let popped ← stackPop stack 1
  snPush popped (unaryArithValue opcode bn)

def evalopBinaryArith (c : EvalCtx) (stack : Stack) (opcode : UInt8) : Run Stack := do
  needItems stack 2
  let bn1 ← snFromTop stack 2 c.fRequireMinimal scriptNumDefaultMaxSize
  let bn2 ← snFromTop stack 1 c.fRequireMinimal scriptNumDefaultMaxSize
  let popped ← stackPop stack 2
  let pushed ← snPush popped (binaryArithValue opcode bn1 bn2)
  if opcode == opNumequalverify then do
    let top ← stackTop pushed 1
    evalopVerifyTail pushed (castToBool top) .numequalverify
  else pure pushed

def evalopWithin (c : EvalCtx) (stack : Stack) : Run Stack := do
  needItems stack 3
  let bn1 ← snFromTop stack 3 c.fRequireMinimal scriptNumDefaultMaxSize
  let bn2 ← snFromTop stack 2 c.fRequireMinimal scriptNumDefaultMaxSize
  let bn3 ← snFromTop stack 1 c.fRequireMinimal scriptNumDefaultMaxSize
  let popped ← stackPop stack 3
  evalopPushBool popped (bn2 ≤ bn1 && bn1 < bn3)

-- Handlers of upgrades

def evalopChecklocktimeverify (c : EvalCtx) (stack : Stack) : Run Stack :=
  if hasFlag c.flags verifyChecklocktimeverify then do
    needItems stack 1
    let nLockTime ← snFromTop stack 1 c.fRequireMinimal 5
    check (0 ≤ nLockTime) .negativeLocktime
    check (lockTimePasses c.env nLockTime) .unsatisfiedLocktime
    return stack
  else do
    check (!hasFlag c.flags verifyDiscourageUpgradableNops) .discourageUpgradableNops
    return stack

def evalopUpgradableNop (c : EvalCtx) (stack : Stack) : Run Stack := do
  check (!hasFlag c.flags verifyDiscourageUpgradableNops) .discourageUpgradableNops
  return stack

-- Handlers of signatures

/-- An absent hook is not called. -/
def signatureVerifies (c : EvalCtx) (sig pubkey : Bytes) : Run Bool where
  seen :=
    match c.env.checker with
    | some { checkSig := some _, .. } => [.sigCheck]
    | _ => []
  result := .ok (Script.signatureVerifies c sig pubkey)

def evalopChecksig (c : EvalCtx) (stack : Stack) (opcode : UInt8) : Run Stack := do
  needItems stack 2
  let sig ← stackTop stack 2
  let pubkey ← stackTop stack 1
  quietly (checkEncodings c sig pubkey)
  let fSuccess ← signatureVerifies c sig pubkey
  quietly (checkNullFail c fSuccess sig)
  let popped ← stackPop stack 2
  let pushed ← evalopPushBool popped fSuccess
  verifyTailWhen (opcode == opChecksigverify) pushed fSuccess .checksigverify

/-- An empty signature is not checked. -/
def evalopCheckdatasigVerify (env : ScriptEnv) (sig msg pubkey : Bytes) : Run Bool where
  seen :=
    match env.checker with
    | some { verifySignature := some _, .. } => if sig.length > 0 then [.sigCheck] else []
    | _ => []
  result := .ok (Script.evalopCheckdatasigVerify env sig msg pubkey)

def evalopCheckdatasig (c : EvalCtx) (stack : Stack) (opcode : UInt8) : Run Stack := do
  needItems stack 3
  let sig ← stackTop stack 3
  let msg ← stackTop stack 2
  let pubkey ← stackTop stack 1
  quietly (checkDataSignatureEncoding c.env.checkLowS sig c.flags)
  quietly (checkPubkeyEncoding pubkey c.flags)
  let fSuccess ← evalopCheckdatasigVerify c.env sig msg pubkey
  quietly (checkNullFail c fSuccess sig)
  let popped ← stackPop stack 3
  let pushed ← evalopPushBool popped fSuccess
  verifyTailWhen (opcode == opCheckdatasigverify) pushed fSuccess .checkdatasigverify

def evalopMultisigLayout (c : EvalCtx) (stack : Stack) (nOpCount : Nat) : Run MultisigLayout := do
  needItems stack 1
  let bnKeys ← snFromTop stack 1 c.fRequireMinimal scriptNumDefaultMaxSize
  let nKeys := scriptNumGetInt bnKeys
  check (0 ≤ nKeys && nKeys ≤ 20) .pubkeyCount
  let nKeysCount := nKeys.toNat
  check (nOpCount + nKeysCount ≤ 201) .opCount
  needItems stack (2 + nKeysCount)
  let bnSigs ← snFromTop stack (2 + nKeysCount) c.fRequireMinimal scriptNumDefaultMaxSize
  let nSigs := scriptNumGetInt bnSigs
  check (0 ≤ nSigs && nSigs ≤ nKeys) .sigCount
  let nSigsCount := nSigs.toNat
  needItems stack (3 + nKeysCount + nSigsCount)
  return {
    i := 3 + nKeysCount + nSigsCount, ikey := 2, ikey2 := nKeysCount + 2
    isig := 3 + nKeysCount, nKeysCount, nSigsCount, nOpCount := nOpCount + nKeysCount }

def evalopMultisigMatch (c : EvalCtx) (stack : Stack) : Nat → Nat → Nat → Nat → Run Bool
  | 0, _, _, nSigsCount => pure (nSigsCount == 0)
  | nKeysCount + 1, isig, ikey, nSigsCount =>
    if nSigsCount = 0 then pure true
    else do
      let sig ← stackTop stack isig
      let pubkey ← stackTop stack ikey
      quietly (checkEncodings c sig pubkey)
      let fOk ← signatureVerifies c sig pubkey
      let isig := if fOk then isig + 1 else isig
      let nSigsCount := if fOk then nSigsCount - 1 else nSigsCount
      if nSigsCount > nKeysCount then pure false
      else evalopMultisigMatch c stack nKeysCount isig (ikey + 1) nSigsCount

def multisigPops (c : EvalCtx) (fSuccess : Bool) : Nat → Nat → Stack → Run Stack
  | 0, _, stack => pure stack
  | pops + 1, ikey2, stack => do
    let top ← stackTop stack 1
    check (!(!fSuccess && hasFlag c.flags verifyNullfail && ikey2 == 0 && top.length > 0))
      .sigNullfail
    let popped ← stackPop stack 1
    multisigPops c fSuccess pops (ikey2 - 1) popped

def evalopMultisigCleanup (c : EvalCtx) (stack : Stack) (m : MultisigLayout) (fSuccess : Bool)
    : Run Stack := do
  let left ← multisigPops c fSuccess (m.i - 1) m.ikey2 stack
  needItems left 1
  let dummy ← stackTop left 1
  check (!(hasFlag c.flags verifyNulldummy && dummy.length > 0)) .sigNulldummy
  stackPop left 1

def evalopCheckmultisig (c : EvalCtx) (stack : Stack) (nOpCount : Nat) (opcode : UInt8)
    : Run (Stack × Nat) := do
  let m ← evalopMultisigLayout c stack nOpCount
  let fSuccess ← evalopMultisigMatch c stack m.nKeysCount m.isig m.ikey m.nSigsCount
  let left ← evalopMultisigCleanup c stack m fSuccess
  let pushed ← evalopPushBool left fSuccess
  let tail ←
    verifyTailWhen (opcode == opCheckmultisigverify) pushed fSuccess .checkmultisigverify
  return (tail, m.nOpCount)

-- Handlers of branches and of the second stack

/-- The stack is looked at in an executed branch only. -/
def evalopIfNotif (state : EvalState) (opcode : UInt8) : Run EvalState := do
  check (!state.fExec || 1 ≤ state.stack.length) .unbalancedConditional
  if state.fExec then do
    let top ← stackTop state.stack 1
    let stack ← stackPop state.stack 1
    check (state.vfExec.length < maxStackItems) .stackSize
    let fValue := if opcode = opNotif then !castToBool top else castToBool top
    return { state with stack, vfExec := fValue :: state.vfExec }
  else do
    check (state.vfExec.length < maxStackItems) .stackSize
    return { state with vfExec := false :: state.vfExec }

def evalopToaltstack (state : EvalState) : Run EvalState := do
  needItems state.stack 1
  let top ← stackTop state.stack 1
  let altstack ← stackPush state.altstack top
  let stack ← stackPop state.stack 1
  return { state with altstack, stack }

def evalopFromaltstack (state : EvalState) : Run EvalState := do
  check (1 ≤ state.altstack.length) .invalidAltstackOperation
  let top ← stackTop state.altstack 1
  let stack ← stackPush state.stack top
  let altstack ← stackPop state.altstack 1
  return { state with stack, altstack }

-- Steps

def onStack (state : EvalState) (next : Run Stack) : Run EvalState := do
  let stack ← next
  return { state with stack }

def run (c : EvalCtx) (state : EvalState) (opcode : UInt8) : EvalOp → Run EvalState
  | .pushSmallInt => onStack state (evalopPushSmallInt state.stack opcode)
  | .nop => pure state
  | .checklocktimeverify => onStack state (evalopChecklocktimeverify c state.stack)
  | .upgradableNop => onStack state (evalopUpgradableNop c state.stack)
  | .ifNotif => evalopIfNotif state opcode
  | .else => quietly (evalopElse state)
  | .endif => quietly (evalopEndif state)
  | .verify => onStack state (evalopVerify state.stack)
  | .return => quietly (.error .opReturn)
  | .toaltstack => evalopToaltstack state
  | .fromaltstack => evalopFromaltstack state
  | .drop2 => onStack state (evalop2drop state.stack)
  | .dupOverPair => onStack state (evalopDupOverPair state.stack opcode)
  | .dup3 => onStack state (evalop3dup state.stack)
  | .rot2 => onStack state (evalop2rot state.stack)
  | .swap2 => onStack state (evalop2swap state.stack)
  | .ifdup => onStack state (evalopIfdup state.stack)
  | .depth => onStack state (evalopDepth state.stack)
  | .drop => onStack state (evalopDrop state.stack)
  | .dupOver => onStack state (evalopDupOver state.stack opcode)
  | .nip => onStack state (evalopNip state.stack)
  | .pickRoll => onStack state (evalopPickRoll c state.stack opcode)
  | .rot => onStack state (evalopRot state.stack)
  | .swap => onStack state (evalopSwap state.stack)
  | .tuck => onStack state (evalopTuck state.stack)
  | .size => onStack state (evalopSize state.stack)
  | .equal => onStack state (evalopEqual state.stack opcode)
  | .unaryArith => onStack state (evalopUnaryArith c state.stack opcode)
  | .binaryArith => onStack state (evalopBinaryArith c state.stack opcode)
  | .within => onStack state (evalopWithin c state.stack)
  | .hash => onStack state (evalopHash c.env state.stack opcode)
  | .checksig => onStack state (evalopChecksig c state.stack opcode)
  | .checkdatasig => onStack state (evalopCheckdatasig c state.stack opcode)
  | .checkmultisig => do
    let result ← evalopCheckmultisig c state.stack state.nOpCount opcode
    return { state with stack := result.1, nOpCount := result.2 }

def evalopDispatch (c : EvalCtx) (state : EvalState) (opcode : UInt8) : Run EvalState :=
  match evalOpOf opcode with
  | none => quietly (.error .badOpcode)
  | some op => run c state opcode op

def evalopPushData (c : EvalCtx) (stack : Stack) (opcode : UInt8) (data : Bytes) : Run Stack := do
  check (!(c.fRequireMinimal && !checkMinimalPush data opcode)) .minimaldata
  stackPush stack data

def evalopExecute (c : EvalCtx) (state : EvalState) (opcode : UInt8) (data : Bytes)
    : Run EvalState :=
  if state.fExec && opcode ≤ opPushdata4 then
    onStack state (evalopPushData c state.stack opcode data)
  else if state.fExec || (opIf ≤ opcode && opcode ≤ opEndif) then
    evalopDispatch c state opcode
  else pure state

def evalopStep (c : EvalCtx) (state : EvalState) : Run EvalState := do
  let (opcode, data, pc) ← quietly (fetchOp c.script state.pc)
  check (data.length ≤ maxScriptElementSize) .pushSize
  let nOpCount := if op16 < opcode then state.nOpCount + 1 else state.nOpCount
  check (!(op16 < opcode) || nOpCount ≤ 201) .opCount
  check (!evalopIsDisabled opcode) .disabledOpcode
  let fetched := { state with fExec := evalopBranchExecuting state, pc, nOpCount }
  let next ← evalopExecute c fetched opcode data
  check (next.stack.length + next.altstack.length ≤ 1000) .stackSize
  see (.ran next)
  return next

def evalLoop (c : EvalCtx) : Nat → EvalState → Run EvalState
  | 0, state => pure state
  | fuel + 1, state =>
    if c.script.length ≤ state.pc then pure state
    else do
      let next ← evalopStep c state
      evalLoop c fuel next

def evalScript (env : ScriptEnv) (flags : UInt32) (stack : Stack) (script : Bytes)
    : Run Stack := do
  check (script.length ≤ maxScriptSize) .scriptSize
  let final ← evalLoop { env, script, flags } script.length { stack }
  check final.vfExec.isEmpty .unbalancedConditional
  return final.stack

-- Forgetting

theorem result_evalopMultisigMatch (c : EvalCtx) (stack : Stack)
    (nKeysCount isig ikey nSigsCount : Nat)
    : (evalopMultisigMatch c stack nKeysCount isig ikey nSigsCount).result
      = Script.evalopMultisigMatch c stack nKeysCount isig ikey nSigsCount := by
  induction nKeysCount generalizing isig ikey nSigsCount with
  | zero => rfl
  | succ nKeysCount ih =>
    have rest : ∀ isig nSigsCount,
        (if nSigsCount > nKeysCount then pure false
          else evalopMultisigMatch c stack nKeysCount isig (ikey + 1) nSigsCount).result
        = if nSigsCount > nKeysCount then pure false
          else Script.evalopMultisigMatch c stack nKeysCount isig (ikey + 1) nSigsCount := by
      intro isig nSigsCount
      split
      · rfl
      · exact ih isig (ikey + 1) nSigsCount
    simp only [evalopMultisigMatch, Script.evalopMultisigMatch]
    split
    · rfl
    · exact congrArg _ (funext fun _ => rest _ _)

theorem result_multisigPops (c : EvalCtx) (fSuccess : Bool) (pops ikey2 : Nat) (stack : Stack)
    : (multisigPops c fSuccess pops ikey2 stack).result
      = Script.multisigPops c fSuccess pops ikey2 stack := by
  induction pops generalizing ikey2 stack with
  | zero => rfl
  | succ pops ih => exact congrArg _ (funext fun _ => ih (ikey2 - 1) (stack.drop 1))

theorem result_verifyTailWhen (isVerify : Bool) (stack : Stack) (fSuccess : Bool)
    (code : ScriptError)
    : (verifyTailWhen isVerify stack fSuccess code).result
      = Script.verifyTailWhen isVerify stack fSuccess code := by
  simp only [verifyTailWhen, result_ite]
  rfl

theorem result_evalopCheckmultisig (c : EvalCtx) (stack : Stack) (nOpCount : Nat) (opcode : UInt8)
    : (evalopCheckmultisig c stack nOpCount opcode).result
      = Script.evalopCheckmultisig c stack nOpCount opcode := by
  simp only [evalopCheckmultisig, evalopMultisigCleanup, result_bind, result_evalopMultisigMatch,
    result_multisigPops, result_verifyTailWhen]
  rfl

theorem result_evalopPickRoll (c : EvalCtx) (stack : Stack) (opcode : UInt8)
    : (evalopPickRoll c stack opcode).result = Script.evalopPickRoll c stack opcode := by
  simp only [evalopPickRoll, rollErase, Script.evalopPickRoll]
  by_cases roll : opcode = opRoll
  · simp only [if_pos roll]
    rfl
  · simp only [if_neg roll]
    rfl

theorem result_evalopBinaryArith (c : EvalCtx) (stack : Stack) (opcode : UInt8)
    : (evalopBinaryArith c stack opcode).result = Script.evalopBinaryArith c stack opcode := by
  simp only [evalopBinaryArith, result_bind, result_ite]
  rfl

theorem result_evalopIfNotif (state : EvalState) (opcode : UInt8)
    : (evalopIfNotif state opcode).result = Script.evalopIfNotif state opcode := by
  simp only [evalopIfNotif, result_bind, result_ite]
  simp only [Script.evalopIfNotif]
  cases state.fExec with
  | false => rfl
  | true => rfl

theorem result_onStack (state : EvalState) {watched : Run Stack} {plain : Eval Stack}
    (same : watched.result = plain)
    : (onStack state watched).result = Script.onStack state plain := by
  rw [← same]
  rfl

theorem result_run (c : EvalCtx) (state : EvalState) (opcode : UInt8) (op : EvalOp)
    : (run c state opcode op).result = op.run c state opcode := by
  cases op with
  | checklocktimeverify =>
    apply result_onStack
    simp only [evalopChecklocktimeverify, result_ite]
    rfl
  | swap2 =>
    apply result_onStack
    match state.stack with
    | [] | [_] | [_, _] | [_, _, _] => rfl
    | _ :: _ :: _ :: _ :: _ => rfl
  | ifdup =>
    apply result_onStack
    simp only [evalopIfdup, result_bind, result_ite]
    rfl
  | rot =>
    apply result_onStack
    match state.stack with
    | [] | [_] | [_, _] => rfl
    | _ :: _ :: _ :: _ => rfl
  | swap =>
    apply result_onStack
    match state.stack with
    | [] | [_] => rfl
    | _ :: _ :: _ => rfl
  | equal =>
    apply result_onStack
    simp only [evalopEqual, result_bind, result_verifyTailWhen]
    rfl
  | checksig =>
    apply result_onStack
    simp only [evalopChecksig, result_bind, result_verifyTailWhen]
    rfl
  | checkdatasig =>
    apply result_onStack
    simp only [evalopCheckdatasig, result_bind, result_verifyTailWhen]
    rfl
  | ifNotif => exact result_evalopIfNotif state opcode
  | pickRoll => exact result_onStack state (result_evalopPickRoll c state.stack opcode)
  | binaryArith => exact result_onStack state (result_evalopBinaryArith c state.stack opcode)
  | checkmultisig =>
    simp only [run, result_bind, result_evalopCheckmultisig]
    rfl
  | _ => rfl

theorem result_evalopExecute (c : EvalCtx) (state : EvalState) (opcode : UInt8) (data : Bytes)
    : (evalopExecute c state opcode data).result
      = Script.evalopExecute c state opcode data := by
  have dispatch : (evalopDispatch c state opcode).result
      = Script.evalopDispatch c state opcode := by
    unfold evalopDispatch Script.evalopDispatch
    cases evalOpOf opcode with
    | none => rfl
    | some op => exact result_run c state opcode op
  simp only [evalopExecute, result_ite, dispatch]
  rfl

theorem result_evalopStep (c : EvalCtx) (state : EvalState)
    : (evalopStep c state).result = Script.evalopStep c state := by
  simp only [evalopStep, result_bind, result_evalopExecute]
  rfl

theorem result_evalLoop (c : EvalCtx) (fuel : Nat) (state : EvalState)
    : (evalLoop c fuel state).result = Script.evalLoop c fuel state := by
  induction fuel generalizing state with
  | zero => rfl
  | succ fuel ih =>
    simp only [evalLoop, result_ite, result_bind, result_evalopStep, ih]
    rfl

theorem result_evalScript (env : ScriptEnv) (flags : UInt32) (stack : Stack) (script : Bytes)
    : (evalScript env flags stack script).result = Script.evalScript env flags stack script := by
  simp only [evalScript, result_bind, result_evalLoop]
  rfl

end Watch

end Z23.Script
