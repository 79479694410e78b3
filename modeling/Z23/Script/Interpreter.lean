import Z23.Script.Script

/-!
The script interpreter: the stacks, a handler for every opcode, the loop over one script, and the
verification of an input against an output.
-/

namespace Z23.Script

open Z23.Lib.Failing

-- State

/-- The items of a stack, the top first. -/
abbrev Stack := List Bytes

/-- The hooks of `struct sig_checker`; each may be absent. -/
structure SigChecker where
  /-- Signature, public key, the script that runs, and the branch of consensus. -/
  checkSig : Option (Bytes → Bytes → Bytes → UInt32 → Bool)
  checkLockTime : Option (Int → Bool)
  /-- Signature, public key and the digest that is signed. -/
  verifySignature : Option (Bytes → Bytes → Bytes → Bool)

/-- What a verification is given besides the scripts and the flags. -/
structure ScriptEnv where
  ripemd160 : Bytes → Bytes
  sha1 : Bytes → Bytes
  sha256 : Bytes → Bytes
  hash160 : Bytes → Bytes
  hash256 : Bytes → Bytes
  checkLowS : Bytes → Bool
  checker : Option SigChecker
  consensusBranchId : UInt32

/-- The fixed part of `struct script_eval_ctx`. -/
structure EvalCtx where
  env : ScriptEnv
  script : Bytes
  flags : UInt32

def EvalCtx.fRequireMinimal (c : EvalCtx) : Bool := hasFlag c.flags verifyMinimaldata

/-- The part of `struct script_eval_ctx` that a step changes; the innermost branch comes first. -/
structure EvalState where
  stack : Stack
  altstack : Stack := []
  fExec : Bool := false
  nOpCount : Nat := 0
  pc : Nat := 0
  vfExec : List Bool := []
deriving DecidableEq

abbrev Eval := Except ScriptError

-- Stack operations

def stackPush (stack : Stack) (item : Bytes) : Eval Stack := do
  require (stack.length < maxStackItems && item.length ≤ maxScriptElementSize) .stackSize
  return item :: stack

/-- The item at depth `i`, the top being at depth 1. -/
def stackTop (stack : Stack) (i : Nat) : Bytes := stack.getD (i - 1) []

/-- `stack->count < n` is an error. -/
def needItems (stack : Stack) (n : Nat) : Eval Unit :=
  require (n ≤ stack.length) .invalidStackOperation

/-- A number at depth `i`. -/
def snFromTop (stack : Stack) (i : Nat) (minimal : Bool) (maxSize : Nat) : Eval Int :=
  scriptNumFromBytes (stackTop stack i) minimal maxSize

def scriptNumDefaultMaxSize : Nat := 4

def snPush (stack : Stack) (value : Int) : Eval Stack :=
  stackPush stack (scriptNumSerialize value)

def evalopPushBool (stack : Stack) (fSuccess : Bool) : Eval Stack :=
  stackPush stack (if fSuccess then [1] else [])

def evalopVerifyTail (stack : Stack) (fSuccess : Bool) (code : ScriptError) : Eval Stack := do
  require fSuccess code
  return stack.drop 1

/-- The tail that a `VERIFY` opcode has and its plain sibling has not. -/
def verifyTailWhen (isVerify : Bool) (stack : Stack) (fSuccess : Bool) (code : ScriptError)
    : Eval Stack :=
  if isVerify then evalopVerifyTail stack fSuccess code else .ok stack

-- Handlers that only move items

def evalopPushSmallInt (stack : Stack) (opcode : UInt8) : Eval Stack :=
  snPush stack ((opcode.toNat : Int) - (op1.toNat - 1))

def evalopVerify (stack : Stack) : Eval Stack := do
  needItems stack 1
  require (castToBool (stackTop stack 1)) .verify
  return stack.drop 1

def evalop2drop (stack : Stack) : Eval Stack := do
  needItems stack 2
  return stack.drop 2

def evalopDupOverPair (stack : Stack) (opcode : UInt8) : Eval Stack := do
  let depth := if opcode = op2dup then 2 else 4
  needItems stack depth
  let pushed ← stackPush stack (stackTop stack depth)
  stackPush pushed (stackTop stack (depth - 1))

def evalop3dup (stack : Stack) : Eval Stack := do
  needItems stack 3
  let one ← stackPush stack (stackTop stack 3)
  let two ← stackPush one (stackTop stack 2)
  stackPush two (stackTop stack 1)

def evalop2rot (stack : Stack) : Eval Stack := do
  needItems stack 6
  let one ← stackPush (stack.take 4 ++ stack.drop 6) (stackTop stack 6)
  stackPush one (stackTop stack 5)

def evalop2swap : Stack → Eval Stack
  | x1 :: x2 :: x3 :: x4 :: rest => .ok (x3 :: x4 :: x1 :: x2 :: rest)
  | _ => .error .invalidStackOperation

def evalopIfdup (stack : Stack) : Eval Stack := do
  needItems stack 1
  if castToBool (stackTop stack 1) then stackPush stack (stackTop stack 1) else return stack

def evalopDepth (stack : Stack) : Eval Stack := snPush stack stack.length

def evalopDrop (stack : Stack) : Eval Stack := do
  needItems stack 1
  return stack.drop 1

def evalopDupOver (stack : Stack) (opcode : UInt8) : Eval Stack := do
  let depth := if opcode = opDup then 1 else 2
  needItems stack depth
  stackPush stack (stackTop stack depth)

def evalopNip (stack : Stack) : Eval Stack := do
  needItems stack 2
  return stack.eraseIdx 1

def evalopRot : Stack → Eval Stack
  | x1 :: x2 :: x3 :: rest => .ok (x3 :: x1 :: x2 :: rest)
  | _ => .error .invalidStackOperation

def evalopSwap : Stack → Eval Stack
  | x1 :: x2 :: rest => .ok (x2 :: x1 :: rest)
  | _ => .error .invalidStackOperation

def evalopTuck (stack : Stack) : Eval Stack := do
  needItems stack 2
  require (stack.length < maxStackItems) .stackSize
  return stack.take 2 ++ stackTop stack 1 :: stack.drop 2

def evalopSize (stack : Stack) : Eval Stack := do
  needItems stack 1
  snPush stack (stackTop stack 1).length

def evalopEqual (stack : Stack) (opcode : UInt8) : Eval Stack := do
  needItems stack 2
  let fEqual := stackTop stack 2 == stackTop stack 1
  let pushed ← evalopPushBool (stack.drop 2) fEqual
  verifyTailWhen (opcode == opEqualverify) pushed fEqual .equalverify

def evalopHashDigest (env : ScriptEnv) (opcode : UInt8) (top : Bytes) : Bytes :=
  if opcode = opRipemd160 then env.ripemd160 top
  else if opcode = opSha1 then env.sha1 top
  else if opcode = opSha256 then env.sha256 top
  else if opcode = opHash160 then env.hash160 top
  else env.hash256 top

def evalopHash (env : ScriptEnv) (stack : Stack) (opcode : UInt8) : Eval Stack := do
  needItems stack 1
  stackPush (stack.drop 1) (evalopHashDigest env opcode (stackTop stack 1))

-- Handlers of numbers

def boolValue (holds : Bool) : Int := if holds then 1 else 0

def evalopPickRoll (c : EvalCtx) (stack : Stack) (opcode : UInt8) : Eval Stack := do
  needItems stack 2
  let bn ← snFromTop stack 1 c.fRequireMinimal scriptNumDefaultMaxSize
  let n := scriptNumGetInt bn
  let popped := stack.drop 1
  require (0 ≤ n && n < popped.length) .invalidStackOperation
  let rest := if opcode = opRoll then popped.eraseIdx n.toNat else popped
  stackPush rest (stackTop popped (n.toNat + 1))

def unaryArithValue (opcode : UInt8) (a : Int) : Int :=
  if opcode = op1add then a + 1
  else if opcode = op1sub then a - 1
  else if opcode = opNegate then -a
  else if opcode = opAbs then if a < 0 then -a else a
  else if opcode = opNot then boolValue (a == 0)
  else if opcode = op0notequal then boolValue (a != 0)
  else a

def evalopUnaryArith (c : EvalCtx) (stack : Stack) (opcode : UInt8) : Eval Stack := do
  needItems stack 1
  let bn ← snFromTop stack 1 c.fRequireMinimal scriptNumDefaultMaxSize
  snPush (stack.drop 1) (unaryArithValue opcode bn)

def binaryCompareValue (opcode : UInt8) (a b : Int) : Int :=
  if opcode = opNumequal ∨ opcode = opNumequalverify then boolValue (a == b)
  else if opcode = opNumnotequal then boolValue (a != b)
  else if opcode = opLessthan then boolValue (a < b)
  else if opcode = opGreaterthan then boolValue (a > b)
  else if opcode = opLessthanorequal then boolValue (a ≤ b)
  else if opcode = opGreaterthanorequal then boolValue (a ≥ b)
  else 0

def binaryArithValue (opcode : UInt8) (a b : Int) : Int :=
  if opcode = opAdd then a + b
  else if opcode = opSub then a - b
  else if opcode = opBooland then boolValue (a != 0 && b != 0)
  else if opcode = opBoolor then boolValue (a != 0 || b != 0)
  else if opcode = opMin then if a < b then a else b
  else if opcode = opMax then if a > b then a else b
  else binaryCompareValue opcode a b

def evalopBinaryArith (c : EvalCtx) (stack : Stack) (opcode : UInt8) : Eval Stack := do
  needItems stack 2
  let bn1 ← snFromTop stack 2 c.fRequireMinimal scriptNumDefaultMaxSize
  let bn2 ← snFromTop stack 1 c.fRequireMinimal scriptNumDefaultMaxSize
  let pushed ← snPush (stack.drop 2) (binaryArithValue opcode bn1 bn2)
  verifyTailWhen (opcode == opNumequalverify) pushed (castToBool (stackTop pushed 1))
    .numequalverify

def evalopWithin (c : EvalCtx) (stack : Stack) : Eval Stack := do
  needItems stack 3
  let bn1 ← snFromTop stack 3 c.fRequireMinimal scriptNumDefaultMaxSize
  let bn2 ← snFromTop stack 2 c.fRequireMinimal scriptNumDefaultMaxSize
  let bn3 ← snFromTop stack 1 c.fRequireMinimal scriptNumDefaultMaxSize
  evalopPushBool (stack.drop 3) (bn2 ≤ bn1 && bn1 < bn3)

-- Handlers of upgrades

/-- An absent hook lets every lock time pass. -/
def lockTimePasses (env : ScriptEnv) (lockTime : Int) : Bool :=
  match env.checker with
  | some { checkLockTime := some check, .. } => check lockTime
  | _ => true

def evalopChecklocktimeverify (c : EvalCtx) (stack : Stack) : Eval Stack :=
  if hasFlag c.flags verifyChecklocktimeverify then do
    needItems stack 1
    let nLockTime ← snFromTop stack 1 c.fRequireMinimal 5
    require (0 ≤ nLockTime) .negativeLocktime
    require (lockTimePasses c.env nLockTime) .unsatisfiedLocktime
    return stack
  else do
    require (!hasFlag c.flags verifyDiscourageUpgradableNops) .discourageUpgradableNops
    return stack

def evalopUpgradableNop (c : EvalCtx) (stack : Stack) : Eval Stack := do
  require (!hasFlag c.flags verifyDiscourageUpgradableNops) .discourageUpgradableNops
  return stack

-- Handlers of signatures

def checkEncodings (c : EvalCtx) (sig pubkey : Bytes) : Eval Unit := do
  checkTransactionSignatureEncoding c.env.checkLowS sig c.flags
  checkPubkeyEncoding pubkey c.flags

/-- An absent hook finds every signature invalid. -/
def signatureVerifies (c : EvalCtx) (sig pubkey : Bytes) : Bool :=
  match c.env.checker with
  | some { checkSig := some check, .. } => check sig pubkey c.script c.env.consensusBranchId
  | _ => false

/-- A failed signature has to be empty under `NULLFAIL`. -/
def checkNullFail (c : EvalCtx) (fSuccess : Bool) (sig : Bytes) : Eval Unit :=
  require (!(!fSuccess && hasFlag c.flags verifyNullfail && sig.length > 0)) .sigNullfail

def evalopChecksig (c : EvalCtx) (stack : Stack) (opcode : UInt8) : Eval Stack := do
  needItems stack 2
  checkEncodings c (stackTop stack 2) (stackTop stack 1)
  let fSuccess := signatureVerifies c (stackTop stack 2) (stackTop stack 1)
  checkNullFail c fSuccess (stackTop stack 2)
  let pushed ← evalopPushBool (stack.drop 2) fSuccess
  verifyTailWhen (opcode == opChecksigverify) pushed fSuccess .checksigverify

def evalopCheckdatasigVerify (env : ScriptEnv) (sig msg pubkey : Bytes) : Bool :=
  match env.checker with
  | some { verifySignature := some check, .. } =>
    sig.length > 0 && check sig pubkey (env.sha256 msg)
  | _ => false

def evalopCheckdatasig (c : EvalCtx) (stack : Stack) (opcode : UInt8) : Eval Stack := do
  needItems stack 3
  checkDataSignatureEncoding c.env.checkLowS (stackTop stack 3) c.flags
  checkPubkeyEncoding (stackTop stack 1) c.flags
  let fSuccess :=
    evalopCheckdatasigVerify c.env (stackTop stack 3) (stackTop stack 2) (stackTop stack 1)
  checkNullFail c fSuccess (stackTop stack 3)
  let pushed ← evalopPushBool (stack.drop 3) fSuccess
  verifyTailWhen (opcode == opCheckdatasigverify) pushed fSuccess .checkdatasigverify

/-- Stack depths and counts of an `OP_CHECKMULTISIG` call. -/
structure MultisigLayout where
  i : Nat
  ikey : Nat
  ikey2 : Nat
  isig : Nat
  nKeysCount : Nat
  nSigsCount : Nat
  /-- The operations counted so far, the keys included. -/
  nOpCount : Nat

def evalopMultisigLayout (c : EvalCtx) (stack : Stack) (nOpCount : Nat) : Eval MultisigLayout := do
  needItems stack 1
  let bnKeys ← snFromTop stack 1 c.fRequireMinimal scriptNumDefaultMaxSize
  let nKeys := scriptNumGetInt bnKeys
  require (0 ≤ nKeys && nKeys ≤ 20) .pubkeyCount
  let nKeysCount := nKeys.toNat
  require (nOpCount + nKeysCount ≤ 201) .opCount
  needItems stack (2 + nKeysCount)
  let bnSigs ← snFromTop stack (2 + nKeysCount) c.fRequireMinimal scriptNumDefaultMaxSize
  let nSigs := scriptNumGetInt bnSigs
  require (0 ≤ nSigs && nSigs ≤ nKeys) .sigCount
  let nSigsCount := nSigs.toNat
  needItems stack (3 + nKeysCount + nSigsCount)
  return {
    i := 3 + nKeysCount + nSigsCount, ikey := 2, ikey2 := nKeysCount + 2
    isig := 3 + nKeysCount, nKeysCount, nSigsCount, nOpCount := nOpCount + nKeysCount }

/-- The loop over the keys; more signatures than keys left is a failure. -/
def evalopMultisigMatch (c : EvalCtx) (stack : Stack) : Nat → Nat → Nat → Nat → Eval Bool
  | 0, _, _, nSigsCount => .ok (nSigsCount == 0)
  | nKeysCount + 1, isig, ikey, nSigsCount =>
    if nSigsCount = 0 then .ok true
    else do
      checkEncodings c (stackTop stack isig) (stackTop stack ikey)
      let fOk := signatureVerifies c (stackTop stack isig) (stackTop stack ikey)
      let isig := if fOk then isig + 1 else isig
      let nSigsCount := if fOk then nSigsCount - 1 else nSigsCount
      if nSigsCount > nKeysCount then return false
      else evalopMultisigMatch c stack nKeysCount isig (ikey + 1) nSigsCount

/-- The pops of `evalop_multisig_cleanup`: `ikey2` is zero from the first signature on. -/
def multisigPops (c : EvalCtx) (fSuccess : Bool) : Nat → Nat → Stack → Eval Stack
  | 0, _, stack => .ok stack
  | pops + 1, ikey2, stack => do
    require (!(!fSuccess && hasFlag c.flags verifyNullfail && ikey2 == 0
      && (stackTop stack 1).length > 0)) .sigNullfail
    multisigPops c fSuccess pops (ikey2 - 1) (stack.drop 1)

def evalopMultisigCleanup (c : EvalCtx) (stack : Stack) (m : MultisigLayout) (fSuccess : Bool)
    : Eval Stack := do
  let left ← multisigPops c fSuccess (m.i - 1) m.ikey2 stack
  needItems left 1
  require (!(hasFlag c.flags verifyNulldummy && (stackTop left 1).length > 0)) .sigNulldummy
  return left.drop 1

/-- Also counts the keys as operations. -/
def evalopCheckmultisig (c : EvalCtx) (stack : Stack) (nOpCount : Nat) (opcode : UInt8)
    : Eval (Stack × Nat) := do
  let m ← evalopMultisigLayout c stack nOpCount
  let fSuccess ← evalopMultisigMatch c stack m.nKeysCount m.isig m.ikey m.nSigsCount
  let left ← evalopMultisigCleanup c stack m fSuccess
  let pushed ← evalopPushBool left fSuccess
  let tail ←
    verifyTailWhen (opcode == opCheckmultisigverify) pushed fSuccess .checkmultisigverify
  return (tail, m.nOpCount)

-- Handlers of branches and of the second stack

def evalopIfNotif (state : EvalState) (opcode : UInt8) : Eval EvalState := do
  require (!state.fExec || 1 ≤ state.stack.length) .unbalancedConditional
  require (state.vfExec.length < maxStackItems) .stackSize
  let top := castToBool (stackTop state.stack 1)
  let fValue := state.fExec && (if opcode = opNotif then !top else top)
  let stack := if state.fExec then state.stack.drop 1 else state.stack
  return { state with stack, vfExec := fValue :: state.vfExec }

def evalopElse (state : EvalState) : Eval EvalState :=
  match state.vfExec with
  | [] => .error .unbalancedConditional
  | innermost :: rest => .ok { state with vfExec := (!innermost) :: rest }

def evalopEndif (state : EvalState) : Eval EvalState :=
  match state.vfExec with
  | [] => .error .unbalancedConditional
  | _ :: rest => .ok { state with vfExec := rest }

def evalopToaltstack (state : EvalState) : Eval EvalState := do
  needItems state.stack 1
  let altstack ← stackPush state.altstack (stackTop state.stack 1)
  return { state with altstack, stack := state.stack.drop 1 }

def evalopFromaltstack (state : EvalState) : Eval EvalState := do
  require (1 ≤ state.altstack.length) .invalidAltstackOperation
  let stack ← stackPush state.stack (stackTop state.altstack 1)
  return { state with stack, altstack := state.altstack.drop 1 }

-- Dispatch

/-- The handlers of `script_eval_op_table`. -/
inductive EvalOp where
  | pushSmallInt
  | nop
  | checklocktimeverify
  | upgradableNop
  | ifNotif
  | else
  | endif
  | verify
  | return
  | toaltstack
  | fromaltstack
  | drop2
  | dupOverPair
  | dup3
  | rot2
  | swap2
  | ifdup
  | depth
  | drop
  | dupOver
  | nip
  | pickRoll
  | rot
  | swap
  | tuck
  | size
  | equal
  | unaryArith
  | binaryArith
  | within
  | hash
  | checksig
  | checkdatasig
  | checkmultisig
deriving DecidableEq, Repr

/-- The opcodes of each handler. -/
def scriptEvalOpTable : List (List UInt8 × EvalOp) := [
  ([0x4f, 0x51, 0x52, 0x53, 0x54, 0x55, 0x56, 0x57, 0x58, 0x59, 0x5a, 0x5b, 0x5c, 0x5d, 0x5e, 0x5f,
    0x60], .pushSmallInt),
  ([0x61], .nop),
  ([0xb1], .checklocktimeverify),
  ([0xb0, 0xb2, 0xb3, 0xb4, 0xb5, 0xb6, 0xb7, 0xb8, 0xb9], .upgradableNop),
  ([0x63, 0x64], .ifNotif), ([0x67], .else), ([0x68], .endif),
  ([0x69], .verify), ([0x6a], .return),
  ([0x6b], .toaltstack), ([0x6c], .fromaltstack),
  ([0x6d], .drop2), ([0x6e, 0x70], .dupOverPair), ([0x6f], .dup3),
  ([0x71], .rot2), ([0x72], .swap2),
  ([0x73], .ifdup), ([0x74], .depth), ([0x75], .drop), ([0x76, 0x78], .dupOver),
  ([0x77], .nip), ([0x79, 0x7a], .pickRoll), ([0x7b], .rot), ([0x7c], .swap),
  ([0x7d], .tuck), ([0x82], .size), ([0x87, 0x88], .equal),
  ([0x8b, 0x8c, 0x8f, 0x90, 0x91, 0x92], .unaryArith),
  ([0x93, 0x94, 0x9a, 0x9b, 0x9c, 0x9d, 0x9e, 0x9f, 0xa0, 0xa1, 0xa2, 0xa3, 0xa4], .binaryArith),
  ([0xa5], .within),
  ([0xa6, 0xa7, 0xa8, 0xa9, 0xaa], .hash),
  ([0xac, 0xad], .checksig), ([0xba, 0xbb], .checkdatasig), ([0xae, 0xaf], .checkmultisig)]

def evalOpOf (opcode : UInt8) : Option EvalOp :=
  (scriptEvalOpTable.find? fun entry => entry.1.contains opcode).map Prod.snd

/-- A handler of the main stack alone. -/
def onStack (state : EvalState) (next : Eval Stack) : Eval EvalState := do
  let stack ← next
  return { state with stack }

def EvalOp.run (c : EvalCtx) (state : EvalState) (opcode : UInt8) : EvalOp → Eval EvalState
  | .pushSmallInt => onStack state (evalopPushSmallInt state.stack opcode)
  | .nop => .ok state
  | .checklocktimeverify => onStack state (evalopChecklocktimeverify c state.stack)
  | .upgradableNop => onStack state (evalopUpgradableNop c state.stack)
  | .ifNotif => evalopIfNotif state opcode
  | .else => evalopElse state
  | .endif => evalopEndif state
  | .verify => onStack state (evalopVerify state.stack)
  | .return => .error .opReturn
  | .toaltstack => evalopToaltstack state
  | .fromaltstack => evalopFromaltstack state
  | .drop2 => onStack state (evalop2drop state.stack)
  | .dupOverPair => onStack state (evalopDupOverPair state.stack opcode)
  | .dup3 => onStack state (evalop3dup state.stack)
  | .rot2 => onStack state (evalop2rot state.stack)
  | .swap2 => onStack state (evalop2swap state.stack)
  | .ifdup => onStack state (evalopIfdup state.stack)
  | .depth => onStack state (evalopDepth state.stack)
  | .drop => onStack state (evalopDrop state.stack)
  | .dupOver => onStack state (evalopDupOver state.stack opcode)
  | .nip => onStack state (evalopNip state.stack)
  | .pickRoll => onStack state (evalopPickRoll c state.stack opcode)
  | .rot => onStack state (evalopRot state.stack)
  | .swap => onStack state (evalopSwap state.stack)
  | .tuck => onStack state (evalopTuck state.stack)
  | .size => onStack state (evalopSize state.stack)
  | .equal => onStack state (evalopEqual state.stack opcode)
  | .unaryArith => onStack state (evalopUnaryArith c state.stack opcode)
  | .binaryArith => onStack state (evalopBinaryArith c state.stack opcode)
  | .within => onStack state (evalopWithin c state.stack)
  | .hash => onStack state (evalopHash c.env state.stack opcode)
  | .checksig => onStack state (evalopChecksig c state.stack opcode)
  | .checkdatasig => onStack state (evalopCheckdatasig c state.stack opcode)
  | .checkmultisig => do
    let result ← evalopCheckmultisig c state.stack state.nOpCount opcode
    return { state with stack := result.1, nOpCount := result.2 }

def evalopDispatch (c : EvalCtx) (state : EvalState) (opcode : UInt8) : Eval EvalState :=
  match evalOpOf opcode with
  | none => .error .badOpcode
  | some op => op.run c state opcode

-- One step

/-- Opcodes that fail in every branch, executed or not. -/
def disabledOpcodes : List UInt8 :=
  [0x7e, 0x7f, 0x80, 0x81, 0x83, 0x84, 0x85, 0x86, 0x8d, 0x8e, 0x95, 0x96, 0x97, 0x98, 0x99, 0xab]

def evalopIsDisabled (opcode : UInt8) : Bool := disabledOpcodes.contains opcode

def evalopBranchExecuting (state : EvalState) : Bool := state.vfExec.all id

def evalopPushData (c : EvalCtx) (stack : Stack) (opcode : UInt8) (data : Bytes) : Eval Stack := do
  require (!(c.fRequireMinimal && !checkMinimalPush data opcode)) .minimaldata
  stackPush stack data

/-- The reader with the failure the interpreter gives it. -/
def fetchOp (script : Bytes) (pc : Nat) : Eval (UInt8 × Bytes × Nat) :=
  match scriptGetOp script pc with
  | none => .error .badOpcode
  | some fetched => .ok fetched

/-- The effect of an opcode in the branch it stands in. -/
def evalopExecute (c : EvalCtx) (state : EvalState) (opcode : UInt8) (data : Bytes)
    : Eval EvalState :=
  if state.fExec && opcode ≤ opPushdata4 then
    onStack state (evalopPushData c state.stack opcode data)
  else if state.fExec || (opIf ≤ opcode && opcode ≤ opEndif) then
    evalopDispatch c state opcode
  else .ok state

def evalopStep (c : EvalCtx) (state : EvalState) : Eval EvalState := do
  let (opcode, data, pc) ← fetchOp c.script state.pc
  require (data.length ≤ maxScriptElementSize) .pushSize
  let nOpCount := if op16 < opcode then state.nOpCount + 1 else state.nOpCount
  require (!(op16 < opcode) || nOpCount ≤ 201) .opCount
  require (!evalopIsDisabled opcode) .disabledOpcode
  let fetched := { state with fExec := evalopBranchExecuting state, pc, nOpCount }
  let next ← evalopExecute c fetched opcode data
  require (next.stack.length + next.altstack.length ≤ 1000) .stackSize
  return next

-- Whole scripts

/-- The loop of steps; every step moves forward, so `fuel` is at least the bytes left. -/
def evalLoop (c : EvalCtx) : Nat → EvalState → Eval EvalState
  | 0, state => .ok state
  | fuel + 1, state =>
    if c.script.length ≤ state.pc then .ok state
    else do
      let next ← evalopStep c state
      evalLoop c fuel next

theorem pushLength_forward {script : Bytes} {op : UInt8} {pc nsize start : Nat}
    (found : pushLength script op pc = some (nsize, start))
    : pc ≤ start := by
  unfold pushLength at found
  split at found
  · cases found
    exact Nat.le_refl _
  · split at found
    · split at found
      · cases found
      · cases found
        omega
    · split at found
      · split at found
        · cases found
        · cases found
          omega
      · split at found
        · cases found
        · cases found
          omega

theorem scriptGetOp_forward {script : Bytes} {pc : Nat} {fetched : UInt8 × Bytes × Nat}
    (found : scriptGetOp script pc = some fetched)
    : pc < fetched.2.2 := by
  unfold scriptGetOp at found
  split at found
  · cases found
  · dsimp only at found
    split at found
    · cases pushed : pushLength script (script.getD pc 0) (pc + 1) with
      | none =>
        rw [pushed] at found
        cases found
      | some push =>
        rw [pushed] at found
        have after := pushLength_forward pushed
        dsimp only at found
        split at found
        · cases found
        · split at found
          · cases found
          · cases found
            dsimp only
            omega
    · cases found
      exact Nat.lt_succ_self _

theorem onStack_pc (state : EvalState) (run : Eval Stack)
    : Ensures (onStack state run) fun next => next.pc = state.pc :=
  Ensures.skip fun _ => Ensures.ok rfl

theorem evalOp_run_pc (c : EvalCtx) (state : EvalState) (opcode : UInt8) (op : EvalOp)
    : Ensures (op.run c state opcode) fun next => next.pc = state.pc := by
  cases op with
  | nop => exact Ensures.ok rfl
  | ifNotif => exact Ensures.skip fun _ => Ensures.skip fun _ => Ensures.ok rfl
  | «else» =>
    simp only [EvalOp.run, evalopElse]
    split
    · exact Ensures.error _
    · exact Ensures.ok rfl
  | endif =>
    simp only [EvalOp.run, evalopEndif]
    split
    · exact Ensures.error _
    · exact Ensures.ok rfl
  | «return» => exact Ensures.error _
  | toaltstack => exact Ensures.skip fun _ => Ensures.skip fun _ => Ensures.ok rfl
  | fromaltstack => exact Ensures.skip fun _ => Ensures.skip fun _ => Ensures.ok rfl
  | checkmultisig => exact Ensures.skip fun _ => Ensures.ok rfl
  | _ => exact onStack_pc state _

theorem evalopExecute_pc (c : EvalCtx) (state : EvalState) (opcode : UInt8) (data : Bytes)
    : Ensures (evalopExecute c state opcode data) fun next => next.pc = state.pc := by
  unfold evalopExecute
  split
  · exact onStack_pc state _
  · split
    · unfold evalopDispatch
      split
      · exact Ensures.error _
      · exact evalOp_run_pc c state opcode _
    · exact Ensures.ok rfl

theorem evalopStep_forward (c : EvalCtx) (state : EvalState)
    : Ensures (evalopStep c state) fun next => state.pc < next.pc := by
  have fetches : Ensures (fetchOp c.script state.pc) fun fetched => state.pc < fetched.2.2 := by
    unfold fetchOp
    split
    · exact Ensures.error _
    · next found => exact Ensures.ok (scriptGetOp_forward found)
  refine Ensures.bind fetches fun fetched forward => ?_
  refine Ensures.skip fun _ => Ensures.skip fun _ => Ensures.skip fun _ => ?_
  refine Ensures.bind (evalopExecute_pc c _ _ _) fun next same => Ensures.skip fun _ => ?_
  apply Ensures.ok
  rw [same]
  exact forward

theorem evalLoop_ends (c : EvalCtx) (fuel : Nat) (state : EvalState)
    (enough : c.script.length ≤ state.pc + fuel)
    : Ensures (evalLoop c fuel state) fun final => c.script.length ≤ final.pc := by
  induction fuel generalizing state with
  | zero => exact Ensures.ok enough
  | succ fuel ih =>
    simp only [evalLoop]
    split
    · next ended => exact Ensures.ok ended
    · refine Ensures.bind (evalopStep_forward c state) fun next forward => ih next ?_
      omega

def evalScript (env : ScriptEnv) (flags : UInt32) (stack : Stack) (script : Bytes)
    : Eval Stack := do
  require (script.length ≤ maxScriptSize) .scriptSize
  let final ← evalLoop { env, script, flags } script.length { stack }
  require final.vfExec.isEmpty .unbalancedConditional
  return final.stack

def scriptStackTopIsTrue (stack : Stack) : Eval Unit := do
  require (0 < stack.length) .evalFalse
  require (castToBool (stackTop stack 1)) .evalFalse

/-- `script_set`: a script holds no more than its buffer. -/
def scriptSet (data : Bytes) : Bytes := data.take maxScriptSize

/-- The run of the redeem script on the stack that the input left. -/
def runRedeem (env : ScriptEnv) (flags : UInt32) (scriptSig : Bytes) (stackCopy : Stack)
    : Eval Stack := do
  require (scriptIsPushOnly scriptSig) .sigPushonly
  require (0 < stackCopy.length) .aborted
  let stack ← evalScript env flags (stackCopy.drop 1) (scriptSet (stackTop stackCopy 1))
  scriptStackTopIsTrue stack
  return stack

def verifyP2shRedeem (env : ScriptEnv) (flags : UInt32) (stack stackCopy : Stack)
    (scriptSig scriptPubKey : Bytes) : Eval Stack :=
  if hasFlag flags verifyP2sh && scriptIsP2sh scriptPubKey then
    runRedeem env flags scriptSig stackCopy
  else .ok stack

def checkCleanstack (flags : UInt32) (stack : Stack) : Eval Unit :=
  if hasFlag flags verifyCleanstack then do
    require (hasFlag flags verifyP2sh) .aborted
    require (stack.length == 1) .cleanstack
  else .ok ()

def verifyP2shRedeemAndCleanstack (env : ScriptEnv) (flags : UInt32) (stack stackCopy : Stack)
    (scriptSig scriptPubKey : Bytes) : Eval Unit := do
  let last ← verifyP2shRedeem env flags stack stackCopy scriptSig scriptPubKey
  checkCleanstack flags last

/-- `domain_consensus_verify_script`. -/
def verifyScript (env : ScriptEnv) (flags : UInt32) (scriptSig scriptPubKey : Bytes)
    : Eval Unit := do
  require (!(hasFlag flags verifySigpushonly && !scriptIsPushOnly scriptSig)) .sigPushonly
  let stackCopy ← evalScript env flags [] scriptSig
  let stack ← evalScript env flags stackCopy scriptPubKey
  scriptStackTopIsTrue stack
  verifyP2shRedeemAndCleanstack env flags stack stackCopy scriptSig scriptPubKey

/-- No hook and no hash is asked. -/
def quietEnv : ScriptEnv where
  ripemd160 := fun _ => []
  sha1 := fun _ => []
  sha256 := fun _ => []
  hash160 := fun _ => []
  hash256 := fun _ => []
  checkLowS := fun _ => true
  checker := none
  consensusBranchId := 0

end Z23.Script
