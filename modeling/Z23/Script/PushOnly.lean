import Z23.Script.Aborts

/-!
The scanner of push-only scripts against the reference test, which decodes operation by operation.
The two differ on scripts that do not decode, and a verification fails on those whatever they say.
-/

namespace Z23.Script

open Z23.Lib.Bytes
open Z23.Lib.Failing

-- The reference test

/-- `script_get_op` without a buffer for the data, which then has no largest size. -/
def scriptSkipOp (script : Bytes) (pc : Nat) : Option (UInt8 × Nat) :=
  if script.length ≤ pc then none
  else
    let op := script.getD pc 0
    if op ≤ opPushdata4 then
      match pushLength script op (pc + 1) with
      | none => none
      | some (nsize, start) =>
        if start + nsize > script.length then none else some (op, start + nsize)
    else some (op, pc + 1)

/-- Every operation from a place on decodes and is at most `OP_16`; `fuel` is at least what is
left. -/
def decodesToPushesFrom (script : Bytes) : Nat → Nat → Bool
  | 0, _ => true
  | fuel + 1, pc =>
    if script.length ≤ pc then true
    else
      match scriptSkipOp script pc with
      | none => false
      | some (op, next) => op ≤ op16 && decodesToPushesFrom script fuel next

def decodesToPushes (script : Bytes) : Bool := decodesToPushesFrom script script.length 0

/-- `verify_script` and its callees with another test in the place of `script_is_push_only`. -/
def runRedeemWith (isPushOnly : Bytes → Bool) (env : ScriptEnv) (flags : UInt32)
    (scriptSig : Bytes) (stackCopy : Stack) : Eval Stack := do
  require (isPushOnly scriptSig) .sigPushonly
  require (0 < stackCopy.length) .aborted
  let stack ← evalScript env flags (stackCopy.drop 1) (scriptSet (stackTop stackCopy 1))
  scriptStackTopIsTrue stack
  return stack

def verifyP2shRedeemWith (isPushOnly : Bytes → Bool) (env : ScriptEnv) (flags : UInt32)
    (stack stackCopy : Stack) (scriptSig scriptPubKey : Bytes) : Eval Stack :=
  if hasFlag flags verifyP2sh && scriptIsP2sh scriptPubKey then
    runRedeemWith isPushOnly env flags scriptSig stackCopy
  else .ok stack

def verifyScriptWith (isPushOnly : Bytes → Bool) (env : ScriptEnv) (flags : UInt32)
    (scriptSig scriptPubKey : Bytes) : Eval Unit := do
  require (!(hasFlag flags verifySigpushonly && !isPushOnly scriptSig)) .sigPushonly
  let stackCopy ← evalScript env flags [] scriptSig
  let stack ← evalScript env flags stackCopy scriptPubKey
  scriptStackTopIsTrue stack
  let last ← verifyP2shRedeemWith isPushOnly env flags stack stackCopy scriptSig scriptPubKey
  checkCleanstack flags last

/-- The boolean that a verification returns; a failed assertion returns none. -/
def verdict : Eval Unit → Option Bool
  | .ok () => some true
  | .error .aborted => none
  | .error _ => some false

theorem verifyScriptWith_scriptIsPushOnly
    : verifyScriptWith scriptIsPushOnly = verifyScript := rfl

-- The scanner returns

/-- One turn of the loop of `script_is_push_only`: what it returns, or where the cursor goes. -/
def pushOnlyTurn (script : Bytes) (i : Nat) : Bool ⊕ Nat :=
  if script.length ≤ i then .inl true
  else
    let op := script.getD i 0
    if op16 < op then .inl false
    else if op < opPushdata1 then .inr (i + 1 + op.toNat)
    else if op = opPushdata1 then
      if script.length ≤ i + 1 then .inl false else .inr (i + 2 + (script.getD (i + 1) 0).toNat)
    else if op = opPushdata2 then
      if script.length ≤ i + 2 then .inl false
      else .inr (i + 3 + natLE ((script.drop (i + 1)).take 2))
    else if op = opPushdata4 then
      if script.length ≤ i + 4 then .inl false
      else
        let adv := (5 + natLE ((script.drop (i + 1)).take 4)) % 2 ^ 32
        if adv = 0 then .inl false else .inr (i + adv)
    else .inr (i + 1)

/-- The loop from a cursor on ends after finitely many turns and returns the value. -/
inductive PushOnlyReturns (script : Bytes) : Nat → Bool → Prop
  | returns {i : Nat} {value : Bool} (turn : pushOnlyTurn script i = .inl value)
    : PushOnlyReturns script i value
  | turns {i next : Nat} {value : Bool} (turn : pushOnlyTurn script i = .inr next)
    (rest : PushOnlyReturns script next value)
    : PushOnlyReturns script i value

theorem pushOnlyFrom_succ (script : Bytes) (fuel i : Nat)
    : pushOnlyFrom script (fuel + 1) i
      = (pushOnlyTurn script i).elim id (pushOnlyFrom script fuel) := by
  simp only [pushOnlyFrom, pushOnlyTurn]
  split_ifs <;> rfl

variable {script : Bytes}

theorem pushOnlyTurn_forward {i next : Nat} (turn : pushOnlyTurn script i = .inr next)
    : i < next := by
  simp only [pushOnlyTurn] at turn
  split_ifs at turn <;> cases turn <;> omega

theorem pushOnlyFrom_returns (script : Bytes) (fuel i : Nat) (enough : script.length ≤ i + fuel)
    : PushOnlyReturns script i (pushOnlyFrom script fuel i) := by
  induction fuel generalizing i with
  | zero =>
    apply PushOnlyReturns.returns
    simp only [pushOnlyTurn, pushOnlyFrom]
    exact if_pos enough
  | succ fuel ih =>
    rw [pushOnlyFrom_succ]
    cases turn : pushOnlyTurn script i with
    | inl value => exact PushOnlyReturns.returns turn
    | inr next =>
      have forward := pushOnlyTurn_forward turn
      exact PushOnlyReturns.turns turn (ih next (by omega))


-- Scripts that decode

variable {pc : Nat}

theorem scriptSkipOp_of_scriptGetOp {data : Bytes} {next : Nat} {op : UInt8}
    (found : scriptGetOp script pc = some (op, data, next))
    : scriptSkipOp script pc = some (op, next) := by
  simp only [scriptGetOp] at found
  simp only [scriptSkipOp]
  split at found
  · cases found
  · next inside =>
      rw [if_neg inside]
      split at found
      · next push =>
          rw [if_pos push]
          cases pushed : pushLength script (script.getD pc 0) (pc + 1) with
          | none =>
            rw [pushed] at found
            cases found
          | some length =>
            rw [pushed] at found
            dsimp only at found ⊢
            split_ifs at found ⊢
            cases found
            rfl
      · next noPush =>
          rw [if_neg noPush]
          cases found
          rfl

theorem pushLength_cases {op : UInt8} {nsize start : Nat} (push : op ≤ opPushdata4)
    (found : pushLength script op pc = some (nsize, start))
    : (op < opPushdata1 ∧ nsize = op.toNat ∧ start = pc)
      ∨ (op = opPushdata1 ∧ pc < script.length
        ∧ nsize = (script.getD pc 0).toNat ∧ start = pc + 1)
      ∨ (op = opPushdata2 ∧ pc + 1 < script.length
        ∧ nsize = natLE ((script.drop pc).take 2) ∧ start = pc + 2)
      ∨ (op = opPushdata4 ∧ pc + 3 < script.length
        ∧ nsize = natLE ((script.drop pc).take 4) ∧ start = pc + 4) := by
  simp only [pushLength] at found
  split_ifs at found with short one oneEnds two twoEnds fourEnds
  · cases found
    exact .inl ⟨short, rfl, rfl⟩
  · cases found
    exact .inr (.inl ⟨one, by omega, rfl, rfl⟩)
  · cases found
    exact .inr (.inr (.inl ⟨two, by omega, rfl, rfl⟩))
  · cases found
    refine .inr (.inr (.inr ⟨?_, by omega, rfl, rfl⟩))
    have values : opPushdata1.toNat = 76 ∧ opPushdata2.toNat = 77 ∧ opPushdata4.toNat = 78 := by
      decide
    rw [UInt8.le_iff_toNat_le] at push
    rw [UInt8.lt_iff_toNat_lt] at short
    rw [← UInt8.toNat_inj] at one two ⊢
    omega

theorem pushOnlyTurn_of_scriptGetOp {data : Bytes} {next : Nat} {op : UInt8}
    (found : scriptGetOp script pc = some (op, data, next))
    : pushOnlyTurn script pc = if op16 < op then .inl false else .inr next := by
  simp only [scriptGetOp] at found
  simp only [pushOnlyTurn]
  split at found
  · cases found
  · next inside =>
      rw [if_neg inside]
      split at found
      · next push =>
          have small : ¬ op16 < script.getD pc 0 :=
            UInt8.not_lt.mpr (UInt8.le_trans push (by decide))
          cases pushed : pushLength script (script.getD pc 0) (pc + 1) with
          | none =>
            rw [pushed] at found
            cases found
          | some length =>
            obtain ⟨nsize, start⟩ := length
            rw [pushed] at found
            dsimp only at found
            split_ifs at found with truncated oversized
            cases found
            rw [if_neg small]
            rcases pushLength_cases push pushed with
              ⟨short, rfl, rfl⟩ | ⟨one, ends, rfl, rfl⟩ | ⟨two, ends, rfl, rfl⟩
              | ⟨four, ends, rfl, rfl⟩
            · rw [if_pos short, if_neg small]
            · have plain : ¬ opPushdata1 < opPushdata1 := by decide
              rw [if_neg small, one, if_neg plain, if_pos rfl, if_neg (Nat.not_le.mpr ends)]
            · have longer : ¬ opPushdata2 < opPushdata1 ∧ opPushdata2 ≠ opPushdata1 := by decide
              rw [if_neg small, two, if_neg longer.1, if_neg longer.2, if_pos rfl,
                if_neg (Nat.not_le.mpr ends)]
            · have longest : ¬ opPushdata4 < opPushdata1 ∧ opPushdata4 ≠ opPushdata1
                  ∧ opPushdata4 ≠ opPushdata2 := by decide
              -- a push that fits its buffer is far from where the sum wraps
              have exact : (5 + natLE ((script.drop (pc + 1)).take 4)) % 2 ^ 32
                  = 5 + natLE ((script.drop (pc + 1)).take 4) := by
                simp only [maxScriptElementSize] at oversized
                omega
              rw [if_neg small, four, if_neg longest.1, if_neg longest.2.1, if_neg longest.2.2,
                if_pos rfl, if_neg (Nat.not_le.mpr ends), exact, if_neg (by omega)]
              congr 1
              omega
      · next noPush =>
          cases found
          split
          · rfl
          · have above : ∀ {opcode : UInt8}, opcode ≤ opPushdata4 → script.getD pc 0 ≠ opcode := by
              intro opcode below same
              exact noPush (same ▸ below)
            have notShort : ¬ script.getD pc 0 < opPushdata1 := by
              intro short
              exact noPush (UInt8.le_trans (UInt8.le_of_lt short) (by decide))
            rw [if_neg notShort, if_neg (above (by decide)), if_neg (above (by decide)),
              if_neg (above (by decide))]

/-- Every operation from a place on decodes, its data within the size of an element. -/
inductive Decodes (script : Bytes) : Nat → Prop
  | done {pc : Nat} (ended : script.length ≤ pc) : Decodes script pc
  | op {pc next : Nat} {opcode : UInt8} {data : Bytes}
    (found : scriptGetOp script pc = some (opcode, data, next)) (rest : Decodes script next)
    : Decodes script pc

theorem Decodes.inv (decodes : Decodes script pc) (inside : ¬ script.length ≤ pc)
    : ∃ opcode data next,
        scriptGetOp script pc = some (opcode, data, next) ∧ Decodes script next := by
  cases decodes with
  | done ended => exact absurd ended inside
  | op found rest => exact ⟨_, _, _, found, rest⟩

theorem pushOnlyFrom_eq_decodesToPushesFrom (fuel : Nat) (decodes : Decodes script pc)
    : pushOnlyFrom script fuel pc = decodesToPushesFrom script fuel pc := by
  induction fuel generalizing pc with
  | zero => rfl
  | succ fuel ih =>
    rw [pushOnlyFrom_succ]
    by_cases ended : script.length ≤ pc
    · simp only [pushOnlyTurn, decodesToPushesFrom, if_pos ended, Sum.elim_inl, id_eq]
    · obtain ⟨opcode, data, next, found, rest⟩ := decodes.inv ended
      rw [pushOnlyTurn_of_scriptGetOp found]
      simp only [decodesToPushesFrom, if_neg ended, scriptSkipOp_of_scriptGetOp found]
      split
      · next large => simp [UInt8.not_le.mpr large]
      · next small => simp [UInt8.not_lt.mp small, ih rest]

theorem evalopStep_fetches (c : EvalCtx) (state : EvalState)
    : Ensures (evalopStep c state) fun next =>
        ∃ opcode data, scriptGetOp c.script state.pc = some (opcode, data, next.pc) := by
  have fetches : Ensures (fetchOp c.script state.pc) fun fetched =>
      scriptGetOp c.script state.pc = some fetched := by
    unfold fetchOp
    split
    · exact Ensures.error _
    · next found => exact Ensures.ok found
  refine Ensures.bind fetches fun fetched found => ?_
  refine Ensures.skip fun _ => Ensures.skip fun _ => Ensures.skip fun _ => ?_
  refine Ensures.bind (evalopExecute_pc c _ _ _) fun next same => Ensures.skip fun _ => ?_
  apply Ensures.ok
  rw [same]
  exact ⟨fetched.1, fetched.2.1, found⟩

theorem evalLoop_decodes (c : EvalCtx) (fuel : Nat) (state : EvalState)
    (enough : c.script.length ≤ state.pc + fuel)
    : Ensures (evalLoop c fuel state) fun _ => Decodes c.script state.pc := by
  induction fuel generalizing state with
  | zero => exact Ensures.ok (Decodes.done enough)
  | succ fuel ih =>
    simp only [evalLoop]
    split
    · next ended => exact Ensures.ok (Decodes.done ended)
    · refine Ensures.bind (evalopStep_fetches c state) ?_
      rintro next ⟨opcode, data, found⟩
      have forward : state.pc < next.pc := scriptGetOp_forward found
      intro final ran
      exact Decodes.op found (ih next (by omega) final ran)

theorem evalScript_decodes (env : ScriptEnv) (flags : UInt32) (stack : Stack) (script : Bytes)
    : Ensures (evalScript env flags stack script) fun _ => Decodes script 0 := by
  refine Ensures.skip fun _ => ?_
  refine Ensures.bind (evalLoop_decodes _ _ _ (by simp)) fun _ decodes => ?_
  exact Ensures.skip fun _ => Ensures.ok decodes

-- The verdict

theorem verdict_error {failure : ScriptError} (other : failure ≠ .aborted)
    : verdict (.error failure) = some false := by
  cases failure with
  | aborted => exact absurd rfl other
  | _ => rfl

theorem verdict_verifyScriptWith_of_error (isPushOnly : Bytes → Bool) (env : ScriptEnv)
    (flags : UInt32) (scriptSig scriptPubKey : Bytes) {failure : ScriptError}
    (failed : evalScript env flags [] scriptSig = .error failure)
    : verdict (verifyScriptWith isPushOnly env flags scriptSig scriptPubKey) = some false := by
  have other : failure ≠ .aborted := by
    intro aborts
    exact evalScript_not_aborted env flags [] scriptSig (aborts ▸ failed)
  unfold verifyScriptWith
  cases passes : !(hasFlag flags verifySigpushonly && !isPushOnly scriptSig) with
  | false => rfl
  | true =>
    rw [failed]
    exact verdict_error other

/-- The scanner returns on every script, and the reference test in its place gives every spend the
same verdict. -/
theorem verifyScript_pushOnly_reference (env : ScriptEnv) (flags : UInt32)
    (scriptSig scriptPubKey : Bytes)
    : PushOnlyReturns scriptSig 0 (scriptIsPushOnly scriptSig)
      ∧ verdict (verifyScript env flags scriptSig scriptPubKey)
        = verdict (verifyScriptWith decodesToPushes env flags scriptSig scriptPubKey) := by
  refine ⟨pushOnlyFrom_returns scriptSig _ 0 (by omega), ?_⟩
  rw [← verifyScriptWith_scriptIsPushOnly]
  cases ran : evalScript env flags [] scriptSig with
  | error failure =>
    rw [verdict_verifyScriptWith_of_error _ env flags scriptSig scriptPubKey ran,
      verdict_verifyScriptWith_of_error _ env flags scriptSig scriptPubKey ran]
  | ok stackCopy =>
    have decodes := evalScript_decodes env flags [] scriptSig stackCopy ran
    have same : scriptIsPushOnly scriptSig = decodesToPushes scriptSig :=
      pushOnlyFrom_eq_decodesToPushesFrom scriptSig.length decodes
    simp only [verifyScriptWith, verifyP2shRedeemWith, runRedeemWith, same]

end Z23.Script
