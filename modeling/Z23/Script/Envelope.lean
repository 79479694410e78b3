import Z23.Script.Aborts
import Z23.Script.Watch

/-!
The resources of a script: the sizes of items, the number of items and of counted opcodes, and the
places of the stacks that the handlers look at.
-/

namespace Z23.Script

open Z23.Lib.Failing
open Z23.Lib.Watching
open Z23.Lib.Watching.Watched

-- Sizes of items

/-- No item is larger than an element may be. -/
def Sized (stack : Stack) : Prop := ∀ item ∈ stack, item.length ≤ maxScriptElementSize

section

variable {stack : Stack} (sized : Sized stack)
include sized

theorem Sized.cons {item : Bytes} (small : item.length ≤ maxScriptElementSize)
    : Sized (item :: stack) := by
  intro other member
  rcases List.mem_cons.mp member with rfl | member
  · exact small
  · exact sized other member

theorem Sized.subset {part : Stack} (subset : part ⊆ stack)
    : Sized part :=
  fun item member => sized item (subset member)

theorem Sized.drop (n : Nat) : Sized (stack.drop n) :=
  sized.subset (List.drop_subset n stack)

theorem Sized.append {other : Stack} (others : Sized other) : Sized (stack ++ other) := by
  intro item member
  rcases List.mem_append.mp member with left | right
  · exact sized item left
  · exact others item right

theorem Sized.take (n : Nat) : Sized (stack.take n) :=
  sized.subset (List.take_subset n stack)

theorem Sized.eraseIdx (n : Nat)
    : Sized (stack.eraseIdx n) :=
  sized.subset (List.eraseIdx_subset)

theorem Sized.stackTop (i : Nat) : (stackTop stack i).length ≤ maxScriptElementSize := by
  simp only [Script.stackTop, List.getD_eq_getElem?_getD]
  cases found : stack[i - 1]? with
  | none => exact Nat.zero_le _
  | some item => exact sized item (List.mem_of_getElem? found)

end

theorem stackPush_ensures (stack : Stack) (item : Bytes)
    : Ensures (stackPush stack item) fun pushed =>
        pushed = item :: stack ∧ item.length ≤ maxScriptElementSize := by
  intro pushed ran
  simp only [stackPush, require] at ran
  split at ran
  · next fits =>
      cases ran
      exact ⟨rfl, of_decide_eq_true (Bool.and_eq_true_iff.mp fits).2⟩
  · cases ran

theorem stackPush_sized {stack : Stack} (sized : Sized stack) (item : Bytes)
    : Ensures (stackPush stack item) Sized := by
  intro pushed ran
  obtain ⟨rfl, small⟩ := stackPush_ensures stack item pushed ran
  exact sized.cons small

theorem verifyTailWhen_sized {stack : Stack} (sized : Sized stack) (isVerify fSuccess : Bool)
    (code : ScriptError)
    : Ensures (verifyTailWhen isVerify stack fSuccess code) Sized := by
  unfold verifyTailWhen
  split
  · exact Ensures.skip fun _ => Ensures.ok (sized.drop 1)
  · exact Ensures.ok sized

/-- A result pushed in the place of what was read, with the tail of a `VERIFY`. -/
theorem pushResult_sized {stack : Stack} (sized : Sized stack) (item : Bytes)
    (isVerify fSuccess : Bool) (code : ScriptError)
    : Ensures (stackPush stack item >>= fun pushed => verifyTailWhen isVerify pushed fSuccess code)
        Sized :=
  Ensures.bind (stackPush_sized sized item) fun _ pushed =>
    verifyTailWhen_sized pushed isVerify fSuccess code

-- States

/-- The sizes of items and the count of opcodes. -/
structure EvalState.Contained (state : EvalState) : Prop where
  stack : Sized state.stack
  altstack : Sized state.altstack
  counted : state.nOpCount ≤ 201

/-- What holds between two opcodes. -/
structure EvalState.Within (state : EvalState) : Prop extends state.Contained where
  items : state.stack.length + state.altstack.length ≤ maxStackItems

theorem multisigPops_sized (c : EvalCtx) (fSuccess : Bool) (pops ikey2 : Nat) {stack : Stack}
    (sized : Sized stack)
    : Ensures (multisigPops c fSuccess pops ikey2 stack) Sized := by
  induction pops generalizing ikey2 stack with
  | zero => exact Ensures.ok sized
  | succ pops ih => exact Ensures.skip fun _ => ih (ikey2 - 1) (sized.drop 1)

/-- The facts that a layout is read with. -/
structure MultisigLayout.Fits (m : MultisigLayout) (stack : Stack) : Prop where
  arguments : m.i = 3 + m.nKeysCount + m.nSigsCount
  present : m.i ≤ stack.length
  keys : m.ikey = 2
  sigs : m.isig = 3 + m.nKeysCount
  counted : m.nOpCount ≤ 201

theorem evalopMultisigLayout_fits (c : EvalCtx) (stack : Stack) (nOpCount : Nat)
    : Ensures (evalopMultisigLayout c stack nOpCount) fun m => m.Fits stack := by
  refine Ensures.skip fun _ => Ensures.skip fun bnKeys => ?_
  refine Ensures.skip fun _ => Ensures.check fun counted => ?_
  refine Ensures.skip fun _ => Ensures.skip fun bnSigs => ?_
  refine Ensures.skip fun _ => Ensures.check fun present => ?_
  exact Ensures.ok {
    arguments := rfl
    present := of_decide_eq_true present
    keys := rfl
    sigs := rfl
    counted := of_decide_eq_true counted }

theorem evalopCheckmultisig_sized (c : EvalCtx) {stack : Stack} (sized : Sized stack)
    (nOpCount : Nat) (opcode : UInt8)
    : Ensures (evalopCheckmultisig c stack nOpCount opcode) fun result =>
        Sized result.1 ∧ result.2 ≤ 201 := by
  refine Ensures.bind (evalopMultisigLayout_fits c stack nOpCount) fun m fits => ?_
  refine Ensures.skip fun fSuccess => ?_
  have cleaned : Ensures (evalopMultisigCleanup c stack m fSuccess) Sized := by
    refine Ensures.bind (multisigPops_sized c fSuccess _ _ sized) fun left sizedLeft => ?_
    exact Ensures.skip fun _ => Ensures.skip fun _ => Ensures.ok (sizedLeft.drop 1)
  refine Ensures.bind cleaned fun left sizedLeft => ?_
  refine Ensures.bind (stackPush_sized sizedLeft _) fun pushed sizedPushed => ?_
  refine Ensures.bind (verifyTailWhen_sized sizedPushed _ _ _) fun tail sizedTail => ?_
  exact Ensures.ok ⟨sizedTail, fits.counted⟩

theorem onStack_contained {state : EvalState} (contained : state.Contained) {run : Eval Stack}
    (sized : Ensures run Sized)
    : Ensures (onStack state run) EvalState.Contained :=
  Ensures.bind sized fun _ sizedStack => Ensures.ok { contained with stack := sizedStack }

theorem evalOp_run_contained (c : EvalCtx) {state : EvalState} (contained : state.Contained)
    (opcode : UInt8) (op : EvalOp)
    : Ensures (op.run c state opcode) EvalState.Contained := by
  have sized := contained.stack
  have top := fun i => sized.stackTop i
  cases op with
  | pushSmallInt => exact onStack_contained contained (stackPush_sized sized _)
  | nop => exact Ensures.ok contained
  | checklocktimeverify =>
    apply onStack_contained contained
    unfold evalopChecklocktimeverify
    split
    · refine Ensures.skip fun _ => Ensures.skip fun _ => ?_
      exact Ensures.skip fun _ => Ensures.skip fun _ => Ensures.ok sized
    · exact Ensures.skip fun _ => Ensures.ok sized
  | upgradableNop =>
    exact onStack_contained contained (Ensures.skip fun _ => Ensures.ok sized)
  | ifNotif =>
    refine Ensures.skip fun _ => Ensures.skip fun _ => Ensures.ok { contained with stack := ?_ }
    dsimp only
    split
    · exact sized.drop 1
    · exact sized
  | «else» =>
    simp only [EvalOp.run, evalopElse]
    split
    · exact Ensures.error _
    · exact Ensures.ok { contained with }
  | endif =>
    simp only [EvalOp.run, evalopEndif]
    split
    · exact Ensures.error _
    · exact Ensures.ok { contained with }
  | verify =>
    apply onStack_contained contained
    exact Ensures.skip fun _ => Ensures.skip fun _ => Ensures.ok (sized.drop 1)
  | «return» => exact Ensures.error _
  | toaltstack =>
    refine Ensures.skip fun _ => ?_
    refine Ensures.bind (stackPush_sized contained.altstack _) fun _ pushed => ?_
    exact Ensures.ok { contained with altstack := pushed, stack := sized.drop 1 }
  | fromaltstack =>
    refine Ensures.skip fun _ => Ensures.bind (stackPush_sized sized _) fun _ pushed => ?_
    exact Ensures.ok { contained with stack := pushed, altstack := contained.altstack.drop 1 }
  | drop2 =>
    exact onStack_contained contained (Ensures.skip fun _ => Ensures.ok (sized.drop 2))
  | dupOverPair =>
    apply onStack_contained contained
    refine Ensures.skip fun _ => ?_
    exact Ensures.bind (stackPush_sized sized _) fun _ pushed => stackPush_sized pushed _
  | dup3 =>
    apply onStack_contained contained
    refine Ensures.skip fun _ => Ensures.bind (stackPush_sized sized _) fun _ one => ?_
    exact Ensures.bind (stackPush_sized one _) fun _ two => stackPush_sized two _
  | rot2 =>
    apply onStack_contained contained
    refine Ensures.skip fun _ => ?_
    refine Ensures.bind (stackPush_sized ((sized.take 4).append (sized.drop 6)) _) fun _ one => ?_
    exact stackPush_sized one _
  | swap2 =>
    apply onStack_contained contained
    unfold evalop2swap
    split
    · next x1 x2 x3 x4 rest same =>
        apply Ensures.ok
        rw [same] at sized
        apply sized.subset
        intro item member
        simp only [List.mem_cons] at member ⊢
        tauto
    · exact Ensures.error _
  | ifdup =>
    apply onStack_contained contained
    refine Ensures.skip fun _ => ?_
    split
    · exact stackPush_sized sized _
    · exact Ensures.ok sized
  | depth => exact onStack_contained contained (stackPush_sized sized _)
  | drop =>
    exact onStack_contained contained (Ensures.skip fun _ => Ensures.ok (sized.drop 1))
  | dupOver =>
    exact onStack_contained contained (Ensures.skip fun _ => stackPush_sized sized _)
  | nip =>
    exact onStack_contained contained (Ensures.skip fun _ => Ensures.ok (sized.eraseIdx 1))
  | pickRoll =>
    apply onStack_contained contained
    refine Ensures.skip fun _ => Ensures.skip fun bn => Ensures.skip fun _ => ?_
    apply stackPush_sized
    split
    · exact (sized.drop 1).eraseIdx _
    · exact sized.drop 1
  | rot =>
    apply onStack_contained contained
    unfold evalopRot
    split
    · next x1 x2 x3 rest same =>
        apply Ensures.ok
        rw [same] at sized
        apply sized.subset
        intro item member
        simp only [List.mem_cons] at member ⊢
        tauto
    · exact Ensures.error _
  | swap =>
    apply onStack_contained contained
    unfold evalopSwap
    split
    · next x1 x2 rest same =>
        apply Ensures.ok
        rw [same] at sized
        exact sized.subset (List.Perm.swap x1 x2 rest).subset
    · exact Ensures.error _
  | tuck =>
    apply onStack_contained contained
    refine Ensures.skip fun _ => Ensures.skip fun _ => Ensures.ok ?_
    exact (sized.take 2).append ((sized.drop 2).cons (top 1))
  | size =>
    exact onStack_contained contained (Ensures.skip fun _ => stackPush_sized sized _)
  | equal =>
    apply onStack_contained contained
    exact Ensures.skip fun _ => pushResult_sized (sized.drop 2) _ _ _ _
  | unaryArith =>
    apply onStack_contained contained
    exact Ensures.skip fun _ => Ensures.skip fun _ => stackPush_sized (sized.drop 1) _
  | binaryArith =>
    apply onStack_contained contained
    refine Ensures.skip fun _ => Ensures.skip fun _ => Ensures.skip fun _ => ?_
    refine Ensures.bind (stackPush_sized (sized.drop 2) _) fun _ pushed => ?_
    exact verifyTailWhen_sized pushed _ _ _
  | within =>
    apply onStack_contained contained
    refine Ensures.skip fun _ => Ensures.skip fun _ => Ensures.skip fun _ => ?_
    exact Ensures.skip fun _ => stackPush_sized (sized.drop 3) _
  | hash =>
    exact onStack_contained contained (Ensures.skip fun _ => stackPush_sized (sized.drop 1) _)
  | checksig =>
    apply onStack_contained contained
    refine Ensures.skip fun _ => Ensures.skip fun _ => Ensures.skip fun _ => ?_
    exact pushResult_sized (sized.drop 2) _ _ _ _
  | checkdatasig =>
    apply onStack_contained contained
    refine Ensures.skip fun _ => Ensures.skip fun _ => Ensures.skip fun _ => ?_
    exact Ensures.skip fun _ => pushResult_sized (sized.drop 3) _ _ _ _
  | checkmultisig =>
    refine Ensures.bind (evalopCheckmultisig_sized c sized _ _) ?_
    rintro result ⟨sizedStack, counted⟩
    exact Ensures.ok { contained with stack := sizedStack, counted }

theorem evalopExecute_contained (c : EvalCtx) {state : EvalState} (contained : state.Contained)
    (opcode : UInt8) (data : Bytes)
    : Ensures (evalopExecute c state opcode data) EvalState.Contained := by
  unfold evalopExecute
  split
  · apply onStack_contained contained
    exact Ensures.skip fun _ => stackPush_sized contained.stack data
  · split
    · unfold evalopDispatch
      split
      · exact Ensures.error _
      · exact evalOp_run_contained c contained opcode _
    · exact Ensures.ok contained

/-- The state in which an opcode runs. -/
def EvalState.fetched (state : EvalState) (opcode : UInt8) (pc : Nat) : EvalState :=
  { state with
    fExec := evalopBranchExecuting state
    pc
    nOpCount := if op16 < opcode then state.nOpCount + 1 else state.nOpCount }

theorem EvalState.Within.fetched {state : EvalState} (within : state.Within) {opcode : UInt8}
    (pc : Nat)
    (counted : (!decide (op16 < opcode) || decide ((state.fetched opcode pc).nOpCount ≤ 201))
      = true)
    : (state.fetched opcode pc).Contained := by
  refine { stack := within.stack, altstack := within.altstack, counted := ?_ }
  have earlier := within.counted
  by_cases large : op16 < opcode
  · simpa [large] using counted
  · simpa [EvalState.fetched, large] using earlier

theorem evalopStep_within (c : EvalCtx) {state : EvalState} (within : state.Within)
    : Ensures (evalopStep c state) EvalState.Within := by
  refine Ensures.skip fun fetched => Ensures.skip fun _ => ?_
  refine Ensures.check fun counted => Ensures.skip fun _ => ?_
  have contained := within.fetched fetched.2.2 counted
  refine Ensures.bind (evalopExecute_contained c contained _ _) fun next contained => ?_
  refine Ensures.check fun items => Ensures.ok ?_
  exact { contained with items := of_decide_eq_true items }

-- Places

/-- The place exists, or the item is small enough. -/
def Event.InBounds : Event → Prop
  | .access depth height => 1 ≤ depth ∧ depth ≤ height
  | .store size => size ≤ maxScriptElementSize
  | .sigCheck => False
  | .ran _ => False

/-- What a handler of signatures does besides. -/
def Event.InBoundsOrCheck : Event → Prop
  | .sigCheck => True
  | event => event.InBounds

theorem Event.InBounds.orCheck {event : Event} (h : event.InBounds) : event.InBoundsOrCheck := by
  cases event with
  | sigCheck => trivial
  | _ => exact h

/-- The handlers that may call a hook for signatures. -/
def EvalOp.checksSignatures : EvalOp → Bool
  | .checksig | .checkdatasig | .checkmultisig => true
  | _ => false

namespace Watch

section Pieces

variable {α β : Type} {allowed : Event → Prop}
  (widens : ∀ event : Event, event.InBounds → allowed event)
include widens

theorem sees_top {stack : Stack} {i : Nat} {next : Bytes → Run α} (starts : 1 ≤ i)
    (present : i ≤ stack.length) (rest : OnlySees (next (Script.stackTop stack i)) allowed)
    : OnlySees (stackTop stack i >>= next) allowed := by
  refine OnlySees.bind ?_ fun item read => ?_
  · intro event member
    rw [List.mem_singleton.mp member]
    exact widens _ ⟨starts, present⟩
  · cases read
    exact rest

theorem sees_pop {stack : Stack} {n : Nat} (starts : 1 ≤ n) (present : n ≤ stack.length)
    : OnlySees (stackPop stack n) allowed := by
  intro event member
  rw [List.mem_singleton.mp member]
  exact widens _ ⟨starts, present⟩

theorem sees_pop_then {stack : Stack} {n : Nat} {next : Stack → Run α} (starts : 1 ≤ n)
    (present : n ≤ stack.length) (rest : OnlySees (next (stack.drop n)) allowed)
    : OnlySees (stackPop stack n >>= next) allowed := by
  refine OnlySees.bind (sees_pop widens starts present) fun popped ran => ?_
  cases ran
  exact rest

theorem sees_push (stack : Stack) (item : Bytes) : OnlySees (stackPush stack item) allowed := by
  intro event member
  simp only [stackPush] at member
  cases pushed : Script.stackPush stack item with
  | error failure =>
    rw [pushed] at member
    exact (List.not_mem_nil member).elim
  | ok after =>
    rw [pushed] at member
    rw [List.mem_singleton.mp member]
    exact widens _ (stackPush_ensures stack item after pushed).2

theorem sees_push_then {stack : Stack} {item : Bytes} {next : Stack → Run α}
    (rest : OnlySees (next (item :: stack)) allowed)
    : OnlySees (stackPush stack item >>= next) allowed := by
  refine OnlySees.bind (sees_push widens stack item) fun pushed ran => ?_
  rw [(stackPush_ensures stack item pushed ran).1]
  exact rest

theorem sees_erase {stack : Stack} {i : Nat} (starts : 1 ≤ i) (present : i ≤ stack.length)
    : OnlySees (stackErase stack i) allowed := by
  intro event member
  rw [List.mem_singleton.mp member]
  exact widens _ ⟨starts, present⟩

theorem sees_eraseRange {stack : Stack} {i j : Nat} (starts : 1 ≤ i) (present : i ≤ stack.length)
    : OnlySees (stackEraseRange stack i j) allowed := by
  intro event member
  rw [List.mem_singleton.mp member]
  exact widens _ ⟨starts, present⟩

theorem sees_swapPlaces {stack : Stack} {i j : Nat} (starts : 1 ≤ j) (above : j ≤ i)
    (present : i ≤ stack.length)
    : OnlySees (swapPlaces stack i j) allowed := by
  intro event member
  rcases List.mem_cons.mp member with rfl | member
  · exact widens _ ⟨Nat.le_trans starts above, present⟩
  · rw [List.mem_singleton.mp member]
    exact widens _ ⟨starts, Nat.le_trans above present⟩

theorem sees_sn {stack : Stack} {i maxSize : Nat} {minimal : Bool} {next : Int → Run α}
    (starts : 1 ≤ i) (present : i ≤ stack.length) (rest : ∀ value, OnlySees (next value) allowed)
    : OnlySees (snFromTop stack i minimal maxSize >>= next) allowed := by
  refine OnlySees.bind ?_ fun value _ => rest value
  exact sees_top widens starts present (OnlySees.quietly _)

theorem sees_verifyTail (isVerify : Bool) (item : Bytes) (stack : Stack) (fSuccess : Bool)
    (code : ScriptError)
    : OnlySees (verifyTailWhen isVerify (item :: stack) fSuccess code) allowed := by
  refine OnlySees.ite (fun _ => ?_) fun _ => OnlySees.pure _
  exact OnlySees.check fun _ => sees_pop widens Nat.le.refl (Nat.succ_pos _)

omit widens in
theorem sees_need {stack : Stack} {n : Nat} {next : Unit → Run α}
    (rest : n ≤ stack.length → OnlySees (next ()) allowed)
    : OnlySees (needItems stack n >>= next) allowed :=
  OnlySees.check fun present => rest (of_decide_eq_true present)

omit widens in
theorem sees_quietly {plain : Eval β} {next : β → Run α}
    (rest : ∀ value, OnlySees (next value) allowed)
    : OnlySees (quietly plain >>= next) allowed :=
  OnlySees.bind (OnlySees.quietly _) fun value _ => rest value

omit widens in
theorem sees_onStack (state : EvalState) {run : Run Stack} (sees : OnlySees run allowed)
    : OnlySees (onStack state run) allowed :=
  OnlySees.bind sees fun _ _ => OnlySees.pure _

omit widens in
theorem sees_stackNeed {state : EvalState} {n : Nat} {next : Unit → Run Stack}
    (rest : n ≤ state.stack.length → OnlySees (next ()) allowed)
    : OnlySees (onStack state (needItems state.stack n >>= next)) allowed :=
  sees_onStack state (sees_need rest)

end Pieces

/-- A handler without signatures looks only at places that exist; `OP_TUCK` stores the top as it
is. -/
theorem run_inBounds {allowed : Event → Prop}
    (widens : ∀ event : Event, event.InBounds → allowed event) (c : EvalCtx) (state : EvalState)
    (tucks : allowed (.store (Script.stackTop state.stack 1).length))
    (opcode : UInt8) {op : EvalOp} (plain : op.checksSignatures = false)
    : OnlySees (run c state opcode op) allowed := by
  cases op with
  | pushSmallInt => exact sees_onStack state (sees_push widens _ _)
  | nop => exact OnlySees.pure _
  | checklocktimeverify =>
    refine sees_onStack state ?_
    refine OnlySees.ite (fun _ => ?_) fun _ => OnlySees.check fun _ => OnlySees.pure _
    refine sees_need fun present => sees_sn widens (by omega) present fun _ => ?_
    exact OnlySees.check fun _ => OnlySees.check fun _ => OnlySees.pure _
  | upgradableNop => exact sees_onStack state (OnlySees.check fun _ => OnlySees.pure _)
  | ifNotif =>
    refine OnlySees.check fun present => OnlySees.ite (fun executing => ?_) fun _ => ?_
    · have one : 1 ≤ state.stack.length := by
        rw [executing] at present
        exact of_decide_eq_true present
      refine sees_top widens Nat.le.refl one (sees_pop_then widens Nat.le.refl one ?_)
      exact OnlySees.check fun _ => OnlySees.pure _
    · exact OnlySees.check fun _ => OnlySees.pure _
  | «else» => exact OnlySees.quietly _
  | endif => exact OnlySees.quietly _
  | verify =>
    refine sees_stackNeed fun present => sees_top widens Nat.le.refl present ?_
    exact OnlySees.check fun _ => sees_pop widens Nat.le.refl present
  | «return» => exact OnlySees.quietly _
  | toaltstack =>
    refine sees_need fun present => sees_top widens Nat.le.refl present ?_
    refine sees_push_then widens (sees_pop_then widens Nat.le.refl present ?_)
    exact OnlySees.pure _
  | fromaltstack =>
    refine OnlySees.check fun filled => ?_
    have present : 1 ≤ state.altstack.length := of_decide_eq_true filled
    refine sees_top widens Nat.le.refl present (sees_push_then widens ?_)
    exact sees_pop_then widens Nat.le.refl present (OnlySees.pure _)
  | drop2 =>
    exact sees_stackNeed fun present => sees_pop widens (by omega) present
  | dupOverPair =>
    refine sees_stackNeed fun present => ?_
    have deep : 2 ≤ if opcode = op2dup then 2 else 4 := by
      split
      · omega
      · omega
    refine sees_top widens (by omega) present (sees_top widens (by omega) (by omega) ?_)
    exact sees_push_then widens (sees_push widens _ _)
  | dup3 =>
    refine sees_stackNeed fun present => sees_top widens (by omega) present ?_
    refine sees_top widens (by omega) (by omega) (sees_top widens Nat.le.refl (by omega) ?_)
    exact sees_push_then widens (sees_push_then widens (sees_push widens _ _))
  | rot2 =>
    refine sees_stackNeed fun present => sees_top widens (by omega) present ?_
    refine sees_top widens (by omega) (by omega) ?_
    refine OnlySees.bind (sees_eraseRange widens (by omega) present) fun _ _ => ?_
    exact sees_push_then widens (sees_push widens _ _)
  | swap2 =>
    refine sees_stackNeed fun present => ?_
    refine OnlySees.bind (sees_swapPlaces widens (by omega) (by omega) (by omega)) ?_
    intro _ _
    refine OnlySees.bind (sees_swapPlaces widens (by omega) (by omega) (by omega)) ?_
    exact fun _ _ => OnlySees.quietly _
  | ifdup =>
    refine sees_stackNeed fun present => sees_top widens Nat.le.refl present ?_
    refine OnlySees.ite (fun _ => ?_) fun _ => OnlySees.pure _
    exact sees_top widens Nat.le.refl present (sees_push widens _ _)
  | depth => exact sees_onStack state (sees_push widens _ _)
  | drop =>
    exact sees_stackNeed fun present => sees_pop widens Nat.le.refl present
  | dupOver =>
    refine sees_stackNeed fun present => ?_
    have deep : 1 ≤ if opcode = opDup then 1 else 2 := by
      split
      · omega
      · omega
    exact sees_top widens deep present (sees_push widens _ _)
  | nip =>
    refine sees_stackNeed fun present => ?_
    exact sees_erase widens (by omega) present
  | pickRoll =>
    refine sees_stackNeed fun present => sees_sn widens Nat.le.refl (by omega) fun bn => ?_
    refine sees_pop_then widens Nat.le.refl (by omega) (OnlySees.check fun inside => ?_)
    have deep : (scriptNumGetInt bn).toNat + 1 ≤ (state.stack.drop 1).length := by
      simp only [Bool.and_eq_true, decide_eq_true_eq] at inside
      omega
    refine sees_top widens (by omega) deep ?_
    refine OnlySees.bind ?_ fun _ _ => sees_push widens _ _
    exact OnlySees.ite (fun _ => sees_erase widens (by omega) deep) fun _ => OnlySees.pure _
  | rot =>
    refine sees_stackNeed fun present => ?_
    refine OnlySees.bind (sees_swapPlaces widens (by omega) (by omega) (by omega)) ?_
    intro _ _
    refine OnlySees.bind (sees_swapPlaces widens (by omega) (by omega) (by omega)) ?_
    exact fun _ _ => OnlySees.quietly _
  | swap =>
    refine sees_stackNeed fun present => ?_
    refine OnlySees.bind (sees_swapPlaces widens (by omega) (by omega) (by omega)) ?_
    exact fun _ _ => OnlySees.quietly _
  | tuck =>
    refine sees_stackNeed fun present => sees_top widens Nat.le.refl (by omega) ?_
    refine OnlySees.check fun _ => sees_top widens (by omega) present ?_
    exact OnlySees.bind (OnlySees.see tucks) fun _ _ => OnlySees.pure _
  | size =>
    exact sees_stackNeed fun present => sees_top widens Nat.le.refl present (sees_push widens _ _)
  | equal =>
    refine sees_stackNeed fun present => sees_top widens (by omega) present ?_
    refine sees_top widens Nat.le.refl (by omega) (sees_pop_then widens (by omega) present ?_)
    exact sees_push_then widens (sees_verifyTail widens _ _ _ _ _)
  | unaryArith =>
    refine sees_stackNeed fun present => sees_sn widens Nat.le.refl present fun _ => ?_
    exact sees_pop_then widens Nat.le.refl present (sees_push widens _ _)
  | binaryArith =>
    refine sees_stackNeed fun present => sees_sn widens (by omega) present fun _ => ?_
    refine sees_sn widens Nat.le.refl (by omega) fun _ => ?_
    refine sees_pop_then widens (by omega) present (sees_push_then widens ?_)
    refine OnlySees.ite (fun _ => ?_) fun _ => OnlySees.pure _
    refine sees_top widens Nat.le.refl (Nat.succ_pos _) (OnlySees.check fun _ => ?_)
    exact sees_pop widens Nat.le.refl (Nat.succ_pos _)
  | within =>
    refine sees_stackNeed fun present => sees_sn widens (by omega) present fun _ => ?_
    refine sees_sn widens (by omega) (by omega) fun _ => ?_
    refine sees_sn widens Nat.le.refl (by omega) fun _ => ?_
    exact sees_pop_then widens (by omega) present (sees_push widens _ _)
  | hash =>
    refine sees_stackNeed fun present => sees_top widens Nat.le.refl present ?_
    exact sees_pop_then widens Nat.le.refl present (sees_push widens _ _)
  | checksig => cases plain
  | checkdatasig => cases plain
  | checkmultisig => cases plain

-- Places of the signature handlers

theorem sees_signatureVerifies (c : EvalCtx) (sig pubkey : Bytes)
    : OnlySees (signatureVerifies c sig pubkey) Event.InBoundsOrCheck := by
  intro event member
  simp only [signatureVerifies] at member
  split at member
  · rw [List.mem_singleton.mp member]
    trivial
  · exact (List.not_mem_nil member).elim

theorem sees_checkdatasigVerify (env : ScriptEnv) (sig msg pubkey : Bytes)
    : OnlySees (evalopCheckdatasigVerify env sig msg pubkey) Event.InBoundsOrCheck := by
  intro event member
  simp only [evalopCheckdatasigVerify] at member
  split at member
  · split at member
    · rw [List.mem_singleton.mp member]
      trivial
    · exact (List.not_mem_nil member).elim
  · exact (List.not_mem_nil member).elim

section

variable (c : EvalCtx)
include c

theorem evalopChecksig_inBounds (stack : Stack) (opcode : UInt8)
    : OnlySees (evalopChecksig c stack opcode) Event.InBoundsOrCheck := by
  have widens : ∀ event : Event, event.InBounds → event.InBoundsOrCheck := fun _ h => h.orCheck
  refine sees_need fun present => sees_top widens (by omega) present ?_
  refine sees_top widens Nat.le.refl (by omega) (sees_quietly fun _ => ?_)
  refine OnlySees.bind (sees_signatureVerifies c _ _) fun _ _ => sees_quietly fun _ => ?_
  refine sees_pop_then widens (by omega) present (sees_push_then widens ?_)
  exact sees_verifyTail widens _ _ _ _ _

theorem evalopCheckdatasig_inBounds (stack : Stack) (opcode : UInt8)
    : OnlySees (evalopCheckdatasig c stack opcode) Event.InBoundsOrCheck := by
  have widens : ∀ event : Event, event.InBounds → event.InBoundsOrCheck := fun _ h => h.orCheck
  refine sees_need fun present => sees_top widens (by omega) present ?_
  refine sees_top widens (by omega) (by omega) (sees_top widens Nat.le.refl (by omega) ?_)
  refine sees_quietly fun _ => sees_quietly fun _ => ?_
  refine OnlySees.bind (sees_checkdatasigVerify c.env _ _ _) fun _ _ => sees_quietly fun _ => ?_
  refine sees_pop_then widens (by omega) present (sees_push_then widens ?_)
  exact sees_verifyTail widens _ _ _ _ _

/-- The depths of the next signature and key stay within those that the layout found. -/
theorem evalopMultisigMatch_inBounds (stack : Stack) (nKeysCount isig ikey nSigsCount : Nat)
    (sigStarts : 1 ≤ isig) (keyStarts : 1 ≤ ikey)
    (sigsPresent : isig + nSigsCount ≤ stack.length + 1)
    (keysPresent : ikey + nKeysCount ≤ stack.length + 1)
    : OnlySees (evalopMultisigMatch c stack nKeysCount isig ikey nSigsCount)
        Event.InBoundsOrCheck := by
  have widens : ∀ event : Event, event.InBounds → event.InBoundsOrCheck := fun _ h => h.orCheck
  induction nKeysCount generalizing isig ikey nSigsCount with
  | zero => exact OnlySees.pure _
  | succ nKeysCount ih =>
    refine OnlySees.ite (fun _ => OnlySees.pure _) fun left => ?_
    refine sees_top widens sigStarts (by omega) (sees_top widens keyStarts (by omega) ?_)
    refine sees_quietly fun _ => OnlySees.bind (sees_signatureVerifies c _ _) fun fOk _ => ?_
    refine OnlySees.ite (fun _ => OnlySees.pure _) fun _ => ?_
    cases fOk with
    | false => exact ih isig (ikey + 1) nSigsCount sigStarts (by omega) sigsPresent (by omega)
    | true =>
      exact ih (isig + 1) (ikey + 1) (nSigsCount - 1) (by omega) (by omega)
        (by simp only [if_true] at *; omega) (by omega)

theorem multisigPops_inBounds (fSuccess : Bool) (pops ikey2 : Nat) (stack : Stack)
    (present : pops ≤ stack.length)
    : OnlySees (multisigPops c fSuccess pops ikey2 stack) Event.InBounds := by
  have widens : ∀ event : Event, event.InBounds → event.InBounds := fun _ h => h
  induction pops generalizing ikey2 stack with
  | zero => exact OnlySees.pure _
  | succ pops ih =>
    refine sees_top widens Nat.le.refl (by omega) (OnlySees.check fun _ => ?_)
    refine sees_pop_then widens Nat.le.refl (by omega) (ih (ikey2 - 1) (stack.drop 1) ?_)
    rw [List.length_drop]
    omega

theorem evalopMultisigLayout_inBounds (stack : Stack) (nOpCount : Nat)
    : OnlySees (evalopMultisigLayout c stack nOpCount) Event.InBounds := by
  have widens : ∀ event : Event, event.InBounds → event.InBounds := fun _ h => h
  refine sees_need fun present => sees_sn widens Nat.le.refl present fun _ => ?_
  refine OnlySees.check fun _ => OnlySees.check fun _ => sees_need fun keysPresent => ?_
  refine sees_sn widens (by omega) keysPresent fun _ => ?_
  exact OnlySees.check fun _ => sees_need fun _ => OnlySees.pure _

theorem evalopCheckmultisig_inBounds (stack : Stack) (nOpCount : Nat) (opcode : UInt8)
    : OnlySees (evalopCheckmultisig c stack nOpCount opcode) Event.InBoundsOrCheck := by
  have widens : ∀ event : Event, event.InBounds → event.InBoundsOrCheck := fun _ h => h.orCheck
  refine OnlySees.bind ((evalopMultisigLayout_inBounds c stack nOpCount).mono widens) ?_
  intro m read
  have fits := evalopMultisigLayout_fits c stack nOpCount m read
  have arguments := fits.arguments
  have present := fits.present
  have keys := fits.keys
  have sigs := fits.sigs
  refine OnlySees.bind ?_ fun fSuccess _ => ?_
  · exact evalopMultisigMatch_inBounds c stack _ _ _ _ (by omega) (by omega) (by omega) (by omega)
  · refine OnlySees.bind ?_ fun left _ => sees_push_then widens ?_
    · refine OnlySees.bind ?_ fun left _ => ?_
      · exact (multisigPops_inBounds c fSuccess _ _ stack (by omega)).mono widens
      · refine sees_need fun one => sees_top widens Nat.le.refl one (OnlySees.check fun _ => ?_)
        exact sees_pop widens Nat.le.refl one
    · exact OnlySees.bind (sees_verifyTail widens _ _ _ _ _) fun _ _ => OnlySees.pure _

-- Runs

theorem run_inBoundsOrCheck {state : EvalState} (sized : Sized state.stack) (opcode : UInt8)
    (op : EvalOp)
    : OnlySees (run c state opcode op) Event.InBoundsOrCheck := by
  cases checks : op.checksSignatures with
  | false => exact run_inBounds (fun _ h => h.orCheck) c state (sized.stackTop 1) opcode checks
  | true =>
    cases op with
    | checksig => exact sees_onStack state (evalopChecksig_inBounds c state.stack opcode)
    | checkdatasig => exact sees_onStack state (evalopCheckdatasig_inBounds c state.stack opcode)
    | checkmultisig =>
      refine OnlySees.bind (evalopCheckmultisig_inBounds c state.stack _ opcode) ?_
      exact fun _ _ => OnlySees.pure _
    | _ => cases checks

theorem evalopExecute_inBoundsOrCheck {state : EvalState} (sized : Sized state.stack)
    (opcode : UInt8) (data : Bytes)
    : OnlySees (evalopExecute c state opcode data) Event.InBoundsOrCheck := by
  refine OnlySees.ite (fun _ => ?_) fun _ => OnlySees.ite (fun _ => ?_) fun _ => OnlySees.pure _
  · exact sees_onStack state (OnlySees.check fun _ => sees_push (fun _ h => h.orCheck) _ _)
  · unfold evalopDispatch
    split
    · exact OnlySees.quietly _
    · exact run_inBoundsOrCheck c sized opcode _

end

end Watch

/-- Places exist, stored items are small, and the state after each opcode is within the limits. -/
def Event.Safe : Event → Prop
  | .ran state => state.Within
  | event => event.InBoundsOrCheck

theorem Event.InBoundsOrCheck.safe {event : Event} (h : event.InBoundsOrCheck) : event.Safe := by
  cases event with
  | ran state => exact h.elim
  | _ => exact h

namespace Watch

theorem evalopStep_safe (c : EvalCtx) {state : EvalState} (within : state.Within)
    : OnlySees (evalopStep c state) Event.Safe := by
  refine sees_quietly fun fetched => OnlySees.check fun _ => OnlySees.check fun counted => ?_
  have contained := within.fetched fetched.2.2 counted
  refine OnlySees.check fun _ => OnlySees.bind ?_ fun next ran => OnlySees.check fun items => ?_
  · exact (evalopExecute_inBoundsOrCheck c contained.stack _ _).mono fun _ h => h.safe
  · rw [result_evalopExecute] at ran
    have after := evalopExecute_contained c contained _ _ next ran
    refine OnlySees.bind (OnlySees.see ?_) fun _ _ => OnlySees.pure _
    exact { after with items := of_decide_eq_true items }

theorem evalLoop_safe (c : EvalCtx) (fuel : Nat) {state : EvalState} (within : state.Within)
    : OnlySees (evalLoop c fuel state) Event.Safe := by
  induction fuel generalizing state with
  | zero => exact OnlySees.pure _
  | succ fuel ih =>
    refine OnlySees.ite (fun _ => OnlySees.pure _) fun _ => ?_
    refine OnlySees.bind (evalopStep_safe c within) fun next ran => ih ?_
    rw [result_evalopStep] at ran
    exact evalopStep_within c within next ran

end Watch

/-- A run from a stack within the limits, watched without changing it, stays within them in every
event, whether it fails or not; and a verification never starts a redeem script from an empty
stack. -/
theorem evalScript_envelope (env : ScriptEnv) (flags : UInt32) (stack : Stack) (script : Bytes)
    (sized : ∀ item ∈ stack, item.length ≤ maxScriptElementSize)
    (items : stack.length ≤ maxStackItems) (scriptSig scriptPubKey : Bytes)
    (bound : hasFlag flags verifyCleanstack = true → hasFlag flags verifyP2sh = true)
    : (Watch.evalScript env flags stack script).result = evalScript env flags stack script
      ∧ (∀ event ∈ (Watch.evalScript env flags stack script).seen, event.Safe)
      ∧ verifyScript env flags scriptSig scriptPubKey ≠ .error .aborted := by
  have start : EvalState.Within { stack } := {
    stack := sized
    altstack := fun _ member => (List.not_mem_nil member).elim
    counted := Nat.zero_le _
    items := items }
  refine ⟨Watch.result_evalScript env flags stack script, ?_,
    verifyScript_not_aborted env flags scriptSig scriptPubKey bound⟩
  refine OnlySees.check fun _ => ?_
  refine OnlySees.bind (Watch.evalLoop_safe _ _ start) fun _ _ => ?_
  exact OnlySees.check fun _ => OnlySees.pure _

/-- `OP_PICK` of the top. -/
theorem evalScript_envelope_pick
    : (Watch.evalScript quietEnv 0 [[1]] [0x00, 0x79]).result = .ok [[1], [1]]
      ∧ (∀ event ∈ (Watch.evalScript quietEnv 0 [[1]] [0x00, 0x79]).seen, event.Safe) := by
  have envelope := evalScript_envelope quietEnv 0 [[1]] [0x00, 0x79] (by decide) (by decide) [] []
    (by decide)
  exact ⟨rfl, envelope.2.1⟩

end Z23.Script
