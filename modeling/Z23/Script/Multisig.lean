import Z23.Lib.Matching
import Z23.Script.SigOps

/-!
The check of several signatures. A scan from the last signature and the last key on finds an
assignment of signatures to keys in order whenever there is one, and the arguments leave the stack
for one truth value, unless an active rule about the operation count, failed signatures or the dummy
item refuses them.
-/

namespace Z23.Script

open Z23.Lib.Failing
open Z23.Lib.Matching

-- The arguments

/--
The items that a check of several signatures takes, keys and signatures in the order of the script,
in encodings that the flags allow.
-/
structure MultisigArgs (c : EvalCtx) where
  keys : List Bytes
  sigs : List Bytes
  keyCount : Bytes
  sigCount : Bytes
  dummy : Bytes
  readKeys
    : scriptNumFromBytes keyCount c.fRequireMinimal scriptNumDefaultMaxSize
        = .ok (keys.length : Int)
  readSigs
    : scriptNumFromBytes sigCount c.fRequireMinimal scriptNumDefaultMaxSize
        = .ok (sigs.length : Int)
  fewKeys : keys.length ≤ 20
  fewSigs : sigs.length ≤ keys.length
  sigsEncoded
    : ∀ sig ∈ sigs, checkTransactionSignatureEncoding c.env.checkLowS sig c.flags = .ok ()
  keysEncoded : ∀ key ∈ keys, checkPubkeyEncoding key c.flags = .ok ()

namespace MultisigArgs

variable {c : EvalCtx}

/-- The items on the stack, the top first. -/
def items (args : MultisigArgs c) : Stack :=
  args.keyCount :: (args.keys.reverse ++ args.sigCount :: (args.sigs.reverse ++ [args.dummy]))

/-- The signatures belong to different keys in the same order, each accepted by the checker. -/
def Assigned (args : MultisigArgs c) : Prop :=
  Increasing (fun sig key => signatureVerifies c sig key = true) args.sigs args.keys

theorem length_items (args : MultisigArgs c)
    : args.items.length = args.keys.length + args.sigs.length + 3 := by
  simp only [items, List.length_cons, List.length_append, List.length_reverse, List.length_nil]
  omega

end MultisigArgs

-- The parts of the check

section Parts

variable {c : EvalCtx}

theorem evalopMultisigMatch_eq {stack : Stack} {keys sigs : List Bytes} {isig ikey : Nat}
    (readKeys : ∀ j (inside : j < keys.length), stackTop stack (ikey + j) = keys[j])
    (readSigs : ∀ j (inside : j < sigs.length), stackTop stack (isig + j) = sigs[j])
    (sigsEncoded
      : ∀ sig ∈ sigs, checkTransactionSignatureEncoding c.env.checkLowS sig c.flags = .ok ())
    (keysEncoded : ∀ key ∈ keys, checkPubkeyEncoding key c.flags = .ok ())
    (few : sigs.length ≤ keys.length)
    : evalopMultisigMatch c stack keys.length isig ikey sigs.length
        = .ok (greedy (signatureVerifies c) sigs keys) := by
  induction keys generalizing sigs isig ikey with
  | nil =>
    cases sigs with
    | nil => rfl
    | cons sig sigs => exact absurd few (Nat.not_succ_le_zero _)
  | cons key keys ih =>
    cases sigs with
    | nil => rfl
    | cons sig sigs =>
      have keyHere : stackTop stack ikey = key := readKeys 0 (Nat.succ_pos _)
      have sigHere : stackTop stack isig = sig := readSigs 0 (Nat.succ_pos _)
      have encodings : checkEncodings c sig key = .ok () := by
        rw [checkEncodings, sigsEncoded sig List.mem_cons_self]
        exact keysEncoded key List.mem_cons_self
      have keysLeft : ∀ j (inside : j < keys.length), stackTop stack (ikey + 1 + j) = keys[j] := by
        intro j inside
        rw [Nat.add_assoc, Nat.add_comm 1 j]
        exact readKeys (j + 1) (Nat.succ_lt_succ inside)
      have sigsLeft : ∀ j (inside : j < sigs.length), stackTop stack (isig + 1 + j) = sigs[j] := by
        intro j inside
        rw [Nat.add_assoc, Nat.add_comm 1 j]
        exact readSigs (j + 1) (Nat.succ_lt_succ inside)
      have otherKeys := (List.forall_mem_cons.mp keysEncoded).2
      have otherSigs := (List.forall_mem_cons.mp sigsEncoded).2
      simp only [List.length_cons] at few ⊢
      rw [evalopMultisigMatch, if_neg (Nat.succ_ne_zero _), keyHere, sigHere, encodings, greedy]
      cases accepted : signatureVerifies c sig key with
      | true =>
        have enough : ¬ sigs.length > keys.length := by omega
        simp only [if_true, Nat.add_sub_cancel, enough, if_false]
        exact ih keysLeft sigsLeft otherSigs otherKeys (Nat.not_lt.mp enough)
      | false =>
        simp only [Bool.false_eq_true, if_false]
        by_cases short : sigs.length + 1 > keys.length
        · -- fewer keys than signatures are left
          have stuck : greedy (signatureVerifies c) (sig :: sigs) keys = false :=
            greedy_of_longer _ short
          rw [stuck]
          exact if_pos short
        · have more : sigs.length + 1 ≤ keys.length := Nat.not_lt.mp short
          refine (if_neg short).trans ?_
          exact @ih (sig :: sigs) isig (ikey + 1) keysLeft readSigs sigsEncoded otherKeys more

theorem scriptNumGetInt_small {n : Nat} (small : n ≤ 20) : scriptNumGetInt (n : Int) = n := by
  rw [scriptNumGetInt]
  omega

theorem stackTop_left {front : Stack} (back : Stack) {j : Nat} (inside : j < front.length)
    : stackTop (front ++ back) (j + 1) = front[j] := by
  rw [stackTop, Nat.add_sub_cancel, List.getD_eq_getElem?_getD, List.getElem?_append_left inside,
    List.getElem?_eq_getElem inside, Option.getD_some]

theorem stackTop_right (front back : Stack) (j : Nat)
    : stackTop (front ++ back) (front.length + j + 1) = stackTop back (j + 1) := by
  rw [stackTop, stackTop, Nat.add_sub_cancel, Nat.add_sub_cancel, List.getD_eq_getElem?_getD,
    List.getD_eq_getElem?_getD, List.getElem?_append_right (Nat.le_add_right _ _),
    Nat.add_sub_cancel_left]

section

variable (args : MultisigArgs c)
include args

theorem items_append (rest : Stack) : args.items ++ rest
        = args.keyCount :: (args.keys.reverse
            ++ args.sigCount :: (args.sigs.reverse ++ args.dummy :: rest)) := by
  simp only [MultisigArgs.items, List.cons_append, List.append_assoc, List.nil_append]

theorem stackTop_keys (rest : Stack) (j : Nat) (inside : j < args.keys.reverse.length)
    : stackTop (args.items ++ rest) (2 + j) = args.keys.reverse[j] := by
  rw [items_append, Nat.add_comm 2 j]
  exact stackTop_left _ inside

theorem stackTop_sigCount (rest : Stack)
    : stackTop (args.items ++ rest) (2 + args.keys.length) = args.sigCount := by
  have here := stackTop_right args.keys.reverse
    (args.sigCount :: (args.sigs.reverse ++ args.dummy :: rest)) 0
  rw [List.length_reverse] at here
  rw [items_append, Nat.add_comm 2]
  exact here

theorem stackTop_sigs (rest : Stack) (j : Nat) (inside : j < args.sigs.reverse.length)
    : stackTop (args.items ++ rest) (3 + args.keys.length + j) = args.sigs.reverse[j] := by
  have here := stackTop_right args.keys.reverse
    (args.sigCount :: (args.sigs.reverse ++ args.dummy :: rest)) (j + 1)
  rw [List.length_reverse] at here
  have place : 3 + args.keys.length + j = args.keys.length + (j + 1) + 1 + 1 := by omega
  rw [items_append, place]
  exact here.trans (stackTop_left (args.dummy :: rest) inside)

theorem evalopMultisigLayout_eq (rest : Stack) (nOpCount : Nat)
    : evalopMultisigLayout c (args.items ++ rest) nOpCount
        = if 201 < nOpCount + args.keys.length then .error .opCount
          else .ok {
            i := 3 + args.keys.length + args.sigs.length
            ikey := 2
            ikey2 := args.keys.length + 2
            isig := 3 + args.keys.length
            nKeysCount := args.keys.length
            nSigsCount := args.sigs.length
            nOpCount := nOpCount + args.keys.length } := by
  have fewKeys := args.fewKeys
  have fewSigs := args.fewSigs
  have size : (args.items ++ rest).length
      = args.keys.length + args.sigs.length + 3 + rest.length := by
    rw [List.length_append, args.length_items]
  have asksKeys : scriptNumGetInt (args.keys.length : Int) = args.keys.length :=
    scriptNumGetInt_small fewKeys
  have asksSigs : scriptNumGetInt (args.sigs.length : Int) = args.sigs.length :=
    scriptNumGetInt_small (fewSigs.trans fewKeys)
  rw [evalopMultisigLayout]
  refine (require_bind (decide_eq_true (by omega)) _ _).trans ?_
  refine (bind_ok args.readKeys _).trans ?_
  dsimp only
  rw [asksKeys, Int.toNat_natCast]
  refine (require_bind (by simp; omega) _ _).trans ?_
  split
  · rename_i many
    exact require_bind_error (decide_eq_false (by omega)) _ _
  · rename_i few
    refine (require_bind (decide_eq_true (by omega)) _ _).trans ?_
    refine (require_bind (decide_eq_true (by omega)) _ _).trans ?_
    rw [snFromTop, stackTop_sigCount]
    refine (bind_ok args.readSigs _).trans ?_
    rw [asksSigs, Int.toNat_natCast]
    refine (require_bind (by simp; omega) _ _).trans ?_
    exact require_bind (decide_eq_true (by omega)) _ _

end

theorem multisigPops_front (fSuccess : Bool) (pops : Nat) {front : Stack} (back : Stack)
    {ikey2 : Nat} (covered : front.length ≤ ikey2)
    : multisigPops c fSuccess (front.length + pops) ikey2 (front ++ back)
        = multisigPops c fSuccess pops (ikey2 - front.length) back := by
  induction front generalizing ikey2 with
  | nil => rw [List.length_nil, Nat.zero_add, Nat.sub_zero, List.nil_append]
  | cons item front ih =>
    rw [List.length_cons] at covered ⊢
    have unchecked : (ikey2 == 0) = false := beq_false_of_ne (by omega)
    rw [Nat.succ_add, multisigPops]
    refine (require_bind (by rw [unchecked, Bool.and_false, Bool.false_and]; rfl) _ _).trans ?_
    refine (ih (by omega)).trans ?_
    rw [Nat.sub_sub, Nat.add_comm 1]

theorem multisigPops_sigs (fSuccess : Bool) (sigs back : Stack)
    : multisigPops c fSuccess sigs.length 0 (sigs ++ back)
        = if !fSuccess && hasFlag c.flags verifyNullfail && sigs.any fun sig => sig.length > 0 then
            .error .sigNullfail
          else .ok back := by
  induction sigs with
  | nil =>
    rw [List.any_nil, Bool.and_false]
    rfl
  | cons sig sigs ih =>
    rw [List.length_cons, multisigPops, List.any_cons]
    have top : stackTop (sig :: sigs ++ back) 1 = sig := rfl
    rw [top]
    cases bad : !fSuccess && hasFlag c.flags verifyNullfail with
    | false =>
      rw [bad] at ih
      refine (require_bind (by rw [Bool.false_and, Bool.false_and]; rfl) _ _).trans ?_
      exact ih
    | true =>
      rw [bad] at ih
      cases empty : decide (sig.length > 0) with
      | true => exact require_bind_error rfl _ _
      | false => exact (require_bind rfl _ _).trans ih

theorem evalopMultisigCleanup_eq (args : MultisigArgs c) (rest : Stack) (m : MultisigLayout)
    (items : m.i = 3 + args.keys.length + args.sigs.length)
    (front : m.ikey2 = args.keys.length + 2) (fSuccess : Bool)
    : evalopMultisigCleanup c (args.items ++ rest) m fSuccess
        = if !fSuccess && hasFlag c.flags verifyNullfail
              && args.sigs.any fun sig => sig.length > 0 then
            .error .sigNullfail
          else if hasFlag c.flags verifyNulldummy && args.dummy.length > 0 then
            .error .sigNulldummy
          else .ok rest := by
  have split : args.items ++ rest
      = (args.keyCount :: (args.keys.reverse ++ [args.sigCount]))
        ++ (args.sigs.reverse ++ args.dummy :: rest) := by
    rw [items_append]
    simp only [List.cons_append, List.append_assoc, List.nil_append]
  have length : (args.keyCount :: (args.keys.reverse ++ [args.sigCount])).length
      = args.keys.length + 2 := by
    rw [List.length_cons, List.length_append, List.length_reverse, List.length_singleton]
  have pops : m.i - 1 = (args.keyCount :: (args.keys.reverse ++ [args.sigCount])).length
      + args.sigs.reverse.length := by
    rw [length, items, List.length_reverse]
    omega
  rw [evalopMultisigCleanup, pops, split, multisigPops_front _ _ _ (by rw [length, front]), front,
    length, Nat.sub_self, multisigPops_sigs, List.any_reverse]
  split
  · rfl
  · have top : stackTop (args.dummy :: rest) 1 = args.dummy := rfl
    have some : 1 ≤ (args.dummy :: rest).length := Nat.le_add_left _ _
    refine (bind_ok rfl _).trans ?_
    refine (require_bind (decide_eq_true some) _ _).trans ?_
    rw [top]
    split
    · rename_i refused
      exact require_bind_error (by rw [refused]; rfl) _ _
    · rename_i allowed
      exact require_bind (by rw [Bool.eq_false_iff.mpr allowed]; rfl) _ _

end Parts

-- The check

/--
The check answers whether the signatures can be assigned to keys in order, and its arguments leave
the stack for that answer, unless too many operations were counted, a failed signature has to be
empty and is not, or the dummy item has to be empty and is not.
-/
theorem evalopCheckmultisig_assigned (c : EvalCtx) (args : MultisigArgs c) (rest : Stack)
    (nOpCount : Nat) (fits : (args.items ++ rest).length ≤ maxStackItems)
    : ∃ fSuccess : Bool, (fSuccess = true ↔ args.Assigned)
      ∧ args.items.length = args.keys.length + args.sigs.length + 3
      ∧ evalopCheckmultisig c (args.items ++ rest) nOpCount opCheckmultisig
        = if 201 < nOpCount + args.keys.length then .error .opCount
          else if !fSuccess && hasFlag c.flags verifyNullfail
              && args.sigs.any fun sig => sig.length > 0 then
            .error .sigNullfail
          else if hasFlag c.flags verifyNulldummy && args.dummy.length > 0 then
            .error .sigNulldummy
          else .ok ((if fSuccess then [1] else []) :: rest, nOpCount + args.keys.length) := by
  have scanned := @evalopMultisigMatch_eq c (args.items ++ rest) args.keys.reverse
    args.sigs.reverse (3 + args.keys.length) 2 (stackTop_keys args rest) (stackTop_sigs args rest)
    (fun sig member => args.sigsEncoded sig (List.mem_reverse.mp member))
    (fun key member => args.keysEncoded key (List.mem_reverse.mp member))
    (by rw [List.length_reverse, List.length_reverse]; exact args.fewSigs)
  rw [List.length_reverse, List.length_reverse] at scanned
  refine ⟨greedy (signatureVerifies c) args.sigs.reverse args.keys.reverse, ?_, args.length_items, ?_⟩
  · rw [greedy_iff, sublistForall₂_reverse, MultisigArgs.Assigned, increasing_iff]
  · generalize greedy (signatureVerifies c) args.sigs.reverse args.keys.reverse = fSuccess at scanned
    rw [evalopCheckmultisig, evalopMultisigLayout_eq]
    split
    · rfl
    · refine (bind_ok scanned _).trans ?_
      rw [evalopMultisigCleanup_eq args rest _ rfl rfl]
      split
      · rfl
      · split
        · rfl
        · have room : rest.length < maxStackItems := by
            rw [List.length_append, args.length_items] at fits
            omega
          have pushed : evalopPushBool rest fSuccess
              = .ok ((if fSuccess then [1] else []) :: rest) := by
            have short : (if fSuccess then [1] else [] : Bytes).length ≤ maxScriptElementSize := by
              cases fSuccess <;> decide
            exact require_bind (by rw [decide_eq_true room, decide_eq_true short]; rfl) _ _
          exact bind_ok pushed _

/-- One empty signature for two keys, with a hook that accepts it. -/
def oneOfTwoArgs : MultisigArgs ⟨acceptingEnv, [], 0⟩ where
  keys := [[2], [3]]
  sigs := [[]]
  keyCount := [2]
  sigCount := [1]
  dummy := []
  readKeys := by decide
  readSigs := by decide
  fewKeys := by decide
  fewSigs := by decide
  sigsEncoded := by decide
  keysEncoded := by decide

theorem evalopCheckmultisig_assigned_oneOfTwo
    : oneOfTwoArgs.Assigned
      ∧ evalopCheckmultisig ⟨acceptingEnv, [], 0⟩ (oneOfTwoArgs.items ++ [[7]]) 0 opCheckmultisig
        = .ok ([[1], [7]], 2) := by
  obtain ⟨fSuccess, assigned, -, outcome⟩ :=
    evalopCheckmultisig_assigned ⟨acceptingEnv, [], 0⟩ oneOfTwoArgs [[7]] 0 (by decide)
  have answer : evalopCheckmultisig ⟨acceptingEnv, [], 0⟩ (oneOfTwoArgs.items ++ [[7]]) 0
      opCheckmultisig = .ok ([[1], [7]], 2) := by decide
  cases fSuccess with
  | true => exact ⟨assigned.mp rfl, answer⟩
  | false =>
    rw [answer] at outcome
    exact absurd outcome (by decide)

/-- No keys and no signatures, with a dummy item that is not empty. -/
def dummyArgs : MultisigArgs ⟨quietEnv, [], verifyNulldummy⟩ where
  keys := []
  sigs := []
  keyCount := []
  sigCount := []
  dummy := [1]
  readKeys := by decide
  readSigs := by decide
  fewKeys := by decide
  fewSigs := by decide
  sigsEncoded := by decide
  keysEncoded := by decide

/-- Under the rule of the empty dummy item the arguments do not always leave the stack. -/
theorem evalopCheckmultisig_not_total
    : ¬ ∀ (c : EvalCtx) (args : MultisigArgs c) (rest : Stack) (nOpCount : Nat),
        (args.items ++ rest).length ≤ maxStackItems →
        ∃ (fSuccess : Bool) (count : Nat), (fSuccess = true ↔ args.Assigned)
          ∧ evalopCheckmultisig c (args.items ++ rest) nOpCount opCheckmultisig
            = .ok ((if fSuccess then [1] else []) :: rest, count) := by
  intro total
  obtain ⟨fSuccess, count, -, answer⟩ :=
    total ⟨quietEnv, [], verifyNulldummy⟩ dummyArgs [] 0 (by decide)
  have refused : evalopCheckmultisig ⟨quietEnv, [], verifyNulldummy⟩ (dummyArgs.items ++ []) 0
      opCheckmultisig = .error .sigNulldummy := by decide
  rw [refused] at answer
  cases answer

end Z23.Script
