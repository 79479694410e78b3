import Z23.Validation.UpdateCoins

/-!
The value of a coins view: what spending an input takes out of it, and what the record of a
transaction adds to it.
-/

namespace Z23.Validation

open Z23.Lib.FiniteMap

-- Records

/-- The exact value of an output; a null one has none. -/
def outputValue (out : TxOut) : Int := if out.isNull then 0 else out.value.toInt

def recordValue (c : Coins) : Int := (c.vout.map outputValue).sum

/-- The total value of the available outputs of a view. -/
def totalValue (view : CoinsView) : Int := total (fun _ c => recordValue c) view

/-- The available outputs of every record are amounts. -/
def ValidView (view : CoinsView) : Prop :=
  ∀ txid c, view.lookup txid = some c → newOutputsInRange c = true

theorem outputValue_null : outputValue .null = 0 := by decide

theorem outputValue_of_notNull {out : TxOut} (notNull : out.isNull = false)
    : outputValue out = out.value.toInt := by
  simp [outputValue, notNull]

theorem sum_outputValue_set {outs : List TxOut} {pos : Nat} {out : TxOut}
    (at_ : outs[pos]? = some out)
    : ((outs.set pos .null).map outputValue).sum + outputValue out
        = (outs.map outputValue).sum := by
  induction outs generalizing pos with
  | nil => cases at_
  | cons first rest ih =>
    cases pos with
    | zero =>
      cases at_
      simp only [List.set_cons_zero, List.map_cons, List.sum_cons, outputValue_null]
      omega
    | succ pos =>
      have tail := ih at_
      simp only [List.set_cons_succ, List.map_cons, List.sum_cons]
      omega

variable {c : Coins}

theorem recordValue_spend {pos : Nat} {out : TxOut} (available : c.available pos = some out)
    : recordValue { c with vout := c.vout.set pos .null } + out.value.toInt = recordValue c := by
  obtain ⟨at_, notNull⟩ := Coins.available_eq_some.mp available
  rw [← outputValue_of_notNull notNull]
  exact sum_outputValue_set at_

theorem recordValue_nonneg (inRange : newOutputsInRange c = true)
    : 0 ≤ recordValue c := by
  refine List.sum_nonneg fun value member => ?_
  obtain ⟨out, isOut, rfl⟩ := List.mem_map.mp member
  have amount := List.all_eq_true.mp inRange out isOut
  cases null : out.isNull with
  | true => simp [outputValue, null]
  | false =>
    rw [null, Bool.false_or, moneyRange_iff] at amount
    rw [outputValue_of_notNull null]
    exact amount.1

theorem recordValue_cleanup (c : Coins) : recordValue (coinsMathCleanup c) = recordValue c := by
  obtain ⟨isCoinbase, vout, height, version⟩ := c
  induction vout using List.reverseRecOn with
  | nil => rfl
  | append_singleton outs last ih =>
    simp only [recordValue, coinsMathCleanup] at ih ⊢
    cases null : last.isNull with
    | true =>
      rw [List.rdropWhile_concat_pos _ _ _ null, ih]
      simp [outputValue, null]
    | false => rw [List.rdropWhile_concat_neg _ _ _ (by simp [null])]

theorem recordValue_coinsFromTransaction_le {tx : Transaction} {height : Int32}
    (created : coinsFromTransaction tx height = some c)
    (nonneg : ∀ out ∈ tx.vout, 0 ≤ out.value.toInt) : recordValue c ≤ transparentOut tx := by
  rw [coinsFromTransaction] at created
  split at created
  · cases created
  cases created
  rw [recordValue_cleanup, recordValue, transparentOut, sumInt, List.map_map, List.map_map]
  refine List.sum_le_sum fun out member => ?_
  have least := nonneg out member
  simp only [Function.comp_apply]
  split
  · rw [outputValue_null]
    exact least
  · rw [outputValue]
    split
    · exact least
    · exact le_refl _

-- Writing a record

theorem totalValue_insert (view : CoinsView) (txid : Uint256) (c : Coins)
    : totalValue (view.insert txid c) + (view.lookup txid).elim 0 recordValue
        = recordValue c + totalValue view :=
  total_insert (fun _ c => recordValue c) view txid c

variable {view : CoinsView}

theorem ValidView.insert (valid : ValidView view) {txid : Uint256}
    (inRange : newOutputsInRange c = true) : ValidView (view.insert txid c) := by
  intro other c' found
  rw [lookup_insert_eq] at found
  split at found
  · cases found
    exact inRange
  · exact valid other c' found

theorem ValidView.totalValue_insert_le (valid : ValidView view) (txid : Uint256) (c : Coins)
    : totalValue (view.insert txid c) ≤ totalValue view + recordValue c := by
  have replaced := totalValue_insert view txid c
  have overwritten : 0 ≤ (view.lookup txid).elim 0 recordValue := by
    cases found : view.lookup txid with
    | none => exact le_refl _
    | some old => exact recordValue_nonneg (valid txid old found)
  omega

theorem getOutputFor_insert_of_ne {txid : Uint256} {op : Outpoint} (different : op.hash ≠ txid)
    : coinsViewCacheGetOutputFor (view.insert txid c) op = coinsViewCacheGetOutputFor view op := by
  simp only [coinsViewCacheGetOutputFor, lookup_insert_eq, if_neg different]

-- Spending inputs

theorem Coins.available_set (c : Coins) (pos other : Nat)
    : Coins.available { c with vout := c.vout.set pos .null } other
        = if other = pos then none else c.available other := by
  refine Option.ext fun out => ?_
  simp only [Coins.available_eq_some, List.getElem?_set]
  split
  · rename_i same
    subst same
    split
    · simp only [Option.some.injEq, if_true, reduceCtorEq, iff_false, not_and]
      rintro rfl
      decide
    · simp
  · rename_i different
    rw [if_neg (Ne.symm different), Coins.available_eq_some]

variable {view' : CoinsView} {undo : TxInUndo}

section

variable {input : TxIn} {out : TxOut} (spent : InputSpent view input view' undo c out)
include spent

theorem InputSpent.getOutputFor (op : Outpoint) : coinsViewCacheGetOutputFor view' op
        = if op = input.prevout then none else coinsViewCacheGetOutputFor view op := by
  rw [spent.view]
  by_cases sameHash : op.hash = input.prevout.hash
  · have position : op.n.toNat = input.prevout.n.toNat ↔ op = input.prevout := by
      rw [UInt32.toNat_inj]
      exact ⟨fun samePos => Outpoint.ext sameHash samePos, fun same => by rw [same]⟩
    have before : coinsViewCacheGetOutputFor view op = c.available op.n.toNat := by
      rw [coinsViewCacheGetOutputFor, sameHash, spent.found, Option.bind_some]
    rw [before]
    simp only [coinsViewCacheGetOutputFor, lookup_insert_eq, sameHash, if_true,
      Option.bind_some, Coins.available_set, position]
  · have different : op ≠ input.prevout := fun same => sameHash (by rw [same])
    rw [getOutputFor_insert_of_ne sameHash, if_neg different]

theorem InputSpent.getOutputFor_before
    : coinsViewCacheGetOutputFor view input.prevout = some out := by
  simp [coinsViewCacheGetOutputFor, spent.found, spent.available]

theorem InputSpent.totalValue : totalValue view = totalValue view' + out.value.toInt := by
  have replaced := totalValue_insert view input.prevout.hash
    { c with vout := c.vout.set input.prevout.n.toNat .null }
  have taken := recordValue_spend spent.available
  rw [spent.found, Option.elim_some, ← spent.view] at replaced
  omega

theorem InputSpent.validView (valid : ValidView view) : ValidView view' := by
  rw [spent.view]
  refine valid.insert (List.all_eq_true.mpr fun other member => ?_)
  rcases List.mem_or_eq_of_mem_set member with kept | rfl
  · exact List.all_eq_true.mp (valid _ c spent.found) other kept
  · rfl

end

/-- The exact value of the outputs that a list of inputs finds in a view. -/
def inputsValue (view : CoinsView) (inputs : List TxIn) : Int :=
  (inputs.map fun input =>
    ((coinsViewCacheGetOutputFor view input.prevout).elim 0 fun out => out.value.toInt)).sum

/-- What spending a list of inputs does to a view. -/
structure InputsSpent (view : CoinsView) (inputs : List TxIn) (view' : CoinsView) : Prop where
  outputs : ∀ op, coinsViewCacheGetOutputFor view' op
    = if op ∈ inputs.map TxIn.prevout then none else coinsViewCacheGetOutputFor view op
  valid : ValidView view → ValidView view'
  value : (inputs.map TxIn.prevout).Nodup →
    totalValue view = totalValue view' + inputsValue view inputs

theorem spendInputs_eq_some {inputs : List TxIn} {undos : List TxInUndo}
    (spent : spendInputs view inputs = some (view', undos)) : InputsSpent view inputs view' := by
  induction inputs generalizing view undos with
  | nil =>
    cases spent
    exact { outputs := by simp, valid := id, value := by simp [inputsValue] }
  | cons input rest ih =>
    obtain ⟨middle, undo, undos', first, others, rfl⟩ := spendInputs_cons_eq_some spent
    obtain ⟨c, out, step⟩ := spendInput_eq_some first
    have tail := ih others
    refine { outputs := ?_, valid := fun valid => tail.valid (step.validView valid), value := ?_ }
    · intro op
      rw [tail.outputs, step.getOutputFor]
      by_cases here : op = input.prevout <;>
        by_cases later : op ∈ rest.map TxIn.prevout <;> simp [here, later]
    · intro distinct
      rw [List.map_cons, List.nodup_cons] at distinct
      have unchanged : inputsValue middle rest = inputsValue view rest := by
        refine congrArg List.sum (List.map_congr_left fun other member => ?_)
        have different : other.prevout ≠ input.prevout := fun same =>
          distinct.1 (same ▸ List.mem_map_of_mem member)
        rw [step.getOutputFor, if_neg different]
      have taken := step.totalValue
      have left := tail.value distinct.2
      simp only [inputsValue, List.map_cons, List.sum_cons, step.getOutputFor_before,
        Option.elim_some] at left unchanged ⊢
      omega

-- Updating with a transaction

/-- The inputs that a transaction spends; a coinbase spends none. -/
def spendingInputs (tx : Transaction) : List TxIn :=
  if transactionIsCoinbase tx then [] else tx.vin

theorem spentOutpoints_eq (tx : Transaction)
    : spentOutpoints tx = (spendingInputs tx).map TxIn.prevout := by
  rw [spentOutpoints, spendingInputs]
  split <;> rfl

/-- What updating a view with a transaction does to it. -/
structure CoinsUpdated (tx : Transaction) (view view' : CoinsView) : Prop where
  unspent : ∀ op, op.hash ≠ tx.hash → coinsViewCacheGetOutputFor view' op
    = if op ∈ spentOutpoints tx then none else coinsViewCacheGetOutputFor view op
  valid : ValidView view → ValidView view'
  value : ValidView view → (spentOutpoints tx).Nodup → (∀ out ∈ tx.vout, 0 ≤ out.value.toInt) →
    totalValue view' + inputsValue view (spendingInputs tx) ≤ totalValue view + transparentOut tx

theorem coinsUpdated {tx : Transaction} {height : Int32} {undo : List TxInUndo}
    (updated : updateCoinsWithUndo tx view height = some (view', undo))
    : CoinsUpdated tx view view' := by
  obtain ⟨spent, coins, inputs, created, inRange, rfl⟩ := updateCoinsWithUndo_eq_some updated
  have effect : InputsSpent view (spendingInputs tx) spent := by
    rw [spendTransaction] at inputs
    rw [spendingInputs]
    split at inputs
    · rename_i coinbase
      rw [if_pos coinbase]
      exact spendInputs_eq_some inputs
    · rename_i ordinary
      rw [if_neg ordinary]
      exact spendInputs_eq_some inputs
  refine { unspent := ?_, valid := ?_, value := ?_ }
  · intro op different
    rw [getOutputFor_insert_of_ne different, effect.outputs, spentOutpoints_eq]
  · intro valid
    exact (effect.valid valid).insert inRange
  · intro valid distinct nonneg
    rw [spentOutpoints_eq] at distinct
    have taken := effect.value distinct
    have written := (effect.valid valid).totalValue_insert_le tx.hash coins
    have bounded := recordValue_coinsFromTransaction_le created nonneg
    omega

end Z23.Validation
