import Z23.Jobs.UtxoApplyDelta

/-!
What an accepted fold records: every spent entry is the coin of the table extended by the block's
own outputs, and every created output is new to that table.
-/

namespace Z23.Jobs

open Z23.Consensus Z23.Lib Z23.Lib.FiniteMap Z23.Lib.FoldM Z23.Storage

-- Rows of the coin table

/--
The row that `apply_coins_kv` writes for a created output: it stamps the block height.
-/
def DeltaEntry.addRow (height : UInt32) (e : DeltaEntry) : Outpoint × Coin :=
  (e.outpoint, ⟨e.value, height.toInt32, e.isCoinbase, e.script⟩)

/-- The row that a spent entry restores. -/
def DeltaEntry.restoreRow (e : DeltaEntry) : Outpoint × Coin :=
  (e.outpoint, ⟨e.value, e.height.toInt32, e.isCoinbase, e.script⟩)

/-- The table extended by the outputs created so far. -/
def withAdded (coins : CoinTable) (height : UInt32) (added : List DeltaEntry) : CoinTable :=
  putAll coins (added.map (DeltaEntry.addRow height))

/-- A lookup that answers exactly from a coin set whenever it does not fail. -/
def AnswersFrom (lookup : LookupFn) (coins : CoinTable) : Prop :=
  ∀ op lk, lookup op = some lk →
    match coins.lookup op with
    | none => lk.found = false
    | some coin =>
      lk.found = true ∧ lk.value = coin.value ∧ lk.height = coin.height.toUInt32
        ∧ lk.isCoinbase = coin.isCoinbase ∧ lk.script = coin.script

/-- The answer a coin set gives, as the live lookup fills it in. -/
def lookupFrom (coins : CoinTable) : LookupFn := fun op =>
  match coins.lookup op with
  | none => some {}
  | some coin =>
    some { found := true, value := coin.value, height := coin.height.toUInt32,
           isCoinbase := coin.isCoinbase, script := coin.script }

theorem lookupFrom_answersFrom (coins : CoinTable) : AnswersFrom (lookupFrom coins) coins := by
  intro op lk answer
  rw [lookupFrom] at answer
  cases inTable : coins.lookup op with
  | none =>
    simp only [inTable, Option.some.injEq] at answer
    simp [← answer]
  | some coin =>
    simp only [inTable, Option.some.injEq] at answer
    simp [← answer]

theorem map_fst_addRow (height : UInt32) (added : List DeltaEntry)
    : (added.map (DeltaEntry.addRow height)).map Prod.fst
        = added.map DeltaEntry.outpoint := by
  simp [DeltaEntry.addRow]

theorem map_fst_restoreRow (spent : List DeltaEntry)
    : (spent.map DeltaEntry.restoreRow).map Prod.fst = spent.map DeltaEntry.outpoint := by
  simp [DeltaEntry.restoreRow]

-- The records invariant

/--
The records kept while folding a block over the coin set `coins`. `txs` are the transactions of
the block, which the index was sized for.
-/
structure Records (coins : CoinTable) (height : UInt32) (txs : List Transaction)
    (idx : AddedIndex) (out : DeltaSummary) : Prop where
  indexes : idx.Indexes out.added
  sized : idx.slots = [] → ∀ tx ∈ txs, tx.vout = []
  fresh : ∀ e ∈ out.added, e.outpoint ∉ coins
  restores
    : ∀ e ∈ out.spent,
        (withAdded coins height out.added).lookup e.outpoint = some e.restoreRow.2
  scripts : ∀ e ∈ out.spent, e.script.length ≤ utxoApplyScriptMax
  addedScripts : ∀ e ∈ out.added, e.script.length ≤ maxScriptSize

variable {cfg : ApplyConfig} {coins : CoinTable} {height : UInt32} {txs : List Transaction}
  {idx : AddedIndex} {out : DeltaSummary} {lookup : LookupFn}

/-- Reading the extended table: the block's own outputs first, then the old coins. -/
theorem Records.lookup_withAdded (records : Records coins height txs idx out) (op : Outpoint)
    : (withAdded coins height out.added).lookup op
        = match out.added.find? (·.outpoint = op) with
          | some e => some (e.addRow height).2
          | none => coins.lookup op := by
  cases found : out.added.find? (·.outpoint = op) with
  | none =>
    apply lookup_putAll_of_notMem
    rw [map_fst_addRow]
    intro member
    obtain ⟨e, inAdded, sameOp⟩ := List.mem_map.mp member
    exact List.find?_eq_none.mp found e inAdded (by simpa using sameOp)
  | some e =>
    have inAdded := List.mem_of_find?_eq_some found
    have sameOp : e.outpoint = op := by simpa using List.find?_some found
    apply lookup_putAll_of_agree
    · rw [map_fst_addRow, ← sameOp]
      exact List.mem_map_of_mem inAdded
    · intro row rowMember rowOp
      obtain ⟨other, otherAdded, rfl⟩ := List.mem_map.mp rowMember
      have otherOp : other.outpoint = e.outpoint := rowOp.trans sameOp.symm
      rw [List.inj_on_of_nodup_map records.indexes.distinct otherAdded inAdded otherOp]

theorem utxoDeltaResolvePrevout_ok {op : Outpoint} {se : DeltaEntry}
    (records : Records coins height txs idx out) (answers : AnswersFrom lookup coins)
    (resolved : utxoDeltaResolvePrevout height lookup out idx op = .ok se)
    : se.outpoint = op
        ∧ (withAdded coins height out.added).lookup op = some se.restoreRow.2
        ∧ (op ∈ coins ∨ op ∈ out.added.map DeltaEntry.outpoint) := by
  rw [utxoDeltaResolvePrevout, records.indexes.lookup_eq] at resolved
  rw [records.lookup_withAdded]
  cases found : out.added.find? (·.outpoint = op) with
  | some intra =>
    simp only [found, Except.ok.injEq] at resolved
    subst resolved
    refine ⟨rfl, rfl, .inr ?_⟩
    have sameOp : intra.outpoint = op := by simpa using List.find?_some found
    exact sameOp ▸ List.mem_map_of_mem (List.mem_of_find?_eq_some found)
  | none =>
    simp only [found] at resolved
    split at resolved
    · simp [internalFail] at resolved
    rename_i lk answer
    have meaning := answers op lk answer
    split at resolved
    · rename_i isFound
      obtain rfl := Except.ok.inj resolved
      cases inTable : coins.lookup op with
      | none => simp [inTable, isFound] at meaning
      | some coin =>
        simp only [inTable] at meaning
        obtain ⟨-, valueEq, heightEq, coinbaseEq, scriptEq⟩ := meaning
        refine ⟨rfl, ?_, .inl (Finmap.mem_of_lookup_eq_some inTable)⟩
        simp [DeltaEntry.restoreRow, valueEq, heightEq, coinbaseEq, scriptEq]
    · simp [deltaFail] at resolved

theorem utxoDeltaRejectBadValue_ok {value : Int64} {kind : FailureKind} {op : Outpoint}
    (accepted : utxoDeltaRejectBadValue out value kind op = .ok ())
    : moneyRange value = true := by
  rw [utxoDeltaRejectBadValue] at accepted
  split at accepted
  · simp [deltaFail] at accepted
  · rename_i inRange
    rw [moneyRange_iff]
    simp only [Bool.or_eq_true, decide_eq_true_eq, not_or, Int64.lt_iff_toInt_lt, maxMoney,
      gt_iff_lt] at inRange
    have zero : (0 : Int64).toInt = 0 := by decide
    have most : (2100000000000000 : Int64).toInt = 2100000000000000 := by decide
    omega

theorem utxoDeltaFoldOneSpend_ok {st st' : SpendState} {op : Outpoint}
    (records : Records coins height txs idx st.out) (answers : AnswersFrom lookup coins)
    (run : utxoDeltaFoldOneSpend cfg height lookup idx st op = .ok st')
    : ∃ se : DeltaEntry, se.outpoint = op ∧ moneyRange se.value = true
        ∧ st'.out.spent = st.out.spent ++ [se] ∧ st'.out.added = st.out.added
        ∧ st'.txInputValue = st.txInputValue + se.value
        ∧ (op ∈ coins ∨ op ∈ st.out.added.map DeltaEntry.outpoint)
        ∧ Records coins height txs idx st'.out := by
  simp only [utxoDeltaFoldOneSpend, bind_eq_ok, pure, Except.pure, Except.ok.injEq] at run
  obtain ⟨se, resolved, _, valueOk, _, -, _, scriptOk, rfl⟩ := run
  obtain ⟨seOp, restored, known⟩ := utxoDeltaResolvePrevout_ok records answers resolved
  refine ⟨se, seOp, utxoDeltaRejectBadValue_ok valueOk, rfl, rfl, rfl, known, ?_⟩
  refine ⟨records.indexes, records.sized, records.fresh, ?_, ?_, records.addedScripts⟩
  · intro e member
    rcases List.mem_append.mp member with old | new
    · exact records.restores e old
    · obtain rfl := List.mem_singleton.mp new
      rw [seOp]
      exact restored
  · intro e member
    rcases List.mem_append.mp member with old | new
    · exact records.scripts e old
    · obtain rfl := List.mem_singleton.mp new
      rw [utxoDeltaOwnRestoreScript] at scriptOk
      split at scriptOk
      · simp [internalFail] at scriptOk
      · omega

/-- What the loop over a transaction's inputs leaves behind. -/
structure SpendsFolded (coins : CoinTable) (out : DeltaSummary) (ops : List Outpoint)
    (st : SpendState) (ses : List DeltaEntry) : Prop where
  spent : st.out.spent = out.spent ++ ses
  added : st.out.added = out.added
  outpoints : ses.map DeltaEntry.outpoint = ops
  inRange : ∀ e ∈ ses, moneyRange e.value = true
  inputValue : st.txInputValue.toInt ≤ sumInt (ses.map DeltaEntry.value)
  known : ∀ op ∈ ops, op ∈ coins ∨ op ∈ out.added.map DeltaEntry.outpoint

theorem spends_folded {ops : List Outpoint} {final : SpendState}
    (records : Records coins height txs idx out) (answers : AnswersFrom lookup coins)
    (run : ops.foldlM (utxoDeltaFoldOneSpend cfg height lookup idx) ⟨out, 0, false⟩
      = .ok final)
    : (∃ ses, SpendsFolded coins out ops final ses)
        ∧ Records coins height txs idx final.out := by
  refine foldlM_ok_invariant
    (fun done st => (∃ ses, SpendsFolded coins out done st ses)
      ∧ Records coins height txs idx st.out)
    ⟨⟨[], by simp, rfl, rfl, by simp, by simp, by simp⟩, records⟩ ?_ run
  intro before op after st next _ held stepped
  obtain ⟨⟨ses, folded⟩, stRecords⟩ := held
  obtain ⟨se, seOp, seRange, spent, added, value, known, nextRecords⟩ :=
    utxoDeltaFoldOneSpend_ok stRecords answers stepped
  refine ⟨⟨ses ++ [se], ?_⟩, nextRecords⟩
  have nonneg := (moneyRange_iff.mp seRange).1
  have sumCases := toInt_add_cases st.txInputValue se.value
  have low := Int64.le_toInt st.txInputValue
  have boundBefore := folded.inputValue
  refine {
    spent := by rw [spent, folded.spent, List.append_assoc]
    added := by rw [added, folded.added]
    outpoints := by rw [List.map_append, folded.outpoints, List.map_singleton, seOp]
    inRange := ?_
    inputValue := ?_
    known := ?_
  }
  · intro e member
    rcases List.mem_append.mp member with old | new
    · exact folded.inRange e old
    · exact List.mem_singleton.mp new ▸ seRange
  · rw [value, List.map_append, sumInt_append, List.map_singleton, sumInt_cons, sumInt_nil]
    omega
  · intro other member
    rcases List.mem_append.mp member with old | new
    · exact folded.known other old
    · rw [folded.added] at known
      exact List.mem_singleton.mp new ▸ known

-- Outputs

/-- The outputs that enter the coin set, with their positions. -/
def entering (outputs : List (TxOut × Nat)) : List (TxOut × Nat) :=
  outputs.filter (fun output => entersCoinSet output.1)

/-- The outpoints that a transaction creates in the coin set. -/
def createdOutpoints (tx : Transaction) : List Outpoint :=
  (entering tx.vout.zipIdx).map (fun output => outputAt tx output.2)

def enteringValue (outputs : List (TxOut × Nat)) : Int :=
  sumInt ((entering outputs).map (·.1.value))

theorem entering_append (xs ys : List (TxOut × Nat))
    : entering (xs ++ ys) = entering xs ++ entering ys := List.filter_append xs ys

theorem enteringValue_append (xs ys : List (TxOut × Nat))
    : enteringValue (xs ++ ys) = enteringValue xs + enteringValue ys := by
  simp [enteringValue, entering_append]

theorem utxoDeltaFoldOneOutput_ok {tx : Transaction} {st st' : OutputState}
    {output : TxOut × Nat} (inBlock : tx ∈ txs) (inTx : output.1 ∈ tx.vout)
    (records : Records coins height txs st.addIdx st.out) (answers : AnswersFrom lookup coins)
    (run : utxoDeltaFoldOneOutput lookup tx st output = .ok st')
    : ∃ es : List DeltaEntry, st'.out.added = st.out.added ++ es
        ∧ st'.out.spent = st.out.spent
        ∧ es.map DeltaEntry.outpoint
            = (entering [output]).map (fun output => outputAt tx output.2)
        ∧ sumInt (es.map DeltaEntry.value) = enteringValue [output]
        ∧ Records coins height txs st'.addIdx st'.out := by
  rw [utxoDeltaFoldOneOutput] at run
  split at run
  · rename_i enters
    simp only [bind_eq_ok] at run
    obtain ⟨_, valueOk, _, unknown, recorded⟩ := run
    rw [utxoDeltaRejectKnownOutput, records.indexes.lookup_eq] at unknown
    have notAdded : outputAt tx output.2 ∉ st.out.added.map DeltaEntry.outpoint := by
      intro member
      obtain ⟨e, inAdded, sameOp⟩ := List.mem_map.mp member
      cases found : st.out.added.find? (·.outpoint = outputAt tx output.2) with
      | some other => simp [found, deltaFail] at unknown
      | none => exact List.find?_eq_none.mp found e inAdded (by simpa using sameOp)
    have notInTable : outputAt tx output.2 ∉ coins := by
      have missing : st.out.added.find? (·.outpoint = outputAt tx output.2) = none := by
        rw [List.find?_eq_none]
        intro e inAdded sameOp
        exact notAdded (List.mem_map.mpr ⟨e, inAdded, by simpa using sameOp⟩)
      simp only [missing] at unknown
      rw [← Finmap.lookup_eq_none]
      split at unknown
      · simp [internalFail] at unknown
      rename_i lk answer
      have meaning := answers _ lk answer
      cases inTable : coins.lookup (outputAt tx output.2) with
      | none => rfl
      | some coin => simp [inTable] at meaning; simp [meaning.1, deltaFail] at unknown
    have hasSlots : st.addIdx.slots ≠ [] := by
      intro null
      rw [records.sized null tx inBlock] at inTx
      simp at inTx
    rw [utxoDeltaRecordOutput] at recorded
    split at recorded
    · simp at recorded
    · rename_i idx' inserted
      obtain rfl := Except.ok.inj recorded
      have entryOp : ∀ (value : Int64) (script : Script) (cb : Bool),
          (DeltaEntry.mk (outputAt tx output.2).hash (outputAt tx output.2).n value script cb
            0).outpoint = outputAt tx output.2 := fun _ _ _ => rfl
      obtain ⟨nextIndexes, nextSlots⟩ := records.indexes.insert hasSlots
        (by rw [entryOp]; exact notAdded) inserted
      refine ⟨[_], rfl, rfl, ?_, ?_, ?_⟩
      · simp [entering, enters, entryOp]
      · simp [enteringValue, entering, enters]
      · refine ⟨nextIndexes, fun null => absurd null nextSlots, ?_, ?_, records.scripts, ?_⟩
        · intro e member
          rcases List.mem_append.mp member with old | new
          · exact records.fresh e old
          · rw [List.mem_singleton.mp new, entryOp]
            exact notInTable
        · intro e member
          -- A coin recorded earlier is still the one found: the new key differs from its own.
          have before := records.restores e member
          have differs : e.outpoint ≠ outputAt tx output.2 := by
            intro same
            have inExtended := Finmap.mem_of_lookup_eq_some before
            rw [withAdded, mem_putAll, map_fst_addRow, same] at inExtended
            exact inExtended.elim notAdded notInTable
          have unfolded : ∀ entry : DeltaEntry,
              withAdded coins height (st.out.added ++ [entry])
                = (withAdded coins height st.out.added).insert entry.outpoint
                    (entry.addRow height).2 := by
            intro entry
            simp [withAdded, putAll, DeltaEntry.addRow]
          simp only [unfolded, entryOp]
          rw [lookup_insert_eq, if_neg differs]
          exact before
        · intro e member
          rcases List.mem_append.mp member with old | new
          · exact records.addedScripts e old
          · obtain rfl := List.mem_singleton.mp new
            simp only [entersCoinSet, scriptIsUnspendable, Bool.and_eq_true, Bool.not_eq_true',
              Bool.or_eq_false_iff, decide_eq_false_iff_not, Nat.not_lt] at enters
            exact enters.2.2
  · rename_i skipped
    obtain rfl := Except.ok.inj run
    refine ⟨[], by simp, rfl, ?_, ?_, records⟩
    · simp [entering, skipped]
    · simp [enteringValue, entering, skipped]

/-- What the loop over a transaction's outputs leaves behind. -/
structure OutputsFolded (tx : Transaction) (out : DeltaSummary) (done : List (TxOut × Nat))
    (st : OutputState) (es : List DeltaEntry) : Prop where
  added : st.out.added = out.added ++ es
  spent : st.out.spent = out.spent
  created
    : es.map DeltaEntry.outpoint = (entering done).map (fun output => outputAt tx output.2)
  value : sumInt (es.map DeltaEntry.value) = enteringValue done

theorem outputs_folded {tx : Transaction} {final : OutputState} (inBlock : tx ∈ txs)
    (records : Records coins height txs idx out) (answers : AnswersFrom lookup coins)
    (run : tx.vout.zipIdx.foldlM (utxoDeltaFoldOneOutput lookup tx) ⟨out, idx⟩ = .ok final)
    : (∃ es, OutputsFolded tx out tx.vout.zipIdx final es)
        ∧ Records coins height txs final.addIdx final.out := by
  refine foldlM_ok_invariant
    (fun done st => (∃ es, OutputsFolded tx out done st es)
      ∧ Records coins height txs st.addIdx st.out)
    ⟨⟨[], by simp, rfl, rfl, rfl⟩, records⟩ ?_ run
  intro before output after st next split held stepped
  obtain ⟨⟨es, folded⟩, stRecords⟩ := held
  have inTx : output.1 ∈ tx.vout := by
    have member : output ∈ tx.vout.zipIdx := by
      rw [split]
      simp
    exact List.fst_mem_of_mem_zipIdx member
  obtain ⟨new, added, spent, ops, value, nextRecords⟩ :=
    utxoDeltaFoldOneOutput_ok inBlock inTx stRecords answers stepped
  refine ⟨⟨es ++ new, ?_, ?_, ?_, ?_⟩, nextRecords⟩
  · rw [added, folded.added, List.append_assoc]
  · rw [spent, folded.spent]
  · rw [List.map_append, folded.created, ops, entering_append, List.map_append]
  · rw [List.map_append, sumInt_append, folded.value, value, enteringValue_append]

-- Transactions and the block

/-- What one folded transaction leaves behind. -/
structure TxFolded (cfg : ApplyConfig) (coins : CoinTable) (tx : Transaction)
    (st st' : FoldState) (ses es : List DeltaEntry) : Prop where
  spent : st'.out.spent = st.out.spent ++ ses
  added : st'.out.added = st.out.added ++ es
  outpoints : ses.map DeltaEntry.outpoint = spentOutpoints tx
  inRange : ∀ e ∈ ses, moneyRange e.value = true
  known
    : ∀ op ∈ spentOutpoints tx, op ∈ coins ∨ op ∈ st.out.added.map DeltaEntry.outpoint
  created : es.map DeltaEntry.outpoint = createdOutpoints tx
  value : sumInt (es.map DeltaEntry.value) = enteringValue tx.vout.zipIdx
  coinbaseFee : transactionIsCoinbase tx = true → st'.feesTotal = st.feesTotal
  fee
    : transactionIsCoinbase tx = false →
        ∃ spendsCoinbase inputValue out,
          inputValue.toInt ≤ sumInt (ses.map DeltaEntry.value)
            ∧ utxoDeltaApplyTxFee cfg tx spendsCoinbase inputValue st.feesTotal out
                = .ok st'.feesTotal

theorem utxoDeltaFoldOneTx_ok {tx : Transaction} {st st' : FoldState} (inBlock : tx ∈ txs)
    (records : Records coins height txs st.addIdx st.out) (answers : AnswersFrom lookup coins)
    (run : utxoDeltaFoldOneTx cfg height lookup st tx = .ok st')
    : (∃ ses es, TxFolded cfg coins tx st st' ses es)
        ∧ Records coins height txs st'.addIdx st'.out := by
  simp only [utxoDeltaFoldOneTx, bind_eq_ok, pure, Except.pure, Except.ok.injEq] at run
  obtain ⟨spends, spendRun, outputs, outputRun, fees, feeRun, rfl⟩ := run
  obtain ⟨⟨ses, spendsFolded⟩, spendRecords⟩ := spends_folded records answers spendRun
  obtain ⟨⟨es, outputsFolded⟩, outputRecords⟩ :=
    outputs_folded inBlock spendRecords answers outputRun
  refine ⟨⟨ses, es, ?_⟩, outputRecords⟩
  exact {
    spent := by rw [outputsFolded.spent, spendsFolded.spent]
    added := by rw [outputsFolded.added, spendsFolded.added]
    outpoints := spendsFolded.outpoints
    inRange := spendsFolded.inRange
    known := spendsFolded.known
    created := outputsFolded.created
    value := outputsFolded.value
    coinbaseFee := by
      intro isCoinbase
      rw [if_pos isCoinbase] at feeRun
      exact (Except.ok.inj feeRun).symm
    fee := by
      intro notCoinbase
      rw [if_neg (by simp [notCoinbase])] at feeRun
      exact ⟨_, _, _, spendsFolded.inputValue, feeRun⟩
  }

/-- What the fold of a block prefix leaves behind, apart from its fees. -/
structure BlockFolded (coins : CoinTable) (done : List Transaction) (out : DeltaSummary)
    : Prop where
  spent : out.spent.map DeltaEntry.outpoint = done.flatMap spentOutpoints
  inRange : ∀ e ∈ out.spent, moneyRange e.value = true
  created : out.added.map DeltaEntry.outpoint = done.flatMap createdOutpoints
  value
    : sumInt (out.added.map DeltaEntry.value)
        = (done.map (fun tx => enteringValue tx.vout.zipIdx)).sum
  known
    : ∀ before tx after, done = before ++ tx :: after →
        ∀ op ∈ spentOutpoints tx, op ∈ coins ∨ op ∈ before.flatMap createdOutpoints

theorem BlockFolded.step {tx : Transaction} {done : List Transaction} {st st' : FoldState}
    {ses es : List DeltaEntry} (folded : BlockFolded coins done st.out)
    (txFolded : TxFolded cfg coins tx st st' ses es)
    : BlockFolded coins (done ++ [tx]) st'.out := by
  refine {
    spent := by simp [txFolded.spent, folded.spent, txFolded.outpoints]
    inRange := ?_
    created := by simp [txFolded.added, folded.created, txFolded.created]
    value := by simp [txFolded.added, folded.value, txFolded.value]
    known := ?_
  }
  · intro e member
    rw [txFolded.spent] at member
    exact (List.mem_append.mp member).elim (folded.inRange e) (txFolded.inRange e)
  · intro before other after split op spends
    rcases List.eq_nil_or_concat after with rfl | ⟨shorter, last, rfl⟩
    · obtain ⟨rfl, sameTx⟩ := List.append_inj' split rfl
      obtain rfl := List.singleton_injective sameTx
      rw [← folded.created]
      exact txFolded.known op spends
    · have shorterSplit : done = before ++ other :: shorter := by
        have regrouped : before ++ other :: (shorter ++ [last])
            = (before ++ other :: shorter) ++ [last] := by simp
        rw [List.concat_eq_append, regrouped] at split
        exact (List.append_inj' split rfl).1
      exact folded.known before other shorter shorterSplit op spends

theorem BlockFolded.nil : BlockFolded coins [] deltaSummaryInit where
  spent := rfl
  inRange := by simp [deltaSummaryInit]
  created := rfl
  value := rfl
  known := by simp

variable {blk : Block}

theorem Records.init (init : addedIndexInit (utxoDeltaAddCap blk) = some idx)
    : Records coins height blk.vtx idx deltaSummaryInit := by
  obtain ⟨indexes, sized⟩ := addedIndexInit_indexes init
  refine ⟨indexes, ?_, by simp [deltaSummaryInit], by simp [deltaSummaryInit],
    by simp [deltaSummaryInit], by simp [deltaSummaryInit]⟩
  intro null tx member
  have noOutputs := List.sum_eq_zero_iff.mp (sized null) tx.vout.length
    (List.mem_map_of_mem (f := fun tx : Transaction => tx.vout.length) member)
  exact List.length_eq_zero_iff.mp noOutputs

theorem utxoDeltaFoldTransactions_ok {final : FoldState}
    (init : addedIndexInit (utxoDeltaAddCap blk) = some idx) (answers : AnswersFrom lookup coins)
    (run : utxoDeltaFoldTransactions cfg height lookup ⟨deltaSummaryInit, idx, 0⟩ blk = .ok final)
    : BlockFolded coins blk.vtx final.out
        ∧ Records coins height blk.vtx final.addIdx final.out := by
  refine foldlM_ok_invariant
    (fun done st => BlockFolded coins done st.out
      ∧ Records coins height blk.vtx st.addIdx st.out)
    ⟨.nil, .init init⟩ ?_ run
  intro before tx after st next split held stepped
  have inBlock : tx ∈ blk.vtx := by
    rw [split]
    simp
  obtain ⟨⟨ses, es, txFolded⟩, nextRecords⟩ := utxoDeltaFoldOneTx_ok inBlock held.2 answers stepped
  exact ⟨held.1.step txFolded, nextRecords⟩

-- Acceptance

/-- The block is authored by the stage: reported ok, and not a count-only skip. -/
def DeltaSummary.Accepted (out : DeltaSummary) : Prop :=
  out.ok = true ∧ out.countOnlyD2Skip = false

/-- A step that stops says so in the summary it hands back. -/
def HaltsOpenly {α : Type} (step : Step α) : Prop :=
  ∀ halt out, step = .error (halt, out) →
    match halt with
    | .fail => out.ok = false
    | .index => True
    | .countOnly => out.countOnlyD2Skip = true

variable {α : Type}

theorem HaltsOpenly.bind {β : Type} {first : Step α} {next : α → Step β}
    (firstOpen : HaltsOpenly first) (nextOpen : ∀ a, HaltsOpenly (next a))
    : HaltsOpenly (first >>= next) := by
  intro halt out run
  rcases bind_eq_error.mp run with here | ⟨middle, -, later⟩
  · exact firstOpen halt out here
  · exact nextOpen middle halt out later

theorem HaltsOpenly.foldlM {σ : Type} {step : σ → α → Step σ} {items : List α} {state : σ}
    (stepOpen : ∀ state item, HaltsOpenly (step state item))
    : HaltsOpenly (items.foldlM step state) := by
  intro halt out run
  obtain ⟨item, -, reached, failed⟩ := foldlM_error run
  exact stepOpen reached item halt out failed

theorem HaltsOpenly.ok (a : α) : HaltsOpenly (.ok a : Step α) := by
  intro halt out run
  simp at run

theorem deltaFail_haltsOpenly (out : DeltaSummary) (status : DeltaStatus) (kind : FailureKind)
    (op : Outpoint)
    : HaltsOpenly (deltaFail out status kind op : Step α) := by
  rintro halt final run
  simp only [deltaFail, Except.error.injEq, Prod.mk.injEq] at run
  obtain ⟨rfl, rfl⟩ := run
  rfl

theorem internalFail_haltsOpenly (out : DeltaSummary) (kind : FailureKind)
    : HaltsOpenly (internalFail out kind : Step α) := by
  rintro halt final run
  simp only [internalFail, Except.error.injEq, Prod.mk.injEq] at run
  obtain ⟨rfl, rfl⟩ := run
  rfl

private theorem rejectBadValue_haltsOpenly (out : DeltaSummary) (value : Int64)
    (kind : FailureKind) (op : Outpoint)
    : HaltsOpenly (utxoDeltaRejectBadValue out value kind op) := by
  rw [utxoDeltaRejectBadValue]
  split
  · exact deltaFail_haltsOpenly _ _ _ _
  · exact .ok ()

private theorem foldOneSpend_haltsOpenly (st : SpendState) (op : Outpoint)
    : HaltsOpenly (utxoDeltaFoldOneSpend cfg height lookup idx st op) := by
  refine .bind ?_ fun se => .bind (rejectBadValue_haltsOpenly _ _ _ _) fun _ =>
    .bind ?_ fun _ => .bind ?_ fun _ => .ok _
  · rw [utxoDeltaResolvePrevout]
    split
    · exact .ok _
    · split
      · exact internalFail_haltsOpenly _ _
      · split
        · exact .ok _
        · exact deltaFail_haltsOpenly _ _ _ _
  · rw [utxoDeltaRejectImmatureCoinbase]
    split
    · split
      · rintro halt final run
        simp only [Except.error.injEq, Prod.mk.injEq] at run
        obtain ⟨rfl, rfl⟩ := run
        rfl
      · exact deltaFail_haltsOpenly _ _ _ _
    · exact .ok ()
  · rw [utxoDeltaOwnRestoreScript]
    split
    · exact internalFail_haltsOpenly _ _
    · exact .ok ()

private theorem foldOneOutput_haltsOpenly (tx : Transaction) (st : OutputState)
    (output : TxOut × Nat)
    : HaltsOpenly (utxoDeltaFoldOneOutput lookup tx st output) := by
  rw [utxoDeltaFoldOneOutput]
  split
  · refine .bind (rejectBadValue_haltsOpenly _ _ _ _) fun _ => .bind ?_ fun _ => ?_
    · rw [utxoDeltaRejectKnownOutput]
      split
      · exact deltaFail_haltsOpenly _ _ _ _
      · split
        · exact internalFail_haltsOpenly _ _
        · split
          · exact deltaFail_haltsOpenly _ _ _ _
          · exact .ok ()
    · rw [utxoDeltaRecordOutput]
      split
      · rintro halt final run
        simp only [Except.error.injEq, Prod.mk.injEq] at run
        obtain ⟨rfl, -⟩ := run
        trivial
      · exact .ok _
  · exact .ok st

private theorem applyTxFee_haltsOpenly (tx : Transaction) (spendsCoinbase : Bool)
    (inputValue fees : Int64) (out : DeltaSummary)
    : HaltsOpenly (utxoDeltaApplyTxFee cfg tx spendsCoinbase inputValue fees out) := by
  simp only [utxoDeltaApplyTxFee]
  repeat' split
  all_goals first
    | exact deltaFail_haltsOpenly _ _ _ _
    | exact .ok _

private theorem run_haltsOpenly (blk : Block)
    : HaltsOpenly (utxoDeltaRun cfg blk height lookup idx) := by
  refine .bind (.foldlM fun st tx => ?_) fun st => .bind ?_ fun _ => .bind ?_ fun _ => .ok _
  · refine .bind (.foldlM foldOneSpend_haltsOpenly) fun spends =>
      .bind (.foldlM (foldOneOutput_haltsOpenly tx)) fun outputs => .bind ?_ fun _ => .ok _
    split
    · exact .ok _
    · exact applyTxFee_haltsOpenly _ _ _ _ _
  · rw [utxoDeltaCheckCoinbaseSubsidy]
    split
    · exact .ok ()
    · simp only
      repeat' split
      all_goals first
        | exact deltaFail_haltsOpenly _ _ _ _
        | exact .ok _
  · rw [utxoDeltaRejectTotalOutOfRange]
    split
    · rintro halt final run
      simp only [Except.error.injEq, Prod.mk.injEq] at run
      obtain ⟨rfl, rfl⟩ := run
      rfl
    · exact .ok ()

theorem utxoApplyComputeBlockDelta_reported (notGenesis : blk.hash ≠ cfg.params.hashGenesisBlock)
    (reported : (utxoApplyComputeBlockDelta cfg blk height lookup).ok = true)
    : (∃ out, utxoApplyComputeBlockDelta cfg blk height lookup = out
        ∧ out.countOnlyD2Skip = true ∧ out.spent = [] ∧ out.added = [])
      ∨ ∃ idx, addedIndexInit (utxoDeltaAddCap blk) = some idx
          ∧ utxoDeltaRun cfg blk height lookup idx
              = .ok (utxoApplyComputeBlockDelta cfg blk height lookup) := by
  unfold utxoApplyComputeBlockDelta at *
  rw [if_neg notGenesis] at *
  cases init : addedIndexInit (utxoDeltaAddCap blk) with
  | none => simp [init] at reported
  | some idx =>
    simp only [init] at reported ⊢
    cases run : utxoDeltaRun cfg blk height lookup idx with
    | ok out => exact .inr ⟨idx, rfl, run⟩
    | error stopped =>
      obtain ⟨halt, out⟩ := stopped
      have said := run_haltsOpenly blk halt out run
      cases halt with
      | fail => simp_all
      | index => simp [run] at reported
      | countOnly => exact .inl ⟨_, rfl, said, rfl, rfl⟩

theorem utxoApplyComputeBlockDelta_accepted (notGenesis : blk.hash ≠ cfg.params.hashGenesisBlock)
    (accepted : (utxoApplyComputeBlockDelta cfg blk height lookup).Accepted)
    : ∃ idx, addedIndexInit (utxoDeltaAddCap blk) = some idx
        ∧ utxoDeltaRun cfg blk height lookup idx
            = .ok (utxoApplyComputeBlockDelta cfg blk height lookup) := by
  rcases utxoApplyComputeBlockDelta_reported notGenesis accepted.1 with ⟨out, rfl, skipped, -⟩ | run
  · rw [accepted.2] at skipped
    simp at skipped
  · exact run

-- Authoring the delta

/-- Models `apply_coins_kv`: all created outputs, then all spends. -/
def applyCoinsKv (store : CoinStore) (s : DeltaSummary) (height : UInt32) : CoinStore :=
  coinsKvSpendMany (coinsKvAddMany store (s.added.map (DeltaEntry.addRow height)))
    (s.spent.map DeltaEntry.outpoint)

/-- The coin set after a block. -/
def appliedTable (coins : CoinTable) (s : DeltaSummary) (height : UInt32) : CoinTable :=
  dropAll (withAdded coins height s.added) (s.spent.map DeltaEntry.outpoint)

theorem applyCoinsKv_off {store : CoinStore} (off : store.overlay = none) (s : DeltaSummary)
    (height : UInt32)
    : applyCoinsKv store s height = store.write (appliedTable store.coins s height) := by
  rw [applyCoinsKv, coinsKvAddMany_off off, coinsKvSpendMany_off (by simpa using off),
    CoinStore.write_write]
  rfl

theorem applyCoinsKv_presents {store : CoinStore} (presents : store.Presents coins)
    {s : DeltaSummary} (short : ∀ e ∈ s.added, e.script.length ≤ maxScriptSize) (height : UInt32)
    : (applyCoinsKv store s height).Presents (appliedTable coins s height) := by
  refine (presents.addMany ?_).spendMany _
  intro row member
  obtain ⟨e, inAdded, rfl⟩ := List.mem_map.mp member
  exact short e inAdded

end Z23.Jobs
