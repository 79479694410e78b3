import Z23.Validation.UpdateCoins

/-!
Disconnecting a block with its undo data takes the coins view back to where it was.
-/

namespace Z23.Validation

open Z23.Lib.FiniteMap

-- Disconnecting

/-- Writes one recorded output back, and the metadata of its coin when it was recorded. -/
def restoreInput (view : CoinsView) (input : TxIn) (undo : TxInUndo) : Option CoinsView :=
  let entry := coinsViewCacheModify view input.prevout.hash
  let pos := input.prevout.n.toNat
  if pos ≥ entry.vout.length && pos ≥ maxBlockSize then none
  else
    let entry := { entry with vout := growEntryVoutForSpend entry.vout pos }
    let entry :=
      if undo.height > 0 then
        { entry with
          isCoinbase := undo.coinbase, height := undo.height.toInt32, version := undo.version }
      else entry
    some (view.insert input.prevout.hash { entry with vout := entry.vout.set pos undo.txout })

/-- The inputs are restored from the last to the first. -/
def restoreInputs (view : CoinsView) : List TxIn → List TxInUndo → Option CoinsView
  | input :: inputs, undo :: undos => do
    let view ← restoreInputs view inputs undos
    restoreInput view input undo
  | _, _ => some view

/-- The record of a disconnected transaction is emptied. -/
def eraseOutputs (view : CoinsView) (tx : Transaction) : CoinsView :=
  view.insert tx.hash coinsInit

def disconnectTransaction (view : CoinsView) (tx : Transaction) (undo : List TxInUndo)
    : Option CoinsView :=
  if undo.length ≠ tx.vin.length then none
  else (restoreInputs view tx.vin undo).map (fun view => eraseOutputs view tx)

/-- The transactions are disconnected from the last to the first. -/
def disconnectTransactions (view : CoinsView)
    : List Transaction → List (List TxInUndo) → Option CoinsView
  | tx :: txs, undo :: undos => do
    let view ← disconnectTransactions view txs undos
    disconnectTransaction view tx undo
  | _, _ => some view

/-- There is no undo data for the first transaction. -/
def disconnectBlock (block : Block) (view : CoinsView) (blockUndo : List (List TxInUndo))
    : Option CoinsView :=
  match block.vtx with
  | [] => none
  | first :: txs =>
    if blockUndo.length ≠ txs.length then none
    else
      (disconnectTransactions view txs blockUndo).map (fun view => eraseOutputs view first)

/-- Updates the view with the transactions in order and records what each one spent. -/
def updateCoinsAll (height : Int32) (view : CoinsView)
    : List Transaction → Option (CoinsView × List (List TxInUndo))
  | [] => some (view, [])
  | tx :: txs => do
    let (view, undo) ← updateCoinsWithUndo tx view height
    let (view, undos) ← updateCoinsAll height view txs
    some (view, undo :: undos)

/-- The undo data of a block leaves out its first transaction. -/
def updateBlockCoins (height : Int32) (view : CoinsView) (block : Block)
    : Option (CoinsView × List (List TxInUndo)) :=
  (updateCoinsAll height view block.vtx).map fun (view, undos) => (view, undos.tail)

-- Views that hold the same coins

/-- Two records agree on the metadata and on every available output. -/
structure SameRecord (c c' : Coins) : Prop where
  isCoinbase : c.isCoinbase = c'.isCoinbase
  height : c.height = c'.height
  version : c.version = c'.version
  available : ∀ pos, c.available pos = c'.available pos

/-- Each transaction id has the same coins in both views, or none in both. -/
def SameView (view view' : CoinsView) : Prop :=
  ∀ txid,
    match coinsViewCacheGetCoins view txid, coinsViewCacheGetCoins view' txid with
    | none, none => True
    | some c, some c' => SameRecord c c'
    | _, _ => False

variable {view : CoinsView}

theorem sameView_of_getCoins_eq {view' : CoinsView}
    (same : ∀ txid, coinsViewCacheGetCoins view txid = coinsViewCacheGetCoins view' txid)
    : SameView view view' := by
  intro txid
  rw [same txid]
  cases coinsViewCacheGetCoins view' txid with
  | none => trivial
  | some c => exact ⟨rfl, rfl, rfl, fun _ => rfl⟩

/-- The views have the same record for every id outside a list. -/
def AgreeOutside (txids : List Uint256) (view view' : CoinsView) : Prop :=
  ∀ txid, txid ∉ txids → view.lookup txid = view'.lookup txid

/-- No id of a list has coins in the view. -/
def Hidden (txids : List Uint256) (view : CoinsView) : Prop :=
  ∀ txid ∈ txids, coinsViewCacheGetCoins view txid = none

theorem getCoins_congr {view' : CoinsView} {txid : Uint256}
    (same : view.lookup txid = view'.lookup txid)
    : coinsViewCacheGetCoins view txid = coinsViewCacheGetCoins view' txid := by
  rw [coinsViewCacheGetCoins, coinsViewCacheGetCoins, same]

variable {c : Coins}

theorem getCoins_insert_of_ne {txid other : Uint256} (different : other ≠ txid)
    : coinsViewCacheGetCoins (view.insert txid c) other = coinsViewCacheGetCoins view other :=
  getCoins_congr (Finmap.lookup_insert_of_ne _ different)

theorem getCoins_eraseOutputs_self {tx : Transaction}
    : coinsViewCacheGetCoins (eraseOutputs view tx) tx.hash = none := by
  simp [coinsViewCacheGetCoins, eraseOutputs, coinsMathIsPruned, coinsInit, Option.filter]

variable {txids : List Uint256} {out : TxOut}

section

variable {view' : CoinsView} {input : TxIn} {undo : TxInUndo}
  (spent : InputSpent view input view' undo c out)
include spent

theorem InputSpent.not_hidden (hidden : Hidden txids view) : input.prevout.hash ∉ txids := by
  intro member
  obtain ⟨at_, notNull⟩ := Coins.available_eq_some.mp spent.available
  have none := hidden _ member
  simp only [coinsViewCacheGetCoins, spent.found, Option.filter_some] at none
  split at none
  · cases none
  · rename_i pruned
    simp only [coinsMathIsPruned, Bool.not_eq_true', Bool.not_eq_false, List.all_eq_true] at pruned
    have null := pruned out (List.mem_of_getElem? at_)
    rw [notNull] at null
    cases null

theorem InputSpent.hidden (hidden : Hidden txids view) : Hidden txids view' := by
  intro txid member
  have different : txid ≠ input.prevout.hash := by
    rintro rfl
    exact spent.not_hidden hidden member
  rw [spent.view, getCoins_insert_of_ne different]
  exact hidden txid member

-- Inputs

theorem InputSpent.restore {w : CoinsView}
    (same : w.lookup input.prevout.hash = view'.lookup input.prevout.hash)
    : restoreInput w input undo = some (w.insert input.prevout.hash c) := by
  obtain ⟨at_, -⟩ := Coins.available_eq_some.mp spent.available
  obtain ⟨inside, isOut⟩ := List.getElem?_eq_some_iff.mp at_
  have entry : coinsViewCacheModify w input.prevout.hash
      = { c with vout := c.vout.set input.prevout.n.toNat .null } := by
    simp [coinsViewCacheModify, same, spent.view]
  have noGrowth : growEntryVoutForSpend (c.vout.set input.prevout.n.toNat .null)
      input.prevout.n.toNat = c.vout.set input.prevout.n.toNat .null := by
    have none : input.prevout.n.toNat + 1 - c.vout.length = 0 := by omega
    simp [growEntryVoutForSpend, none]
  have back : (c.vout.set input.prevout.n.toNat .null).set input.prevout.n.toNat undo.txout
      = c.vout := by
    rw [List.set_set, spent.txout, ← isOut, List.set_getElem_self]
  have notBeyond : ¬(input.prevout.n.toNat ≥ c.vout.length) := by omega
  simp only [restoreInput, entry, List.length_set, noGrowth, notBeyond, decide_false,
    Bool.false_and, Bool.false_eq_true, if_false]
  split
  · rename_i recorded
    obtain ⟨coinbase, height, version⟩ := spent.metadata recorded
    simp only [back, coinbase, height, version, Int32.toInt32_toUInt32]
  · simp only [back]

end

theorem restoreInputs_spendInputs {view' : CoinsView} {inputs : List TxIn} {undos : List TxInUndo}
    (spent : spendInputs view inputs = some (view', undos)) (hidden : Hidden txids view)
    : undos.length = inputs.length ∧ Hidden txids view'
        ∧ ∀ w, AgreeOutside txids w view' →
          ∃ w', restoreInputs w inputs undos = some w' ∧ AgreeOutside txids w' view
            ∧ ∀ txid ∈ txids, w'.lookup txid = w.lookup txid := by
  induction inputs generalizing view undos with
  | nil =>
    cases spent
    exact ⟨rfl, hidden, fun w agree => ⟨w, rfl, agree, fun _ _ => rfl⟩⟩
  | cons input rest ih =>
    obtain ⟨middle, undo, undos', first, others, rfl⟩ := spendInputs_cons_eq_some spent
    obtain ⟨c, out, step⟩ := spendInput_eq_some first
    obtain ⟨sameLength, hidden', restore⟩ := ih others (step.hidden hidden)
    refine ⟨by simp [sameLength], hidden', fun w agree => ?_⟩
    obtain ⟨w', restored, agree', kept⟩ := restore w agree
    have outside := step.not_hidden hidden
    refine ⟨w'.insert input.prevout.hash c, ?_, ?_, ?_⟩
    · simp only [restoreInputs, restored]
      exact step.restore (agree' _ outside)
    · intro txid absent
      rw [lookup_insert_eq]
      split
      · rename_i same
        rw [same, step.found]
      · rename_i different
        rw [agree' txid absent, step.view, lookup_insert_eq, if_neg different]
    · intro txid member
      have different : txid ≠ input.prevout.hash := by
        rintro rfl
        exact outside member
      rw [lookup_insert_eq, if_neg different, kept txid member]

-- Transactions

theorem Hidden.insert {txid : Uint256} (hidden : Hidden txids view) (fresh : txid ∉ txids)
    : Hidden txids (view.insert txid c) := by
  intro other member
  have different : other ≠ txid := by
    rintro rfl
    exact fresh member
  rw [getCoins_insert_of_ne different]
  exact hidden other member

theorem Hidden.eraseOutputs {view' : CoinsView} {tx : Transaction} (hidden : Hidden txids view)
    (fresh : tx.hash ∉ txids) (kept : ∀ txid ∈ txids, view'.lookup txid = view.lookup txid)
    : Hidden (tx.hash :: txids) (eraseOutputs view' tx) := by
  intro txid member
  rcases List.mem_cons.mp member with rfl | later
  · exact getCoins_eraseOutputs_self
  · have hidden' : Hidden txids view' := by
      intro other member
      rw [getCoins_congr (kept other member)]
      exact hidden other member
    exact hidden'.insert fresh txid later

theorem AgreeOutside.eraseOutputs {view' : CoinsView} {tx : Transaction}
    (agree : AgreeOutside (tx.hash :: txids) view view')
    : AgreeOutside (tx.hash :: txids) (eraseOutputs view tx) view' := by
  intro txid absent
  have different : txid ≠ tx.hash := by
    rintro rfl
    exact absent List.mem_cons_self
  exact (Finmap.lookup_insert_of_ne _ different).trans (agree txid absent)

theorem AgreeOutside.insert {w : CoinsView} {txid : Uint256}
    (agree : AgreeOutside txids w (view.insert txid c))
    : AgreeOutside (txid :: txids) w view := by
  intro other absent
  simp only [List.mem_cons, not_or] at absent
  rw [agree other absent.2, lookup_insert_eq, if_neg absent.1]

theorem spendTransaction_of_ordinary {tx : Transaction} (view : CoinsView)
    (ordinary : transactionIsCoinbase tx = false)
    : spendTransaction tx view = spendInputs view tx.vin := by
  simp [spendTransaction, ordinary]

variable {height : Int32}

theorem updateCoinsAll_cons_eq_some {view' : CoinsView} {tx : Transaction} {txs : List Transaction}
    {undos : List (List TxInUndo)}
    (updated : updateCoinsAll height view (tx :: txs) = some (view', undos))
    : ∃ middle undo undos', updateCoinsWithUndo tx view height = some (middle, undo)
        ∧ updateCoinsAll height middle txs = some (view', undos') ∧ undos = undo :: undos' := by
  simp only [updateCoinsAll, Option.bind_eq_bind, Option.bind_eq_some_iff, Prod.exists] at updated
  obtain ⟨middle, undo, first, last, undos', others, result⟩ := updated
  cases result
  exact ⟨middle, undo, undos', first, others, rfl⟩

theorem disconnectTransaction_updateCoins {tx : Transaction} {view' w : CoinsView}
    {undo : List TxInUndo} {later : List Uint256}
    (updated : updateCoinsWithUndo tx view height = some (view', undo))
    (ordinary : transactionIsCoinbase tx = false) (fresh : tx.hash ∉ later)
    (hidden : Hidden (tx.hash :: later) view) (agree : AgreeOutside later w view')
    (erased : Hidden later w)
    : ∃ w', disconnectTransaction w tx undo = some w'
        ∧ AgreeOutside (tx.hash :: later) w' view ∧ Hidden (tx.hash :: later) w' := by
  obtain ⟨spent, coins, inputs, -, -, rfl⟩ := updateCoinsWithUndo_eq_some updated
  rw [spendTransaction_of_ordinary view ordinary] at inputs
  obtain ⟨sameLength, -, restore⟩ := restoreInputs_spendInputs inputs hidden
  obtain ⟨restored, equation, agree', kept⟩ := restore w agree.insert
  refine ⟨eraseOutputs restored tx, ?_, agree'.eraseOutputs, ?_⟩
  · simp [disconnectTransaction, sameLength, equation]
  · exact erased.eraseOutputs fresh (List.forall_mem_cons.mp kept).2

theorem updateCoinsWithUndo_hidden {tx : Transaction} {view' : CoinsView} {undo : List TxInUndo}
    {later : List Uint256} (updated : updateCoinsWithUndo tx view height = some (view', undo))
    (fresh : tx.hash ∉ later) (hidden : Hidden later view) : Hidden later view' := by
  obtain ⟨spent, coins, inputs, -, -, rfl⟩ := updateCoinsWithUndo_eq_some updated
  have hidden' : Hidden later spent := by
    rw [spendTransaction] at inputs
    split at inputs
    · cases inputs
      exact hidden
    · exact (restoreInputs_spendInputs inputs hidden).2.1
  exact hidden'.insert fresh

-- The induction follows the forward order; the view that is restored is the one before the
-- first transaction, and its own ids stay hidden while the later ones are disconnected.
theorem disconnectTransactions_updateCoinsAll {txs : List Transaction} {view' : CoinsView}
    {undos : List (List TxInUndo)} (updated : updateCoinsAll height view txs = some (view', undos))
    (ordinary : ∀ tx ∈ txs, transactionIsCoinbase tx = false)
    (distinct : (txs.map Transaction.hash).Nodup) (hidden : Hidden (txs.map Transaction.hash) view)
    : undos.length = txs.length ∧ ∃ w, disconnectTransactions view' txs undos = some w
        ∧ AgreeOutside (txs.map Transaction.hash) w view
        ∧ Hidden (txs.map Transaction.hash) w := by
  induction txs generalizing view undos with
  | nil =>
    cases updated
    exact ⟨rfl, view', rfl, fun _ _ => rfl, hidden⟩
  | cons tx txs ih =>
    obtain ⟨middle, undo, undos', first, others, rfl⟩ := updateCoinsAll_cons_eq_some updated
    obtain ⟨fresh, distinct'⟩ := List.nodup_cons.mp distinct
    have hiddenLater : Hidden (txs.map Transaction.hash) view := (List.forall_mem_cons.mp hidden).2
    obtain ⟨sameLength, w, disconnected, agree, erased⟩ := ih others
      (fun tx' member => ordinary tx' (List.mem_cons_of_mem _ member)) distinct'
      (updateCoinsWithUndo_hidden first fresh hiddenLater)
    obtain ⟨w', last, agree', erased'⟩ := disconnectTransaction_updateCoins first
      (ordinary tx List.mem_cons_self) fresh hidden agree erased
    refine ⟨by simp [sameLength], w', ?_, agree', erased'⟩
    simp only [disconnectTransactions, disconnected]
    exact last

-- Blocks

/-- Undo data is kept for every spend: the first transaction spends nothing, and no later one is a
coinbase. -/
structure UndoCovers (block : Block) : Prop where
  first : ∃ tx, block.vtx.head? = some tx ∧ (transactionIsCoinbase tx = true ∨ tx.vin = [])
  others : ∀ tx ∈ block.vtx.tail, transactionIsCoinbase tx = false

theorem spendTransaction_of_nothing {tx : Transaction} (view : CoinsView)
    (nothing : transactionIsCoinbase tx = true ∨ tx.vin = [])
    : spendTransaction tx view = some (view, []) := by
  rcases nothing with coinbase | empty
  · simp [spendTransaction, coinbase]
  · simp [spendTransaction, empty, spendInputs]

/-- Disconnecting a block brings back the coins that its transactions changed. -/
theorem disconnectBlock_updateBlockCoins {height : Int32} {block : Block} {view view' : CoinsView}
    {blockUndo : List (List TxInUndo)} (covers : UndoCovers block)
    (distinct : (block.vtx.map Transaction.hash).Nodup)
    (absent : ∀ tx ∈ block.vtx, coinsViewCacheGetCoins view tx.hash = none)
    (updated : updateBlockCoins height view block = some (view', blockUndo))
    : ∃ w, disconnectBlock block view' blockUndo = some w ∧ SameView w view := by
  obtain ⟨hash, vtx⟩ := block
  obtain ⟨tx, isFirst, nothing⟩ := covers.first
  cases vtx with
  | nil => cases isFirst
  | cons _ txs =>
    cases isFirst
    obtain ⟨⟨view'', undos⟩, all, result⟩ := Option.map_eq_some_iff.mp updated
    cases result
    obtain ⟨middle, undo, undos', one, others, rfl⟩ := updateCoinsAll_cons_eq_some all
    obtain ⟨fresh, distinct'⟩ := List.nodup_cons.mp distinct
    have hidden : Hidden (txs.map Transaction.hash) view := by
      intro txid member
      obtain ⟨other, member', rfl⟩ := List.mem_map.mp member
      exact absent other (List.mem_cons_of_mem _ member')
    obtain ⟨sameLength, w, disconnected, agree, erased⟩ :=
      disconnectTransactions_updateCoinsAll others covers.others distinct'
        (updateCoinsWithUndo_hidden one fresh hidden)
    obtain ⟨spent, coins, inputs, -, -, rfl⟩ := updateCoinsWithUndo_eq_some one
    rw [spendTransaction_of_nothing view nothing] at inputs
    cases inputs
    have agree' := agree.insert.eraseOutputs
    have erased' := erased.eraseOutputs fresh fun _ _ => rfl
    refine ⟨eraseOutputs w tx, ?_, sameView_of_getCoins_eq fun txid => ?_⟩
    · simp [disconnectBlock, sameLength, disconnected]
    · by_cases ofBlock : txid ∈ tx.hash :: txs.map Transaction.hash
      · rw [erased' txid ofBlock]
        rw [← List.map_cons] at ofBlock
        obtain ⟨other, member, rfl⟩ := List.mem_map.mp ofBlock
        exact (absent other member).symm
      · exact getCoins_congr (agree' txid ofBlock)

-- Sample blocks

def sampleOut (value : Int64) : TxOut := ⟨value, [0x51]⟩

/-- One coin with two outputs, mined at height 50. -/
def sampleView : CoinsView :=
  Finmap.insert (Uint256.fill 7) ⟨true, [sampleOut 10, sampleOut 20], 50, 1⟩ ∅

def sampleReward (id : UInt8) : Transaction :=
  { vin := [{ prevout := ⟨.fill 0, 0xffffffff⟩ }], vout := [sampleOut 5], hash := .fill id }

/-- Spends some outputs of a transaction into one output. -/
def sampleSpend (from_ : UInt8) (outputs : List UInt32) (value : Int64) (id : UInt8)
    : Transaction :=
  { vin := outputs.map (fun n => { prevout := ⟨.fill from_, n⟩ }), vout := [sampleOut value]
    hash := .fill id }

/-- The sample coin is spent completely, by two transactions, and so is an output of the block. -/
def sampleBlock : Block :=
  ⟨.fill 8, [sampleReward 1, sampleSpend 7 [1] 20 2, sampleSpend 2 [0] 20 3, sampleSpend 7 [0] 10 4]⟩

theorem disconnectBlock_sampleBlock
    : ∃ view' blockUndo w, updateBlockCoins 200 sampleView sampleBlock = some (view', blockUndo)
        ∧ coinsViewCacheGetCoins view' (.fill 7) = none
        ∧ disconnectBlock sampleBlock view' blockUndo = some w ∧ SameView w sampleView := by
  have updated : (updateBlockCoins 200 sampleView sampleBlock).isSome = true := by decide +kernel
  obtain ⟨⟨view', blockUndo⟩, updated⟩ := Option.isSome_iff_exists.mp updated
  have covers : UndoCovers sampleBlock := ⟨⟨_, rfl, .inl (by decide)⟩, by decide⟩
  obtain ⟨w, disconnected, same⟩ :=
    disconnectBlock_updateBlockCoins covers (by decide) (by decide +kernel) updated
  refine ⟨view', blockUndo, w, updated, ?_, disconnected, same⟩
  have spent : ((updateBlockCoins 200 sampleView sampleBlock).map
      fun result => coinsViewCacheGetCoins result.1 (.fill 7)) = some none := by decide +kernel
  simpa [updated] using spent

/-- Updating the view with a block and disconnecting it again. -/
def reconnect (height : Int32) (view : CoinsView) (block : Block) : Option CoinsView :=
  (updateBlockCoins height view block).bind fun (view', undo) => disconnectBlock block view' undo

theorem not_sameView_of_lost {view' : CoinsView} {txid : Uint256}
    (lost : coinsViewCacheGetCoins view txid = none)
    (kept : coinsViewCacheHaveCoins view' txid = true) : ¬SameView view view' := by
  intro same
  have here := same txid
  obtain ⟨c, found⟩ := Option.isSome_iff_exists.mp kept
  rw [lost, found] at here
  exact here

/-- The updates of a block with new ids succeed, but disconnecting it does not bring the coins
back. -/
structure NotRestored (view : CoinsView) (vtx : List Transaction) : Prop where
  distinct : (vtx.map Transaction.hash).Nodup
  absent : ∀ tx ∈ vtx, coinsViewCacheGetCoins view tx.hash = none
  updates : (updateBlockCoins 200 view ⟨.fill 8, vtx⟩).isSome = true
  lost : ¬∃ w, reconnect 200 view ⟨.fill 8, vtx⟩ = some w ∧ SameView w view

theorem notRestored_of_fails {vtx : List Transaction}
    (fails : (reconnect 200 view ⟨.fill 8, vtx⟩).isNone = true)
    : ¬∃ w, reconnect 200 view ⟨.fill 8, vtx⟩ = some w ∧ SameView w view := by
  rintro ⟨w, disconnected, -⟩
  simp [disconnected] at fails

/--
Without undo data for the first transaction its spent coin is lost; a later coinbase has no undo
data, and an empty block no first transaction.
-/
theorem disconnectBlock_not_covered
    : NotRestored sampleView [sampleSpend 7 [0, 1] 30 2]
        ∧ NotRestored sampleView [sampleReward 1, sampleReward 2]
        ∧ NotRestored sampleView [] := by
  refine ⟨?_, ?_, ?_⟩
  · refine ⟨by decide, by decide +kernel, by decide +kernel, ?_⟩
    rintro ⟨w, disconnected, same⟩
    have lost : ((reconnect 200 sampleView ⟨.fill 8, [sampleSpend 7 [0, 1] 30 2]⟩).map
        fun w => coinsViewCacheGetCoins w (.fill 7)) = some none := by decide +kernel
    rw [disconnected] at lost
    exact not_sameView_of_lost (Option.some.inj lost) (by decide +kernel) same
  · exact ⟨by decide, by decide +kernel, by decide +kernel,
      notRestored_of_fails (by decide +kernel)⟩
  · exact ⟨by decide, by decide, by decide +kernel, notRestored_of_fails (by decide +kernel)⟩

end Z23.Validation
