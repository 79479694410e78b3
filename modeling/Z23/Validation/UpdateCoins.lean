import Mathlib.Data.List.DropRight
import Z23.Lib.FiniteMap
import Z23.Primitives

/-!
The coins view that blocks are connected to: records of outputs by transaction id, their spending
with undo data, and their creation.
-/

namespace Z23.Validation

open Z23.Lib.FiniteMap

-- Coins

/-- The outputs of one transaction; a spent or unspendable output is null. -/
structure Coins where
  isCoinbase : Bool
  vout : List TxOut
  height : Int32
  version : Int32
deriving DecidableEq, Repr

def coinsInit : Coins := ⟨false, [], 0, 0⟩

def coinsMathIsPruned (c : Coins) : Bool := c.vout.all TxOut.isNull

/-- The output at a position, unless it is null. -/
def Coins.available (c : Coins) (pos : Nat) : Option TxOut :=
  (c.vout[pos]?).filter (fun out => !out.isNull)

/-- Drops the null outputs at the end. -/
def coinsMathCleanup (c : Coins) : Coins := { c with vout := c.vout.rdropWhile TxOut.isNull }

def coinsVoutMax : Nat := 65536

def coinsFromTransaction (tx : Transaction) (height : Int32) : Option Coins :=
  if tx.vout.length > coinsVoutMax then none
  else
    some (coinsMathCleanup
      { isCoinbase := transactionIsCoinbase tx
        vout := tx.vout.map fun out =>
          if scriptIsUnspendable out.scriptPubKey then TxOut.null else out
        height := height
        version := tx.version })

/-- The metadata of the coin is recorded by the input that prunes it, and is zero otherwise. -/
structure TxInUndo where
  txout : TxOut
  coinbase : Bool
  height : UInt32
  version : Int32
deriving DecidableEq, Repr

/-- `none` when the output is out of range or already spent. -/
def coinsMathCaptureUndo (c : Coins) (pos : Nat) : Option (Coins × TxInUndo) :=
  (c.available pos).map fun out =>
    let spent := { c with vout := c.vout.set pos .null }
    if coinsMathIsPruned spent then (spent, ⟨out, c.isCoinbase, c.height.toUInt32, c.version⟩)
    else (spent, ⟨out, false, 0, 0⟩)

-- The view

/-- The records of a coins view cache over those of its base. -/
abbrev CoinsView : Type := Table Uint256 Coins

def coinsViewCacheGetCoins (view : CoinsView) (txid : Uint256) : Option Coins :=
  (view.lookup txid).filter (fun c => !coinsMathIsPruned c)

def coinsViewCacheHaveCoins (view : CoinsView) (txid : Uint256) : Bool :=
  (coinsViewCacheGetCoins view txid).isSome

/-- The record that `coins_view_cache_modify` hands out; an absent one is made empty. -/
def coinsViewCacheModify (view : CoinsView) (txid : Uint256) : Coins :=
  (view.lookup txid).getD coinsInit

def coinsViewCacheGetOutputFor (view : CoinsView) (op : Outpoint) : Option TxOut :=
  (view.lookup op.hash).bind (fun c => c.available op.n.toNat)

def coinsViewCacheHaveInputs (view : CoinsView) (tx : Transaction) : Bool :=
  transactionIsCoinbase tx
    || tx.vin.all (fun input => (coinsViewCacheGetOutputFor view input.prevout).isSome)

/-- The outputs up to a position, with null ones added where there are too few. -/
def growEntryVoutForSpend (vout : List TxOut) (pos : Nat) : List TxOut :=
  vout ++ List.replicate (pos + 1 - vout.length) .null

/-- Spends one input of a transaction. -/
def spendInput (view : CoinsView) (input : TxIn) : Option (CoinsView × TxInUndo) :=
  let entry := coinsViewCacheModify view input.prevout.hash
  let pos := input.prevout.n.toNat
  let entry := { entry with vout := growEntryVoutForSpend entry.vout pos }
  match entry.available pos with
  | none => none
  | some out =>
    if !moneyRange out.value then none
    else
      (coinsMathCaptureUndo entry pos).map fun (spent, undo) =>
        (view.insert input.prevout.hash spent, undo)

def spendInputs (view : CoinsView) : List TxIn → Option (CoinsView × List TxInUndo)
  | [] => some (view, [])
  | input :: rest => do
    let (view, undo) ← spendInput view input
    let (view, undos) ← spendInputs view rest
    some (view, undo :: undos)

/-- The outputs of a new record are amounts. -/
def newOutputsInRange (c : Coins) : Bool :=
  c.vout.all (fun out => out.isNull || moneyRange out.value)

/-- A coinbase spends nothing. -/
def spendTransaction (tx : Transaction) (view : CoinsView) : Option (CoinsView × List TxInUndo) :=
  if transactionIsCoinbase tx then some (view, []) else spendInputs view tx.vin

def updateCoinsWithUndo (tx : Transaction) (view : CoinsView) (height : Int32)
    : Option (CoinsView × List TxInUndo) := do
  let (view, undo) ← spendTransaction tx view
  let coins ← coinsFromTransaction tx height
  if newOutputsInRange coins then some (view.insert tx.hash coins, undo) else none

-- One input

variable {pos : Nat}

theorem Coins.available_eq_some {c : Coins} {out : TxOut}
    : c.available pos = some out ↔ c.vout[pos]? = some out ∧ out.isNull = false := by
  simp [Coins.available, Option.filter_eq_some_iff]

theorem available_grow (c : Coins) (pos : Nat)
    : Coins.available { c with vout := growEntryVoutForSpend c.vout pos } pos = c.available pos := by
  refine Option.ext fun out => ?_
  simp only [Coins.available_eq_some, growEntryVoutForSpend, List.getElem?_append]
  split
  · rfl
  · rename_i beyond
    have absent : c.vout[pos]? = none := List.getElem?_eq_none (by omega)
    simp only [absent, List.getElem?_replicate]
    split
    · simp only [Option.some.injEq, reduceCtorEq, false_and, iff_false, not_and]
      rintro rfl
      decide
    · simp

theorem growEntryVoutForSpend_of_available {c : Coins} {out : TxOut}
    (found : c.available pos = some out) : growEntryVoutForSpend c.vout pos = c.vout := by
  have inside : pos < c.vout.length := (List.getElem?_eq_some_iff.mp
    (Coins.available_eq_some.mp found).1).1
  have none : pos + 1 - c.vout.length = 0 := by omega
  simp [growEntryVoutForSpend, none]

/-- What a spent input leaves: its record without the output, and the output in the undo data. -/
structure InputSpent (view : CoinsView) (input : TxIn) (view' : CoinsView) (undo : TxInUndo)
    (c : Coins) (out : TxOut) : Prop where
  found : view.lookup input.prevout.hash = some c
  available : c.available input.prevout.n.toNat = some out
  inRange : moneyRange out.value = true
  view : view' = view.insert input.prevout.hash
    { c with vout := c.vout.set input.prevout.n.toNat .null }
  txout : undo.txout = out
  metadata : 0 < undo.height →
    undo.coinbase = c.isCoinbase ∧ undo.height = c.height.toUInt32 ∧ undo.version = c.version

theorem coinsMathCaptureUndo_eq_some {c spent : Coins} {undo : TxInUndo}
    (captured : coinsMathCaptureUndo c pos = some (spent, undo))
    : ∃ out, c.available pos = some out ∧ spent = { c with vout := c.vout.set pos .null }
        ∧ undo.txout = out
        ∧ (0 < undo.height → undo.coinbase = c.isCoinbase
          ∧ undo.height = c.height.toUInt32 ∧ undo.version = c.version) := by
  obtain ⟨out, found, captured⟩ := Option.map_eq_some_iff.mp captured
  refine ⟨out, found, ?_⟩
  simp only at captured
  split at captured
  · cases captured
    exact ⟨rfl, rfl, fun _ => ⟨rfl, rfl, rfl⟩⟩
  · cases captured
    exact ⟨rfl, rfl, fun recorded => absurd recorded (UInt32.lt_irrefl 0)⟩

variable {view' view : CoinsView}

theorem spendInput_eq_some {input : TxIn} {undo : TxInUndo}
    (spent : spendInput view input = some (view', undo))
    : ∃ c out, InputSpent view input view' undo c out := by
  simp only [spendInput, available_grow] at spent
  split at spent
  · cases spent
  rename_i out available
  split at spent
  · cases spent
  rename_i inRange
  rw [growEntryVoutForSpend_of_available available] at spent
  obtain ⟨⟨spentCoins, undo'⟩, captured, result⟩ := Option.map_eq_some_iff.mp spent
  cases result
  obtain ⟨out', available', spentEq, txout, metadata⟩ := coinsMathCaptureUndo_eq_some captured
  obtain rfl : out = out' := Option.some.inj (available.symm.trans available')
  cases found : view.lookup input.prevout.hash with
  | none =>
    simp [coinsViewCacheModify, found, coinsInit, Coins.available] at available
  | some c =>
    simp only [coinsViewCacheModify, found, Option.getD_some] at available spentEq metadata
    exact ⟨c, out, { found := found, available := available, inRange := by simpa using inRange,
                     view := by rw [spentEq], txout := txout, metadata := metadata }⟩

theorem spendInputs_cons_eq_some {input : TxIn} {rest : List TxIn} {undos : List TxInUndo}
    (spent : spendInputs view (input :: rest) = some (view', undos))
    : ∃ middle undo undos', spendInput view input = some (middle, undo)
        ∧ spendInputs middle rest = some (view', undos') ∧ undos = undo :: undos' := by
  simp only [spendInputs, Option.bind_eq_bind, Option.bind_eq_some_iff, Prod.exists] at spent
  obtain ⟨middle, undo, first, last, undos', others, result⟩ := spent
  cases result
  exact ⟨middle, undo, undos', first, others, rfl⟩

theorem updateCoinsWithUndo_eq_some {tx : Transaction} {height : Int32} {undo : List TxInUndo}
    (updated : updateCoinsWithUndo tx view height = some (view', undo))
    : ∃ spent coins, spendTransaction tx view = some (spent, undo)
        ∧ coinsFromTransaction tx height = some coins ∧ newOutputsInRange coins = true
        ∧ view' = spent.insert tx.hash coins := by
  simp only [updateCoinsWithUndo, Option.bind_eq_bind, Option.bind_eq_some_iff, Prod.exists]
    at updated
  obtain ⟨spent, undo', inputs, coins, created, result⟩ := updated
  split at result
  · rename_i inRange
    cases result
    exact ⟨spent, coins, inputs, created, inRange, rfl⟩
  · cases result

end Z23.Validation
