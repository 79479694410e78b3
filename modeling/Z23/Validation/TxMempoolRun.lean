import Z23.Validation.TxMempoolIndex

/-!
Runs of the memory pool: its states are coherent as long as the copies and the streams of its
entries get the memory they ask for, and a connected block takes out its own transactions.
-/

namespace Z23.Validation

open Z23.Lib
open Z23.Lib.ProbeTable (used)

-- Runs

theorem findEntryByHash_eq_some {pool : TxMempool} {hash : Uint256} {idx : Nat}
    (found : findEntryByHash pool hash = some idx)
    : ∃ entry, pool.entries[idx]? = some entry ∧ entry.tx.hash = hash := by
  rw [findEntryByHash, List.findIdx?_eq_some_iff_getElem] at found
  obtain ⟨inside, same, _⟩ := found
  exact ⟨_, List.getElem?_eq_getElem inside, by simpa using same⟩

section

variable {pool : TxMempool} (indexed : Indexed pool)
include indexed

theorem Indexed.remove (hash : Uint256) : Indexed (txMempoolRemove pool hash) := by
  rw [txMempoolRemove]
  split
  · exact indexed
  · rename_i idx found
    obtain ⟨entry, here, _⟩ := findEntryByHash_eq_some found
    have counted : Indexed { pool with removedDirectTotal := pool.removedDirectTotal + 1 } :=
      { indexed with }
    exact counted.removeEntryAt here

theorem Indexed.removeConfirmed (hash : Uint256) : Indexed (removeConfirmed pool hash) := by
  rw [Validation.removeConfirmed]
  split
  · exact indexed
  · rename_i idx found
    obtain ⟨entry, here, _⟩ := findEntryByHash_eq_some found
    have counted : Indexed { pool with removedForBlockTotal := pool.removedForBlockTotal + 1 } :=
      { indexed with }
    exact counted.removeEntryAt here

theorem Indexed.removeForBlock (txs : List Transaction)
    : Indexed (txMempoolRemoveForBlock pool txs) := by
  rw [txMempoolRemoveForBlock]
  induction txs generalizing pool with
  | nil => exact indexed
  | cons tx rest ih => exact ih (indexed.removeConfirmed tx.hash)

theorem Indexed.removeOtherBranches (branchId : UInt32) (i : Nat)
    : Indexed (removeOtherBranches branchId pool i) := by
  fun_induction Validation.removeOtherBranches branchId pool i with
  | case1 pool i outside => exact indexed
  | case2 pool i entry here differs ih =>
    have counted
        : Indexed { pool with removedForBranchTotal := pool.removedForBranchTotal + 1 } :=
      { indexed with }
    exact ih (counted.removeEntryAt here)
  | case3 pool i entry here same ih => exact ih indexed

end

/-- The calls that change a pool, with the ways their allocations go. -/
inductive PoolOp where
  | add (tx : Transaction) (branchId : UInt32) (built : InitAllocs) (allocs : AddAllocs)
  | remove (hash : Uint256)
  | removeForBlock (txs : List Transaction)
  | removeWithoutBranchId (branchId : UInt32)
  | clear

/-- The caller of `tx_mempool_add_unchecked` builds the entry and gives the transaction's hash. -/
def addTransaction (pool : TxMempool) (tx : Transaction) (branchId : UInt32) (built : InitAllocs)
    (allocs : AddAllocs) : Bool × TxMempool :=
  txMempoolAddUnchecked pool tx.hash (mempoolEntryInit built tx branchId) allocs

def PoolOp.run (pool : TxMempool) : PoolOp → TxMempool
  | .add tx branchId built allocs => (addTransaction pool tx branchId built allocs).2
  | .remove hash => txMempoolRemove pool hash
  | .removeForBlock txs => txMempoolRemoveForBlock pool txs
  | .removeWithoutBranchId branchId => txMempoolRemoveWithoutBranchId pool branchId
  | .clear => txMempoolClear pool

def PoolOp.DistinctInputs : PoolOp → Prop
  | .add tx _ _ _ => (tx.vin.map TxIn.prevout).Nodup
  | _ => True

/--
The streams that measure an entry, where it is built and inside the add, and the copy inside the
add get the memory they ask for. The copy of the caller, the table and the array may not.
-/
def PoolOp.Measured : PoolOp → Prop
  | .add tx _ built allocs =>
    transactionSerializeSize (transactionCopy built.copies tx) ≤ built.room
      ∧ transactionCopy allocs.init.copies (transactionCopy built.copies tx)
          = transactionCopy built.copies tx
      ∧ transactionSerializeSize (transactionCopy built.copies tx) ≤ allocs.init.room
  | _ => True

theorem transactionCopy_cases (allocated : Bool) (tx : Transaction)
    : (transactionCopy allocated tx).hash = tx.hash
        ∧ ((transactionCopy allocated tx).vin = []
          ∨ (transactionCopy allocated tx).vin = tx.vin ∧ tx.vin.length ≤ maxTxInputs) := by
  rw [transactionCopy]
  split
  · rename_i complete
    simp only [Bool.and_eq_true, decide_eq_true_eq] at complete
    exact ⟨rfl, .inr ⟨rfl, complete.1.2⟩⟩
  · exact ⟨rfl, .inl rfl⟩

theorem mempoolEntryInit_few (built : InitAllocs) (tx : Transaction) (branchId : UInt32)
    : (mempoolEntryInit built tx branchId).tx.vin.length ≤ maxTxInputs := by
  obtain ⟨_, copied⟩ := transactionCopy_cases built.copies tx
  dsimp only [mempoolEntryInit]
  rcases copied with hollow | ⟨same, few⟩
  · rw [hollow]
    exact Nat.zero_le _
  · rw [same]
    exact few

theorem Indexed.add {pool : TxMempool} (indexed : Indexed pool) {tx : Transaction}
    {branchId : UInt32} {built : InitAllocs} {allocs : AddAllocs}
    (distinct : (PoolOp.add tx branchId built allocs).DistinctInputs)
    (measured : (PoolOp.add tx branchId built allocs).Measured)
    : Indexed (addTransaction pool tx branchId built allocs).2 := by
  have few := mempoolEntryInit_few built tx branchId
  obtain ⟨sameHash, copied⟩ := transactionCopy_cases built.copies tx
  obtain ⟨measuredBuilt, copies, measuredAgain⟩ := measured
  have size : (mempoolEntryInit built tx branchId).txSize.toNat
      = transactionSerializeSize (transactionCopy built.copies tx) := by
    have short := built.room_lt
    dsimp only [mempoolEntryInit]
    rw [Nat.min_eq_right measuredBuilt, UInt64.toNat_ofNat', Nat.mod_eq_of_lt (by omega)]
  cases outcome : addTransaction pool tx branchId built allocs with
  | mk added after =>
    cases added with
    | false => exact (indexed.addUnchecked_refused few outcome rfl).indexed
    | true =>
      refine indexed.addUnchecked_added few outcome rfl sameHash.symm ?_ ?_ ?_ ?_
      · rcases copied with hollow | ⟨same, _⟩
        · rw [mempoolEntryInit, hollow]
          exact List.nodup_nil
        · rw [mempoolEntryInit, same]
          exact distinct
      · rw [size]
        exact inputs_le_size _
      · rw [size]
        exact Nat.lt_of_le_of_lt measuredBuilt built.room_lt
      · simp only [mempoolEntryInit, copies, Nat.min_eq_right measuredBuilt,
          Nat.min_eq_right measuredAgain]

theorem Indexed.run {pool : TxMempool} (indexed : Indexed pool) {op : PoolOp}
    (distinct : op.DistinctInputs) (measured : op.Measured)
    : Indexed (op.run pool) := by
  cases op with
  | add tx branchId built allocs => exact indexed.add distinct measured
  | remove hash => exact indexed.remove hash
  | removeForBlock txs => exact indexed.removeForBlock txs
  | removeWithoutBranchId branchId => exact indexed.removeOtherBranches branchId 0
  | clear => exact indexed.clear

theorem Indexed.runs {pool : TxMempool} (indexed : Indexed pool) {ops : List PoolOp}
    (distinct : ∀ op ∈ ops, op.DistinctInputs) (measured : ∀ op ∈ ops, op.Measured)
    : Indexed (ops.foldl PoolOp.run pool) := by
  induction ops generalizing pool with
  | nil => exact indexed
  | cons op rest ih =>
    refine ih (indexed.run (distinct op List.mem_cons_self) (measured op List.mem_cons_self))
      (List.forall_mem_cons.mp distinct).2
      (List.forall_mem_cons.mp measured).2

/-- The entries and the table say the same. -/
structure Coherent (pool : TxMempool) : Prop where
  txids : (pool.entries.map fun entry => entry.tx.hash).Nodup
  apart
    : ∀ op ip other, Spends pool.entries op ip → Spends pool.entries op other → ip = other
  found
    : ∀ op, (outpointFind pool op).isSome
        ↔ ∃ entry ∈ pool.entries, op ∈ entry.tx.vin.map TxIn.prevout
  finds : ∀ op ip, outpointFind pool op = some ip ↔ Spends pool.entries op ip
  slots : pool.nextTxUsed = used pool.nextTx
  load : pool.nextTxUsed * 10 ≤ pool.nextTx.length * 7
  total : pool.totalTxSize.toNat = (pool.entries.map fun entry => entry.txSize.toNat).sum

theorem Indexed.coherent {pool : TxMempool} (indexed : Indexed pool) : Coherent pool where
  txids := indexed.txids
  apart := fun _ _ _ => indexed.spends_unique
  found := fun op => by
    rw [Option.isSome_iff_exists]
    simp only [indexed.find_eq_some_iff]
    constructor
    · rintro ⟨ip, entry, input, here, inside, rfl⟩
      exact ⟨entry, List.mem_of_getElem? here, List.mem_map_of_mem (List.mem_of_getElem? inside)⟩
    · rintro ⟨entry, member, spends⟩
      obtain ⟨idx, here⟩ := List.mem_iff_getElem?.mp member
      obtain ⟨n, there⟩ := (mem_prevouts_iff here (indexed.few entry member) op).mp spends
      exact ⟨_, there⟩
  finds := fun op ip => indexed.find_eq_some_iff
  slots := indexed.slots
  load := indexed.load
  total := indexed.total

/-- An add that gives false leaves the entries and every lookup as they are. -/
def RefusesCleanly (pool : TxMempool) : Prop :=
  ∀ tx branchId built allocs after,
    addTransaction pool tx branchId built allocs = (false, after) →
      after.entries = pool.entries
        ∧ (∀ op, outpointFind after op = outpointFind pool op)
        ∧ ∀ hash, findEntryByHash after hash = findEntryByHash pool hash

theorem Indexed.refusesCleanly {pool : TxMempool} (indexed : Indexed pool)
    : RefusesCleanly pool := by
  intro tx branchId built allocs after ran
  have refused := indexed.addUnchecked_refused (mempoolEntryInit_few built tx branchId) ran rfl
  refine ⟨refused.entries, refused.finds, fun hash => ?_⟩
  rw [findEntryByHash, findEntryByHash, refused.entries]

/-- Every state that a run reaches from the new pool is coherent and refuses cleanly. -/
theorem run_coherent (ops : List PoolOp) (distinct : ∀ op ∈ ops, op.DistinctInputs)
    (measured : ∀ op ∈ ops, op.Measured)
    : Coherent (ops.foldl PoolOp.run txMempoolInit)
        ∧ RefusesCleanly (ops.foldl PoolOp.run txMempoolInit) := by
  have indexed := indexed_init.runs distinct measured
  exact ⟨indexed.coherent, indexed.refusesCleanly⟩

/-- A transaction with one input and one output. -/
def payment (txid : UInt8) : Transaction where
  vin := [{ prevout := { hash := Uint256.fill 7, n := 0 } }]
  vout := [{ value := 1000, scriptPubKey := [] }]
  hash := Uint256.fill txid

/-- Every allocation of an entry succeeds. -/
def ampleAllocs : InitAllocs := { copies := true, room := 4096, room_lt := by decide }

theorem payment_distinct (txid : UInt8) (branchId : UInt32) (built : InitAllocs)
    (allocs : AddAllocs)
    : ∀ op ∈ [PoolOp.add (payment txid) branchId built allocs], op.DistinctInputs := by
  intro op member
  rw [List.mem_singleton] at member
  subst member
  exact List.nodup_singleton _

/-- The new pool takes the payment; the table is asked once and has room. -/
theorem addTransaction_payment (txid : UInt8) (allocs : InitAllocs)
    : addTransaction txMempoolInit (payment txid) 0 ampleAllocs
          { map := true, entries := true, init := allocs }
        = (true, appendEntry txMempoolInit (mempoolEntryInit ampleAllocs (payment txid) 0)
            allocs) := by
  have unspent : outpointFind txMempoolInit { hash := Uint256.fill 7, n := 0 } = none := by
    refine Option.eq_none_iff_forall_ne_some.mpr fun ip spends => ?_
    obtain ⟨entry, _, here, _⟩ := indexed_init.find_eq_some_iff.mp spends
    cases here
  have size : (mempoolEntryInit ampleAllocs (payment txid) 0).txSize = 60 := rfl
  have inputs : (mempoolEntryInit ampleAllocs (payment txid) 0).tx.vin = (payment txid).vin := rfl
  have limited : ¬ txMempoolInit.totalTxSize + 60 > maxMempoolBytes := by decide
  have length : txMempoolInit.nextTx.length = 4096 := List.length_replicate
  rw [addTransaction, txMempoolAddUnchecked, size, inputs]
  rw [if_neg (by simp [findEntryByHash, txMempoolInit]), if_neg limited,
    if_neg (by simp [payment, unspent])]
  rw [mempoolReserveOutpointMap, length, if_neg (by simp [payment, txMempoolInit])]
  rfl

theorem run_coherent_payment
    : (addTransaction txMempoolInit (payment 1) 0 ampleAllocs
          { map := true, entries := true, init := ampleAllocs }).1 = true
        ∧ Coherent ([PoolOp.add (payment 1) 0 ampleAllocs
          { map := true, entries := true, init := ampleAllocs }].foldl PoolOp.run
            txMempoolInit) := by
  refine ⟨by rw [addTransaction_payment], ?_⟩
  refine (run_coherent _ (payment_distinct 1 0 _ _) ?_).1
  intro op member
  rw [List.mem_singleton] at member
  subst member
  exact ⟨by decide, rfl, by decide⟩

/-- The arrays of the copy inside the add are not had. -/
def failingCopy : InitAllocs := { copies := false, room := 4096, room_lt := by decide }

/-- The pool counts the bytes of the caller's entry for an entry that lost its arrays. -/
theorem run_incoherent_failing_copy
    : ¬ ∀ ops : List PoolOp, (∀ op ∈ ops, op.DistinctInputs) →
        Coherent (ops.foldl PoolOp.run txMempoolInit)
          ∧ RefusesCleanly (ops.foldl PoolOp.run txMempoolInit) := by
  intro claim
  have coherent := (claim
    [.add (payment 1) 0 ampleAllocs { map := true, entries := true, init := failingCopy }]
    (payment_distinct 1 0 _ _)).1
  have total := coherent.total
  have state : [PoolOp.add (payment 1) 0 ampleAllocs
      { map := true, entries := true, init := failingCopy }].foldl PoolOp.run txMempoolInit
        = appendEntry txMempoolInit (mempoolEntryInit ampleAllocs (payment 1) 0) failingCopy := by
    rw [List.foldl_cons, List.foldl_nil, PoolOp.run, addTransaction_payment]
  rw [state] at total
  have counted : (appendEntry txMempoolInit (mempoolEntryInit ampleAllocs (payment 1) 0)
      failingCopy).totalTxSize.toNat = 60 := rfl
  have held : ((appendEntry txMempoolInit (mempoolEntryInit ampleAllocs (payment 1) 0)
      failingCopy).entries.map fun entry => entry.txSize.toNat).sum = 10 := rfl
  rw [counted, held] at total
  cases total

-- A connected block

theorem removeConfirmed_perm {pool : TxMempool}
    (txids : (pool.entries.map fun entry => entry.tx.hash).Nodup) (hash : Uint256)
    : (removeConfirmed pool hash).entries.Perm
        (pool.entries.filter fun entry => entry.tx.hash ≠ hash) := by
  rw [removeConfirmed]
  split
  · rename_i absent
    rw [List.filter_eq_self.mpr]
    intro entry member
    simpa using findEntryByHash_eq_none absent entry member
  · rename_i idx found
    obtain ⟨entry, here, own⟩ := findEntryByHash_eq_some found
    have perm := swapRemove_perm here
    have once := (perm.map fun entry => entry.tx.hash).nodup_iff.mpr txids
    rw [List.map_cons, List.nodup_cons] at once
    have others : (entry :: swapRemove pool.entries idx).filter (fun entry => entry.tx.hash ≠ hash)
        = swapRemove pool.entries idx := by
      rw [List.filter_cons_of_neg (by simp [own]), List.filter_eq_self.mpr]
      intro other member
      simp only [ne_eq, decide_not, Bool.not_eq_true', decide_eq_false_iff_not]
      intro same
      exact once.1 (List.mem_map.mpr ⟨other, member, same.trans own.symm⟩)
    have entries : (removeEntryAt
        { pool with removedForBlockTotal := pool.removedForBlockTotal + 1 } idx).entries
          = swapRemove pool.entries idx :=
      removeEntryAt_entries (List.getElem?_eq_some_iff.mp here).1
    rw [entries, ← others]
    exact perm.filter _

theorem removeForBlock_perm {pool : TxMempool}
    (txids : (pool.entries.map fun entry => entry.tx.hash).Nodup) (txs : List Transaction)
    : (txMempoolRemoveForBlock pool txs).entries.Perm
        (pool.entries.filter fun entry => entry.tx.hash ∉ txs.map Transaction.hash) := by
  rw [txMempoolRemoveForBlock]
  induction txs generalizing pool with
  | nil => simp
  | cons tx rest ih =>
    have first := removeConfirmed_perm txids tx.hash
    have kept : ((removeConfirmed pool tx.hash).entries.map fun entry => entry.tx.hash).Nodup :=
      (first.map _).nodup_iff.mpr (txids.sublist (List.filter_sublist.map _))
    refine (ih kept).trans ((first.filter _).trans ?_)
    rw [List.filter_filter]
    refine List.Perm.of_eq (List.filter_congr fun entry _ => ?_)
    simp only [List.map_cons, List.mem_cons, not_or, ne_eq, Bool.decide_and, Bool.and_comm]

theorem removeForBlock_confirmed {pool : TxMempool} (coherent : Coherent pool)
    (txs : List Transaction)
    : (∀ entry ∈ (txMempoolRemoveForBlock pool txs).entries, ∀ tx ∈ txs,
          entry.tx.hash ≠ tx.hash)
        ∧ (txMempoolRemoveForBlock pool txs).entries.Perm
            (pool.entries.filter fun entry => entry.tx.hash ∉ txs.map Transaction.hash) := by
  have perm := removeForBlock_perm coherent.txids txs
  refine ⟨fun entry member tx inside same => ?_, perm⟩
  have stays := (List.mem_filter.mp (perm.subset member)).2
  simp only [decide_eq_true_eq] at stays
  exact stays (List.mem_map.mpr ⟨tx, inside, same.symm⟩)

/-- The new pool after it took the payment. -/
def paidPool : TxMempool :=
  appendEntry txMempoolInit (mempoolEntryInit ampleAllocs (payment 1) 0) ampleAllocs

theorem paidPool_indexed : Indexed paidPool := by
  have indexed := indexed_init.add
    (payment_distinct 1 0 ampleAllocs { map := true, entries := true, init := ampleAllocs } _
      (List.mem_singleton_self _))
    ⟨by decide, rfl, by decide⟩
  rw [addTransaction_payment] at indexed
  exact indexed

theorem paidPool_entries : paidPool.entries = [mempoolEntryInit ampleAllocs (payment 1) 0] :=
  appendEntry_entries _ _ _

theorem removeForBlock_confirmed_payment
    : paidPool.entries.length = 1 ∧ (txMempoolRemoveForBlock paidPool [payment 1]).entries = [] := by
  have perm := (removeForBlock_confirmed paidPool_indexed.coherent [payment 1]).2
  rw [paidPool_entries] at perm ⊢
  exact ⟨rfl, perm.eq_nil⟩

/-- Another payment of the same outpoint is confirmed, and the pool keeps its own. -/
theorem removeForBlock_keeps_conflict
    : ¬ ∀ (pool : TxMempool) (txs : List Transaction), Coherent pool →
        (∀ entry ∈ (txMempoolRemoveForBlock pool txs).entries, ∀ tx ∈ txs,
            entry.tx.hash ≠ tx.hash)
          ∧ ∀ entry ∈ (txMempoolRemoveForBlock pool txs).entries, ∀ tx ∈ txs,
              ∀ op ∈ spentOutpoints tx, op ∉ entry.tx.vin.map TxIn.prevout := by
  intro claim
  have law := (claim _ [payment 2] paidPool_indexed.coherent).2
  have missed : findEntryByHash paidPool (payment 2).hash = none := by
    rw [findEntryByHash, paidPool_entries]
    decide
  have stays : txMempoolRemoveForBlock paidPool [payment 2] = paidPool := by
    rw [txMempoolRemoveForBlock, List.map_singleton, List.foldl_cons, List.foldl_nil,
      removeConfirmed, missed]
  rw [stays, paidPool_entries] at law
  exact law _ (List.mem_singleton_self _) _ (List.mem_singleton_self _)
    { hash := Uint256.fill 7, n := 0 } (by decide) (by decide)

end Z23.Validation
