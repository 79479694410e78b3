import Z23.Chain.SkipList

/-!
The window of the active chain: an array of blocks by height and the height that is visible of it.
A move writes from the new tip downwards until it meets a block that is already in its place, and
leaves what stands above the tip.
-/

namespace Z23.Validation

open Z23.Chain

-- Moves

/-- Models `struct active_chain`; the capacity is the length of the array. -/
structure ChainWindow where
  chain : List (Option BlockId) := []
  height : Int := -1
deriving DecidableEq, Repr

def intMax : Int := 2147483647

/-- Models `active_chain_grow_locked`; `alloc` says whether there is memory. -/
def activeChainGrowLocked (c : ChainWindow) (minHeight : Int) (alloc : Bool)
    : Option ChainWindow :=
  if minHeight < c.chain.length then some c
  else if !alloc then none
  else
    let oldCap : Int := c.chain.length
    let newCap := minHeight + 1024
    let newCap := if 0 < oldCap ∧ oldCap ≤ intMax / 2 ∧ newCap < oldCap * 2 then oldCap * 2 else newCap
    some { c with chain := c.chain ++ List.replicate (newCap - oldCap).toNat none }

section Blocks

variable (blocks : BlockStore)

/-- The inner loop of the fill: parents are skipped while they are above a height, as far as the
budget goes. -/
def skipHigher (h : Int) : Nat → Option BlockId → Nat × Option BlockId
  | budget, none => (budget, none)
  | 0, some p => if (blocks p).nHeight > h then (0, none) else (0, some p)
  | budget + 1, some p =>
    if (blocks p).nHeight > h then skipHigher h budget (blocks p).pprev else (budget + 1, some p)

/-- The outer loop of the fill, for the heights below a number. -/
def fillLoop (oldHeight : Int) : Nat → Nat → Option BlockId → List (Option BlockId)
    → List (Option BlockId)
  | 0, _, _, arr => arr
  | h + 1, budget, p, arr =>
    let (budget, p) := skipHigher blocks h budget p
    let slot := p.filter fun p => (blocks p).nHeight = h
    if slot = none ∧ (h : Int) ≤ oldHeight then arr
    else if (h : Int) ≤ oldHeight ∧ arr[h]? = some slot then arr
    else
      let arr := arr.set h slot
      match slot with
      | none => fillLoop oldHeight h budget p arr
      | some p =>
        if budget = 0 then fillLoop oldHeight h 0 none arr
        else fillLoop oldHeight h (budget - 1) (blocks p).pprev arr

def activeChainFillWindow (c : ChainWindow) (bi : BlockId) (alloc : Bool) : Bool × ChainWindow :=
  let newHeight := (blocks bi).nHeight
  match activeChainGrowLocked c newHeight alloc with
  | none => (false, c)
  | some c =>
    let arr := c.chain.set newHeight.toNat (some bi)
    (true, {
      chain := fillLoop blocks c.height newHeight.toNat (newHeight.toNat + 1) (blocks bi).pprev arr
      height := newHeight })

/-- The answer of `chain_linkage_check_advance`; `hold` is the height that moves are refused from
while a divergence is held. -/
def chainLinkageCheckAdvance (hold : Option Int) (bi : BlockId) : Bool :=
  if (blocks bi).pprev.any fun prev => (blocks prev).nHeight ≠ (blocks bi).nHeight - 1 then false
  else !hold.any fun refuseFrom => 0 ≤ refuseFrom ∧ refuseFrom ≤ (blocks bi).nHeight

def activeChainMoveWindowTip (hold : Option Int) (c : ChainWindow) (bi : Option BlockId)
    (alloc : Bool) : Bool × ChainWindow :=
  match bi with
  | none => (true, { c with height := -1 })
  | some bi =>
    if !chainLinkageCheckAdvance blocks hold bi then (false, c)
    else activeChainFillWindow blocks c bi alloc

def activeChainInstallTipSlot (c : ChainWindow) (bi : BlockId) (alloc : Bool)
    : Bool × ChainWindow :=
  if (blocks bi).nHeight < 0 then (false, c)
  else
    match activeChainGrowLocked c (blocks bi).nHeight alloc with
    | none => (false, c)
    | some c =>
      (true, {
        chain := c.chain.set (blocks bi).nHeight.toNat (some bi)
        height := (blocks bi).nHeight })

def activeChainExtendWindow (c : ChainWindow) (candidate : Option BlockId) (alloc : Bool)
    : Bool × ChainWindow :=
  match candidate with
  | none => (true, c)
  | some candidate =>
    if (blocks candidate).nHeight ≤ c.height then (true, c)
    else activeChainFillWindow blocks c candidate alloc

-- The extension along blocks with data

def hasData (bi : BlockIndex) : Bool := bi.nStatus &&& blockHaveData != 0

/-- Models `have_data_by_hash`; the map lists its entries. -/
def haveDataByHash (m : List BlockId) (anc : BlockId) : Option BlockId :=
  if hasData (blocks anc) then some anc
  else
    match m.find? fun id => (blocks id).hashBlock = (blocks anc).hashBlock with
    | none => none
    | some twin =>
      if twin = anc ∨ (blocks twin).nHeight ≠ (blocks anc).nHeight
          ∨ blockHasAnyFailure (blocks twin) ∨ !hasData (blocks twin) then none
      else some twin

def activeChainCachedTip (c : ChainWindow) : Option BlockId :=
  if c.height < 0 then none else c.chain[c.height.toNat]?.join

/-- Models `extend_window_have_data_anchor_tip`; `authority` is what `active_chain_tip` answers. -/
def extendWindowHaveDataAnchorTip (c : ChainWindow) (authority : Option BlockId) (alloc : Bool)
    : Option BlockId × ChainWindow :=
  match activeChainCachedTip c with
  | some tip => (some tip, c)
  | none =>
    match authority with
    | none => (none, c)
    | some tip =>
      if (blocks tip).nHeight ≠ c.height then (none, c)
      else (some tip, (activeChainInstallTipSlot blocks c tip alloc).2)

def extendWindowHaveDataFastApplies (bestHeader : BlockId) (tip : BlockId) (anchorHeight lo : Int)
    : Bool :=
  lo ≤ (blocks bestHeader).nHeight
    && (blockIndexGetAncestor blocks bestHeader anchorHeight).any fun guardAnc =>
      (blocks guardAnc).hashBlock = (blocks tip).hashBlock

/-- Follows the parents down to `lo`; a gap ends the extension. -/
def bestHeaderPath (lo : Int) : Nat → Option BlockId → List BlockId → Option (List BlockId)
  | 0, _, path => some path
  | _ + 1, none, _ => none
  | i + 1, some walk, path =>
    if (blocks walk).nHeight ≠ lo + i then none
    else bestHeaderPath lo i (blocks walk).pprev (walk :: path)

def extendWindowHaveDataAdvanceCand (m : List BlockId) : List BlockId → BlockId → BlockId
  | [], cand => cand
  | anc :: rest, cand =>
    if blockHasAnyFailure (blocks anc) then cand
    else
      match haveDataByHash blocks m anc with
      | none => cand
      | some have_ => extendWindowHaveDataAdvanceCand m rest have_

def extendWindowHaveDataFast (c : ChainWindow) (m : List BlockId) (bestHeader : BlockId)
    (lo hi : Int) (alloc : Bool) : Bool × ChainWindow :=
  match (blockIndexGetAncestor blocks bestHeader lo).bind (haveDataByHash blocks m) with
  | none => (true, c)
  | some cand =>
    if blockHasAnyFailure (blocks cand) then (true, c)
    else
      let pathHi := min hi (blocks bestHeader).nHeight
      let top := blockIndexGetAncestor blocks bestHeader pathHi
      match bestHeaderPath blocks lo (pathHi - lo + 1).toNat top [] with
      | none => (true, c)
      | some path =>
        activeChainFillWindow blocks c
          (extendWindowHaveDataAdvanceCand blocks m (path.drop 1) cand) alloc

def extendWindowHaveDataEntry (q : BlockId) (lo hi : Int) : Bool :=
  lo ≤ (blocks q).nHeight && (blocks q).nHeight ≤ hi && !blockHasAnyFailure (blocks q)
    && hasData (blocks q)

/-- The climb from the tip; every step is one height up and stays within those collected, so
`fuel` is the number of heights. -/
def extendWindowContiguousSuccessor (elig : List BlockId) : Nat → BlockId → BlockId
  | 0, cand => cand
  | fuel + 1, cand =>
    match elig.find? fun ch =>
      ((blocks ch).pprev.any fun prev => (blocks prev).hashBlock = (blocks cand).hashBlock)
        && (blocks ch).nHeight = (blocks cand).nHeight + 1 with
    | none => cand
    | some ch => extendWindowContiguousSuccessor elig fuel ch

/-- The scan of the whole map; `scratch` says whether there is memory for what it collects. -/
def extendWindowHaveDataSlow (c : ChainWindow) (m : List BlockId) (tip : BlockId) (lo hi : Int)
    (alloc scratch : Bool) : Bool × ChainWindow :=
  let elig := m.filter fun q => extendWindowHaveDataEntry blocks q lo hi
  if elig = [] ∨ !scratch then (true, c)
  else
    let cand := extendWindowContiguousSuccessor blocks elig (hi - lo + 1).toNat tip
    if cand = tip ∨ (blocks cand).nHeight ≤ c.height then (true, c)
    else activeChainFillWindow blocks c cand alloc

def activeChainExtendHaveDataMaxGap : Int := 8192

def activeChainExtendWindowHaveData (c : ChainWindow) (m : List BlockId)
    (bestHeader : Option BlockId) (maxHeight : Int) (authority : Option BlockId)
    (alloc scratch : Bool) : Bool × ChainWindow :=
  if c.height < 0 ∨ maxHeight ≤ c.height then (true, c)
  else
    match extendWindowHaveDataAnchorTip blocks c authority alloc with
    | (none, c) => (true, c)
    | (some tip, c) =>
      let lo := c.height + 1
      let hi := if maxHeight - lo + 1 > activeChainExtendHaveDataMaxGap
        then lo + activeChainExtendHaveDataMaxGap - 1 else maxHeight
      match bestHeader.filter fun best => extendWindowHaveDataFastApplies blocks best tip c.height lo with
      | some best => extendWindowHaveDataFast blocks c m best lo hi alloc
      | none => extendWindowHaveDataSlow blocks c m tip lo hi alloc scratch

end Blocks

end Z23.Validation
