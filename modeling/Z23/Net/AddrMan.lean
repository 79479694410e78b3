import Z23.Lib.TombTable
import Z23.Net.NetAddr

/-!
The address manager: entries under ids that are handed out in order, a table of new addresses in
which an entry may stand up to eight times, a table of tried ones, a random order of the entries
in use and an index from addresses to ids. The hash, the clock and the random source are
parameters.
-/

namespace Z23.Net

open Z23.Lib.Bytes
open Z23.Lib.TombTable

-- Data model

def triedBucketCount : Nat := 256

def newBucketCount : Nat := 1024

def bucketSize : Nat := 64

def triedBucketsPerGroup : Nat := 8

def newBucketsPerSourceGroup : Nat := 64

def newBucketsPerAddress : Nat := 8

def addrmanHorizonDays : Int := 30

def addrmanRetries : Int := 3

def addrmanMaxFailures : Int := 10

def addrmanMinFailDays : Int := 7

def getaddrMaxPct : Nat := 23

def getaddrMax : Nat := 2500

def addrmanMaxEntries : Nat := newBucketCount * bucketSize

def indexInitialSlots : Nat := 8192

def initialEntriesCap : Nat := 4096

/-- Models `struct addr_info`. -/
structure AddrInfo where
  addr : NetAddress
  source : NetAddr
  lastSuccess : Int
  lastTry : Int
  chargedEpoch : Nat
  attempts : Int
  refCount : Int
  inTried : Bool
  randomPos : Nat
  used : Bool
deriving Repr

/-- A zeroed entry. -/
def AddrInfo.zero : AddrInfo :=
  { addr := ⟨⟨.zero, 0⟩, 0, 0⟩
    source := .zero
    lastSuccess := 0
    lastTry := 0
    chargedEpoch := 0
    attempts := 0
    refCount := 0
    inTried := false
    randomPos := 0
    used := false }

/-- Models `struct addr_man`: `entries_cap` is the number of entries, `random_size` the length of
the random order, and the slot of a bucket stands at `bucket * bucketSize + position`, with `none`
for the free mark `-1`. -/
structure AddrMan where
  nKey : Uint256
  entries : List AddrInfo
  idCount : Nat
  idx : Table NetAddr Nat
  randomOrder : List Nat
  triedCount : Int
  vvTried : List (Option Nat)
  newCount : Int
  vvNew : List (Option Nat)
  connectEpoch : Nat
deriving Repr

namespace AddrMan

def entry (am : AddrMan) (id : Nat) : AddrInfo := am.entries.getD id .zero

def modifyEntry (am : AddrMan) (id : Nat) (change : AddrInfo → AddrInfo) : AddrMan :=
  { am with entries := am.entries.modify id change }

def slotIndex (bucket pos : Nat) : Nat := bucket * bucketSize + pos

def newSlot (am : AddrMan) (bucket pos : Nat) : Option Nat :=
  am.vvNew.getD (slotIndex bucket pos) none

def triedSlot (am : AddrMan) (bucket pos : Nat) : Option Nat :=
  am.vvTried.getD (slotIndex bucket pos) none

def setNewSlot (am : AddrMan) (bucket pos : Nat) (id : Option Nat) : AddrMan :=
  { am with vvNew := am.vvNew.set (slotIndex bucket pos) id }

def setTriedSlot (am : AddrMan) (bucket pos : Nat) (id : Option Nat) : AddrMan :=
  { am with vvTried := am.vvTried.set (slotIndex bucket pos) id }

end AddrMan

-- Buckets

/-- The first eight bytes of a hash as a word. -/
def hashWord (hash : Uint256) : Nat := natLE (hash.data.take 8)

section Buckets

variable (hash256 : List UInt8 → Uint256)

namespace AddrInfo

def getTriedBucket (info : AddrInfo) (nKey : Uint256) : Nat :=
  let h1 := hashWord (hash256 (nKey.data ++ info.addr.svc.getKey))
  let bucketSeed := h1 % triedBucketsPerGroup
  let h2 := hashWord
    (hash256 (nKey.data ++ info.addr.svc.addr.getGroup ++ bytesLE 8 bucketSeed))
  h2 % triedBucketCount

def getNewBucket (info : AddrInfo) (nKey : Uint256) (src : NetAddr) : Nat :=
  let h1 := hashWord (hash256 (nKey.data ++ info.addr.svc.addr.getGroup ++ src.getGroup))
  let bucketSeed := h1 % newBucketsPerSourceGroup
  let h2 := hashWord (hash256 (nKey.data ++ src.getGroup ++ bytesLE 8 bucketSeed))
  h2 % newBucketCount

/-- The mark byte is `N` for the new table and `K` for the tried one. -/
def getBucketPosition (info : AddrInfo) (nKey : Uint256) (fNew : Bool) (nBucket : Nat) : Nat :=
  hashWord (hash256 (nKey.data ++ [if fNew then 0x4e else 0x4b] ++ bytesLE 4 nBucket
    ++ info.addr.svc.getKey)) % bucketSize

end AddrInfo

end Buckets

/-- Models `addr_info_is_terrible`. -/
def AddrInfo.isTerrible (info : AddrInfo) (nNow : Int) : Bool :=
  let nTime : Int := info.addr.nTime.toNat
  if info.lastTry ≠ 0 ∧ info.lastTry ≥ nNow - 60 then false
  else if nTime > nNow + 10 * 60 then true
  else if nTime = 0 ∨ nNow - nTime > addrmanHorizonDays * 24 * 60 * 60 then true
  else if info.lastSuccess = 0 ∧ info.attempts ≥ addrmanRetries then true
  else if nNow - info.lastSuccess > addrmanMinFailDays * 24 * 60 * 60
      ∧ info.attempts ≥ addrmanMaxFailures then true
  else false

-- Address index

/-- FNV-1a over the bytes that tell addresses apart. -/
def addrIndexHash (a : NetAddr) (mask : Nat) : Nat :=
  let bytes := a.ip ++ (match a.torv3 with
    | some key => 1 :: key.data
    | none => [0])
  let fnv : UInt64 := bytes.foldl
    (fun fnv byte => (fnv ^^^ byte.toUInt64) * 1099511628211) 14695981039346656037
  fnv.toNat &&& mask

namespace AddrMan

def indexLookup (am : AddrMan) (addr : NetAddr) : Option Nat := am.idx.lookup addrIndexHash addr

/-- The lowest used id of an address. -/
def scanId (am : AddrMan) (addr : NetAddr) : Option Nat :=
  (List.range am.idCount).find? fun id =>
    (am.entry id).used && (am.entry id).addr.svc.addr = addr

/-- The ids in use, in order. -/
def usedIds (am : AddrMan) : List Nat := (List.range am.idCount).filter fun id => (am.entry id).used

/-- What a rebuild of the index reads. -/
def indexRows (am : AddrMan) : List (NetAddr × Nat) :=
  am.usedIds.map fun id => ((am.entry id).addr.svc.addr, id)

def indexReserveOne (am : AddrMan) : AddrMan :=
  { am with idx := am.idx.reserveOne addrIndexHash am.indexRows }

def indexInsertRaw (am : AddrMan) (addr : NetAddr) (id : Nat) : AddrMan :=
  { am with idx := am.idx.insertRaw addrIndexHash addr id }

def indexRemove (am : AddrMan) (addr : NetAddr) : AddrMan :=
  { am with idx := am.idx.remove addrIndexHash addr }

/-- Models `addrman_init` with the key drawn there. -/
def init (nKey : Uint256) : AddrMan :=
  { nKey
    entries := List.replicate initialEntriesCap .zero
    idCount := 0
    idx := Table.blank indexInitialSlots
    randomOrder := []
    triedCount := 0
    vvTried := List.replicate (triedBucketCount * bucketSize) none
    newCount := 0
    vvNew := List.replicate (newBucketCount * bucketSize) none
    connectEpoch := 1 }

/-- Without an index the entries are scanned; a row of the index counts only when its entry is in
use under the address. -/
def findAddr (am : AddrMan) (addr : NetAddr) : Option Nat :=
  if am.idx.slots.length = 0 then am.scanId addr
  else
    (am.indexLookup addr).filter fun id =>
      id < am.entries.length && (am.entry id).used && (am.entry id).addr.svc.addr = addr

-- Entries

def swapRandom (am : AddrMan) (p1 p2 : Nat) : AddrMan :=
  if p1 = p2 then am
  else
    match am.randomOrder[p1]?, am.randomOrder[p2]? with
    | some id1, some id2 =>
      if id1 ≥ am.entries.length ∨ id2 ≥ am.entries.length then am
      else
        { (am.modifyEntry id1 fun info => { info with randomPos := p2 }).modifyEntry id2
            fun info => { info with randomPos := p1 } with
          randomOrder := (am.randomOrder.set p1 id2).set p2 id1 }
    | _, _ => am

/-- The entries made room for the id, or `none` past the largest capacity. -/
def growEntries (am : AddrMan) (id : Nat) : Option AddrMan :=
  if id ≥ am.entries.length then
    let newCap := min (am.entries.length * 2) addrmanMaxEntries
    if id ≥ newCap then none
    else
      some { am with
        entries := am.entries ++ List.replicate (newCap - am.entries.length) .zero }
  else some am

/-- The entry that is written for an address at the end of a random order of `randomSize`. -/
def freshEntry (addr : NetAddress) (source : NetAddr) (randomSize : Nat) : AddrInfo :=
  { AddrInfo.zero with addr, source, randomPos := randomSize, used := true }

/-- Models `create_entry`: the new state and the id, or `none` for the null pointer. -/
def createEntry (am : AddrMan) (addr : NetAddress) (source : NetAddr) : Option (AddrMan × Nat) :=
  let id := am.idCount
  (am.growEntries id).map fun am =>
    let am := am.indexReserveOne
    let am := { am with
      idCount := am.idCount + 1
      entries := am.entries.set id (freshEntry addr source am.randomOrder.length)
      randomOrder := am.randomOrder ++ [id] }
    (am.indexInsertRaw addr.svc.addr id, id)

def deleteEntry (am : AddrMan) (id : Nat) : AddrMan :=
  let info := am.entry id
  let am := am.indexRemove info.addr.svc.addr
  let am := am.swapRandom info.randomPos (am.randomOrder.length - 1)
  let am := { am with randomOrder := am.randomOrder.dropLast }
  let am := am.modifyEntry id fun info => { info with used := false }
  { am with newCount := am.newCount - 1 }

def clearNew (am : AddrMan) (bucket pos : Nat) : AddrMan :=
  match am.newSlot bucket pos with
  | none => am
  | some idDelete =>
    if idDelete ≥ am.entries.length then am.setNewSlot bucket pos none
    else
      let am := am.modifyEntry idDelete fun info => { info with refCount := info.refCount - 1 }
      let am := am.setNewSlot bucket pos none
      if (am.entry idDelete).refCount = 0 then am.deleteEntry idDelete else am

end AddrMan

-- Moving between the tables

section Tables

variable (hash256 : List UInt8 → Uint256)

namespace AddrMan

/-- The position of an entry in a bucket of the new table. -/
def newPos (am : AddrMan) (id bucket : Nat) : Nat :=
  (am.entry id).getBucketPosition hash256 am.nKey true bucket

def makeTriedUnlinkNew (am : AddrMan) (id : Nat) : AddrMan :=
  (List.range newBucketCount).foldl
    (fun am bucket =>
      let pos := am.newPos hash256 id bucket
      if am.newSlot bucket pos = some id then
        (am.setNewSlot bucket pos none).modifyEntry id
          fun info => { info with refCount := info.refCount - 1 }
      else am)
    am

/-- An evicted entry takes a free slot of the new table. -/
def placeEvicted (am : AddrMan) (idEvict bucket pos : Nat) : AddrMan :=
  let am := am.modifyEntry idEvict fun info => { info with refCount := 1 }
  let am := am.setNewSlot bucket pos (some idEvict)
  { am with newCount := am.newCount + 1 }

def makeTriedRequeueNew (am : AddrMan) (idEvict bucket pos : Nat) : AddrMan :=
  (am.clearNew bucket pos).placeEvicted idEvict bucket pos

def makeTriedOccupantIsGood (am : AddrMan) (now : Int) (existing : Option Nat) : Bool :=
  existing.any fun id =>
    id < am.entries.length && (am.entry id).used && !(am.entry id).isTerrible now
      && (am.entry id).refCount ≤ 1

/-- The bucket of a later attempt. -/
def altBucket (bucket attempt : Nat) : Nat := (bucket + attempt * 97) % newBucketCount

def makeTriedPlaceAltNew (am : AddrMan) (idEvict bucket pos : Nat) : AddrMan :=
  match (List.range' 1 7).find? fun attempt =>
      am.newSlot (altBucket bucket attempt) (am.newPos hash256 idEvict (altBucket bucket attempt))
        = none with
  | some attempt =>
    am.placeEvicted idEvict (altBucket bucket attempt)
      (am.newPos hash256 idEvict (altBucket bucket attempt))
  | none => am.makeTriedRequeueNew idEvict bucket pos

def makeTriedEvictSlot (am : AddrMan) (now : Int) (kBucket kPos : Nat) : AddrMan :=
  match am.triedSlot kBucket kPos with
  | none => am
  | some idEvict =>
    if idEvict ≥ am.entries.length then am.setTriedSlot kBucket kPos none
    else
      let am := am.modifyEntry idEvict fun info => { info with inTried := false }
      let am := am.setTriedSlot kBucket kPos none
      let am := { am with triedCount := am.triedCount - 1 }
      let bucket := (am.entry idEvict).getNewBucket hash256 am.nKey (am.entry idEvict).source
      let pos := am.newPos hash256 idEvict bucket
      if am.makeTriedOccupantIsGood now (am.newSlot bucket pos) then
        am.makeTriedPlaceAltNew hash256 idEvict bucket pos
      else am.makeTriedRequeueNew idEvict bucket pos

/-- The part of `make_tried` after the entry is unlinked. -/
def makeTriedLink (am : AddrMan) (now : Int) (id : Nat) : AddrMan :=
  let am := { am with newCount := am.newCount - 1 }
  let kBucket := (am.entry id).getTriedBucket hash256 am.nKey
  let kPos := (am.entry id).getBucketPosition hash256 am.nKey false kBucket
  let am := am.makeTriedEvictSlot hash256 now kBucket kPos
  let am := am.setTriedSlot kBucket kPos (some id)
  let am := { am with triedCount := am.triedCount + 1 }
  am.modifyEntry id fun info => { info with inTried := true }

def makeTried (am : AddrMan) (now : Int) (id : Nat) : AddrMan :=
  (am.makeTriedUnlinkNew hash256 id).makeTriedLink hash256 now id

end AddrMan

-- Adding

/-- `nTime - timePenalty`, not below zero, in 32 bits. -/
def penalizedTime (nTime : UInt32) (timePenalty : Int) : UInt32 :=
  UInt32.ofNat ((nTime.toNat : Int) - timePenalty).toNat

def addRefreshTime (info : AddrInfo) (addr : NetAddress) (timePenalty now : Int) : AddrInfo :=
  let theirs : Int := addr.nTime.toNat
  let ours : Int := info.addr.nTime.toNat
  let nUpdateInterval : Int := if now - theirs < 24 * 60 * 60 then 60 * 60 else 24 * 60 * 60
  let nTime :=
    if theirs ≠ 0 ∧ (ours = 0 ∨ ours < theirs - nUpdateInterval - timePenalty) then
      penalizedTime addr.nTime timePenalty
    else info.addr.nTime
  { info with addr.nTime := nTime, addr.nServices := info.addr.nServices ||| addr.nServices }

/-- Models `GetRandInt` on a word drawn from the random source. -/
def getRandInt (drawn nMax : Nat) : Nat := drawn % nMax

/-- `nFactor` is `2 ^ refCount`. -/
def addExistingWantsRef (info : AddrInfo) (addr : NetAddress) (drawn : Nat) : Bool :=
  if addr.nTime = 0 ∨ (info.addr.nTime ≠ 0 ∧ addr.nTime ≤ info.addr.nTime) then false
  else if info.inTried then false
  else if info.refCount = newBucketsPerAddress then false
  else
    let nFactor := 2 ^ info.refCount.toNat
    if nFactor > 1 ∧ getRandInt drawn nFactor ≠ 0 then false else true

namespace AddrMan

/-- A slot that holds no id of an entry is repaired on the way. -/
def addSlotReplaceable (am : AddrMan) (now : Int) (id bucket pos : Nat) : AddrMan × Bool :=
  match am.newSlot bucket pos with
  | none => (am, true)
  | some eId =>
    if eId ≥ am.entries.length then (am.setNewSlot bucket pos none, true)
    else
      (am, !(am.entry eId).used || (am.entry eId).isTerrible now
        || ((am.entry eId).refCount > 1 && (am.entry id).refCount = 0))

/-- One attempt after another; each reads the clock. -/
def addInsertAttempts (clock : Nat → Int) (id nUBucket : Nat) : List Nat → AddrMan → AddrMan × Bool
  | [], am => (am, false)
  | attempt :: rest, am =>
    let bucket := altBucket nUBucket attempt
    let pos := am.newPos hash256 id bucket
    if am.newSlot bucket pos = some id then (am, true)
    else
      let (am, fInsert) := am.addSlotReplaceable (clock attempt) id bucket pos
      if fInsert then
        let am := am.clearNew bucket pos
        let am := am.modifyEntry id fun info => { info with refCount := info.refCount + 1 }
        (am.setNewSlot bucket pos (some id), true)
      else addInsertAttempts clock id nUBucket rest am

def addInsertNewBucket (am : AddrMan) (clock : Nat → Int) (id : Nat) (source : NetAddr)
    : AddrMan × Bool :=
  addInsertAttempts hash256 clock id ((am.entry id).getNewBucket hash256 am.nKey source)
    (List.range newBucketsPerAddress) am

/-- The part of `addrman_add` after the entry is found or made. -/
def addPlace (am : AddrMan) (clock : Nat → Int) (id : Nat) (source : NetAddr) : AddrMan :=
  let (am, inserted) := am.addInsertNewBucket hash256 clock id source
  if !inserted && (am.entry id).refCount = 0 then am.deleteEntry id else am

/-- Models `addrman_add`; `now` is the clock of the refresh, `clock` those of the attempts and
`drawn` the random word. -/
def add (am : AddrMan) (now : Int) (clock : Nat → Int) (drawn : Nat) (addr : NetAddress)
    (source : NetAddr) (timePenalty : Int)
    : AddrMan × Bool :=
  if !addr.svc.addr.isRoutable then (am, false)
  else
    match am.findAddr addr.svc.addr with
    | some id =>
      let am := am.modifyEntry id fun info => addRefreshTime info addr timePenalty now
      if addExistingWantsRef (am.entry id) addr drawn then
        (am.addPlace hash256 clock id source, false)
      else (am, false)
    | none =>
      match am.createEntry addr source with
      | none => (am, false)
      | some (am, id) =>
        let am := am.modifyEntry id fun info =>
          { info with addr.nTime := penalizedTime info.addr.nTime timePenalty }
        let am := { am with newCount := am.newCount + 1 }
        (am.addPlace hash256 clock id source, true)

-- The other calls

/-- The entry of a service, not only of its address. -/
def findService (am : AddrMan) (svc : NetService) : Option Nat :=
  (am.findAddr svc.addr).filter fun id => (am.entry id).addr.svc = svc

/-- The bucket of the new table where a scan from a random one finds the id. -/
def findNewBucket (am : AddrMan) (drawn id : Nat) : Option Nat :=
  ((List.range newBucketCount).map fun n =>
      (n + getRandInt drawn newBucketCount) % newBucketCount).find? fun bucket =>
    am.newSlot bucket (am.newPos hash256 id bucket) = some id

def good (am : AddrMan) (now : Int) (drawn : Nat) (svc : NetService) (nTime : Int) : AddrMan :=
  let am := { am with connectEpoch := (am.connectEpoch + 1) % 2 ^ 64 }
  match am.findService svc with
  | none => am
  | some id =>
    let am := am.modifyEntry id fun info =>
      { info with lastSuccess := nTime, lastTry := nTime, attempts := 0 }
    if (am.entry id).inTried then am
    else
      match am.findNewBucket hash256 drawn id with
      | none => am
      | some _ => am.makeTried hash256 now id

def attempt (am : AddrMan) (svc : NetService) (nTime : Int) (outage : Bool) : AddrMan :=
  match am.findService svc with
  | none => am
  | some id =>
    am.modifyEntry id fun info =>
      { info with
        lastTry := nTime
        attempts :=
          if !outage ∨ info.chargedEpoch ≠ am.connectEpoch then info.attempts + 1
          else info.attempts
        chargedEpoch := am.connectEpoch }

def connected (am : AddrMan) (svc : NetService) (nTime : Int) : AddrMan :=
  match am.findService svc with
  | none => am
  | some id =>
    am.modifyEntry id fun info =>
      if nTime - info.addr.nTime.toNat > 20 * 60 then
        { info with addr.nTime := UInt32.ofInt nTime }
      else info

/-- The loop of `addrman_sample` from position `n` with `room` addresses still wanted; `fuel` is
the number of positions left. -/
def sampleLoop (includeTor : Bool) (nNow : Int) (drawn : Nat → Nat)
    : Nat → Nat → Nat → AddrMan → AddrMan × List NetAddress
  | 0, _, _, am => (am, [])
  | _, _, 0, am => (am, [])
  | fuel + 1, n, room + 1, am =>
    let am := am.swapRandom n (getRandInt (drawn n) (am.randomOrder.length - n) + n)
    let chosen := (am.randomOrder[n]?).filter fun id =>
      id < am.entries.length && (includeTor || !(am.entry id).addr.svc.addr.isTor)
        && !(am.entry id).isTerrible nNow
    match chosen with
    | none => sampleLoop includeTor nNow drawn fuel (n + 1) (room + 1) am
    | some id =>
      let (am', out) := sampleLoop includeTor nNow drawn fuel (n + 1) room am
      (am', (am.entry id).addr :: out)

/-- Models `addrman_sample`: the addresses are those written to `out`. -/
def sample (am : AddrMan) (nNow : Int) (drawn : Nat → Nat) (maxOut : Nat) (includeTor : Bool)
    : AddrMan × List NetAddress :=
  let nNodes := min (min (getaddrMaxPct * am.randomOrder.length / 100) getaddrMax) maxOut
  sampleLoop includeTor nNow drawn am.randomOrder.length 0 nNodes am

def getAddr (am : AddrMan) (nNow : Int) (drawn : Nat → Nat) (maxOut : Nat)
    : AddrMan × List NetAddress :=
  am.sample nNow drawn maxOut false

end AddrMan

-- Runs

/-- A call with the clock readings and the random words it meets. -/
inductive AddrManCall where
  | add (now : Int) (clock : Nat → Int) (drawn : Nat) (addr : NetAddress) (source : NetAddr)
      (timePenalty : Int)
  | good (now : Int) (drawn : Nat) (svc : NetService) (nTime : Int)
  | attempt (svc : NetService) (nTime : Int) (outage : Bool)
  | connected (svc : NetService) (nTime : Int)
  | getAddr (nNow : Int) (drawn : Nat → Nat) (maxOut : Nat)

def AddrMan.step (am : AddrMan) : AddrManCall → AddrMan
  | .add now clock drawn addr source timePenalty =>
    (am.add hash256 now clock drawn addr source timePenalty).1
  | .good now drawn svc nTime => am.good hash256 now drawn svc nTime
  | .attempt svc nTime outage => am.attempt svc nTime outage
  | .connected svc nTime => am.connected svc nTime
  | .getAddr nNow drawn maxOut => (am.getAddr nNow drawn maxOut).1

def AddrMan.run (am : AddrMan) (calls : List AddrManCall) : AddrMan :=
  calls.foldl (AddrMan.step hash256) am

end Tables

-- Consistency check

namespace AddrMan

def checkNewSlot (am : AddrMan) (b p : Nat) : Except String Unit :=
  match am.newSlot b p with
  | none => .ok ()
  | some id =>
    let info := am.entry id
    if id ≥ am.entries.length then
      .error s!"new[{b}][{p}]: id={id} out of range (cap={am.entries.length})"
    else if !info.used then .error s!"new[{b}][{p}]: id={id} not used"
    else if info.inTried then .error s!"new[{b}][{p}]: id={id} is in tried table"
    else if info.refCount ≤ 0 then
      .error s!"new[{b}][{p}]: id={id} ref_count={info.refCount} <= 0"
    else .ok ()

def checkTriedSlot (am : AddrMan) (b p : Nat) : Except String Unit :=
  match am.triedSlot b p with
  | none => .ok ()
  | some id =>
    if id ≥ am.entries.length then .error s!"tried[{b}][{p}]: id={id} out of range"
    else if !(am.entry id).used then .error s!"tried[{b}][{p}]: id={id} not used"
    else if !(am.entry id).inTried then
      .error s!"tried[{b}][{p}]: id={id} not marked in_tried"
    else .ok ()

def ccCheckNewTable (am : AddrMan) : Except String Unit :=
  (List.range newBucketCount).forM fun b => (List.range bucketSize).forM fun p =>
    am.checkNewSlot b p

def ccCheckTriedTable (am : AddrMan) : Except String Unit :=
  (List.range triedBucketCount).forM fun b => (List.range bucketSize).forM fun p =>
    am.checkTriedSlot b p

/-- The slots of the tried table that are taken. -/
def triedRefs (am : AddrMan) : Nat :=
  ((List.range triedBucketCount).map fun b =>
    (List.range bucketSize).countP fun p => (am.triedSlot b p).isSome).sum

/-- The slots of the new table that hold the id. -/
def actualRefs (am : AddrMan) (id : Nat) : Nat :=
  ((List.range newBucketCount).map fun b =>
    (List.range bucketSize).countP fun p => am.newSlot b p = some id).sum

def ccCheckRefCounts (am : AddrMan) : Except String Unit :=
  (List.range am.idCount).forM fun id =>
    let info := am.entry id
    if !info.used || info.inTried then .ok ()
    else if (am.actualRefs id : Int) ≠ info.refCount then
      .error s!"entry {id}: ref_count={info.refCount} but {am.actualRefs id} bucket refs"
    else .ok ()

def ccCheckTriedDups (am : AddrMan) : Except String Unit :=
  (List.range triedBucketCount).forM fun b => (List.range bucketSize).forM fun p1 =>
    match am.triedSlot b p1 with
    | none => .ok ()
    | some id =>
      (List.range' (p1 + 1) (bucketSize - (p1 + 1))).forM fun p2 =>
        if am.triedSlot b p2 = some id then
          .error s!"tried[{b}]: duplicate id={id} at pos {p1} and {p2}"
        else .ok ()

/-- An id as the check prints it. -/
def printedId (id : Option Nat) : Int := id.elim (-1) fun id => id

def indexVerifyCell (am : AddrMan) (s : Nat) : Cell NetAddr Nat → Except String Unit
  | .live key id =>
    if id ≥ am.entries.length then
      .error s!"index slot {s}: id={id} out of range (cap={am.entries.length})"
    else if !(am.entry id).used then .error s!"index slot {s}: id={id} not used"
    else if key ≠ (am.entry id).addr.svc.addr then
      .error s!"index slot {s}: id={id} key mismatch"
    else .ok ()
  | _ => .ok ()

def indexVerifyEntry (am : AddrMan) (id : Nat) : Except String Unit :=
  let li := am.indexLookup (am.entry id).addr.svc.addr
  let si := am.scanId (am.entry id).addr.svc.addr
  if li ≠ si then
    .error s!"index/scan disagree for entry {id}: index={printedId li} scan={printedId si}"
  else .ok ()

def indexVerify (am : AddrMan) : Except String Unit := do
  if am.idx.slots.length = 0 then return
  am.usedIds.forM am.indexVerifyEntry
  if am.usedIds.length ≠ am.idx.live then
    throw s!"idx_live={am.idx.live} but {am.usedIds.length} used entries"
  (List.range am.idx.slots.length).forM fun s =>
    (am.idx.slots[s]?).elim (.ok ()) (am.indexVerifyCell s)

def consistencyCheck (am : AddrMan) : Except String Unit := do
  am.ccCheckNewTable
  am.ccCheckTriedTable
  if (am.triedRefs : Int) ≠ am.triedCount then
    throw s!"tried_count mismatch: table has {am.triedRefs}, tracked {am.triedCount}"
  am.ccCheckRefCounts
  am.ccCheckTriedDups
  am.indexVerify

end AddrMan

end Z23.Net
