import Mathlib.Algebra.Order.Group.Nat
import Mathlib.Data.Finset.Card
import Mathlib.Data.Prod.Lex
import Mathlib.Logic.Function.Basic
import Z23.Lib.Scan

/-!
The block swarm: which piece of a manifest a peer is asked for next, and the two hints that keep
the search from starting over at the first piece.
-/

namespace Z23.Net

open Z23.Lib.Scan

def endgameThreshold : Nat := 8

def blocksPerPiece : Nat := 64

def blockSwarmMaxPieces : Nat := 100000

def uint32Max : UInt32 := 4294967295

inductive ChunkState where
  | needed
  | inflight
  | complete
  | failed
deriving DecidableEq, Repr

/-- The fields of the manifest that the swarm reads. -/
structure BlockPieceManifest where
  startHeight : Int
  endHeight : Int
  numPieces : Nat
deriving DecidableEq, Repr

/-- The arrays have one cell for each piece; a peer of `-1` stands for none. -/
structure BlockSwarm where
  manifest : BlockPieceManifest
  pieceStates : Nat → ChunkState := fun _ => .needed
  piecePeer : Nat → Int := fun _ => -1
  pieceRequestTime : Nat → Int := fun _ => 0
  pieceAvailability : Nat → UInt32 := fun _ => 0
  piecesComplete : Nat := 0
  piecesInflight : Nat := 0
  piecesFailed : UInt32 := 0
  nextAssignHint : Nat := 0
  firstIncompleteHint : Nat := 0
  endgame : Bool := false

def blockSwarmPieceAssignable (state : ChunkState) : Bool := state = .needed || state = .failed

/-- The bit of piece `i`; bits past the end of the buffer count as not set. -/
def bitmapHolds (bitmap : List UInt8) (i : Nat) : Bool :=
  match bitmap[i / 8]? with
  | some byte => byte.toNat &&& (1 <<< (i % 8)) ≠ 0
  | none => false

/-- A peer without a bitmap is taken to have every piece. -/
def peerHolds (peerBitmap : Option (List UInt8)) (i : Nat) : Bool :=
  match peerBitmap with
  | some bitmap => bitmapHolds bitmap i
  | none => true

/-- `granted` says whether the five arrays could be allocated. -/
def blockSwarmInit (granted : Bool) (manifest : BlockPieceManifest) : Option BlockSwarm :=
  if manifest.numPieces = 0 then none
  else if manifest.numPieces > blockSwarmMaxPieces then none
  else if granted then some { manifest }
  else none

/-- The scan of the candidates in rising order: the rarest so far and its availability are
replaced by a rarer one, and nothing is rarer than a piece that no peer has announced. -/
def rarestScan (offerable : Nat → Bool) (availability : Nat → UInt32)
    : List Nat → (best : Option Nat) → (bestAvail : UInt32) → Option Nat
  | [], best, _ => best
  | i :: rest, best, bestAvail =>
    if offerable i then
      if availability i < bestAvail || (availability i = bestAvail && best.isNone) then
        if availability i = 0 then some i
        else rarestScan offerable availability rest (some i) (availability i)
      else rarestScan offerable availability rest best bestAvail
    else rarestScan offerable availability rest best bestAvail

namespace BlockSwarm

def advanceAssignHint (bs : BlockSwarm) : BlockSwarm :=
  { bs with
    nextAssignHint := advance (fun i => !blockSwarmPieceAssignable (bs.pieceStates i))
      (bs.manifest.numPieces - bs.nextAssignHint) bs.nextAssignHint }

def advanceIncompleteHint (bs : BlockSwarm) : BlockSwarm :=
  { bs with
    firstIncompleteHint := advance (fun i => bs.pieceStates i = .complete)
      (bs.manifest.numPieces - bs.firstIncompleteHint) bs.firstIncompleteHint }

def pieceOfferable (bs : BlockSwarm) (peerId : Int) (peerBitmap : Option (List UInt8)) (i : Nat)
    : Bool :=
  if !blockSwarmPieceAssignable (bs.pieceStates i) then false
  -- no piece in flight comes this far: the test above has refused it
  else if bs.endgame && bs.pieceStates i = .inflight then
    if bs.piecePeer i = peerId then false else peerHolds peerBitmap i
  else if bs.pieceStates i = .inflight then false
  else peerHolds peerBitmap i

def setPiece (bs : BlockSwarm) (piece : Nat) (state : ChunkState) (peerId time : Int)
    : BlockSwarm :=
  { bs with
    pieceStates := Function.update bs.pieceStates piece state
    piecePeer := Function.update bs.piecePeer piece peerId
    pieceRequestTime := Function.update bs.pieceRequestTime piece time }

def markPieceInflight (bs : BlockSwarm) (piece : Nat) (peerId now : Int) : BlockSwarm :=
  let marked := BlockSwarm.setPiece { bs with piecesInflight := bs.piecesInflight + 1 }
    piece .inflight peerId now
  if piece = marked.nextAssignHint then marked.advanceAssignHint else marked

def updateEndgame (bs : BlockSwarm) : BlockSwarm :=
  let remaining := bs.manifest.numPieces - bs.piecesComplete
  if remaining ≤ endgameThreshold ∧ remaining > 0 then { bs with endgame := true } else bs

/-- `none` stands for the code's `-1`. -/
def assignPieceCapped (bs : BlockSwarm) (peerId : Int) (peerBitmap : Option (List UInt8))
    (maxPieceIndex : Nat) (now : Int) : Option Nat × BlockSwarm :=
  if bs.manifest.numPieces = 0 then (none, bs)
  else
    let last := if maxPieceIndex ≥ bs.manifest.numPieces then bs.manifest.numPieces - 1
      else maxPieceIndex
    let bs := bs.advanceAssignHint
    if bs.nextAssignHint > last then (none, bs)
    else
      let bs := bs.updateEndgame
      match rarestScan (bs.pieceOfferable peerId peerBitmap) bs.pieceAvailability
          (List.range' bs.nextAssignHint (last + 1 - bs.nextAssignHint)) none uint32Max with
      | some best => (some best, bs.markPieceInflight best peerId now)
      | none => (none, bs)

def assignPiece (bs : BlockSwarm) (peerId : Int) (peerBitmap : Option (List UInt8)) (now : Int)
    : Option Nat × BlockSwarm :=
  if bs.manifest.numPieces = 0 then (none, bs)
  else bs.assignPieceCapped peerId peerBitmap (bs.manifest.numPieces - 1) now

def assignPieceThroughHeight (bs : BlockSwarm) (peerId : Int) (peerBitmap : Option (List UInt8))
    (maxHeight now : Int) : Option Nat × BlockSwarm :=
  if maxHeight < bs.manifest.startHeight then (none, bs)
  else if maxHeight ≥ bs.manifest.endHeight then
    bs.assignPieceCapped peerId peerBitmap (bs.manifest.numPieces - 1) now
  else
    let completePieces := (maxHeight - bs.manifest.startHeight + 1).toNat / blocksPerPiece
    if completePieces = 0 then (none, bs)
    else bs.assignPieceCapped peerId peerBitmap (completePieces - 1) now

def assignPieceForPeer (bs : BlockSwarm) (peerId : Int) (peerBitmap : Option (List UInt8))
    (maxHeight peerEndHeight now : Int) : Option Nat × BlockSwarm :=
  bs.assignPieceThroughHeight peerId peerBitmap
    (if peerEndHeight ≥ 0 ∧ peerEndHeight < maxHeight then peerEndHeight else maxHeight) now

/-- One piece fewer is in flight when this one was. -/
def releaseInflight (bs : BlockSwarm) (piece : Nat) : BlockSwarm :=
  if bs.pieceStates piece = .inflight ∧ bs.piecesInflight > 0 then
    { bs with piecesInflight := bs.piecesInflight - 1 }
  else bs

def completePiece (bs : BlockSwarm) (piece : Nat) : BlockSwarm :=
  let held := (bs.releaseInflight piece).setPiece piece .complete (-1) 0
  { held with piecesComplete := held.piecesComplete + 1 }

def receivePiece (bs : BlockSwarm) (piece : Nat) : BlockSwarm :=
  if piece ≥ bs.manifest.numPieces then bs
  else if bs.pieceStates piece = .complete then bs
  else
    let held := bs.completePiece piece
    let moved := if piece = held.nextAssignHint then held.advanceAssignHint else held
    let settled :=
      if piece = moved.firstIncompleteHint then moved.advanceIncompleteHint else moved
    if settled.manifest.numPieces - settled.piecesComplete = 0 then
      { settled with endgame := false }
    else settled

def rewindAssignHint (bs : BlockSwarm) (piece : Nat) : BlockSwarm :=
  if piece < bs.nextAssignHint then { bs with nextAssignHint := piece } else bs

def requeuePiece (bs : BlockSwarm) (piece : Nat) : Bool × BlockSwarm :=
  if piece ≥ bs.manifest.numPieces ∨ bs.pieceStates piece = .complete
      ∨ bs.pieceStates piece = .needed then (false, bs)
  else
    (true, ((bs.releaseInflight piece).rewindAssignHint piece).setPiece piece .needed (-1) 0)

def failPiece (bs : BlockSwarm) (piece : Nat) : BlockSwarm :=
  let (requeued, after) := bs.requeuePiece piece
  if requeued then { after with piecesFailed := after.piecesFailed + 1 } else after

def firstIncompletePiece (bs : BlockSwarm) : Nat × BlockSwarm :=
  (bs.advanceIncompleteHint.firstIncompleteHint, bs.advanceIncompleteHint)

/-- One turn of the loop over the pieces that looks for late answers. -/
def timeoutPiece (now timeoutSecs : Int) (bs : BlockSwarm) (i : Nat) : BlockSwarm :=
  if bs.pieceStates i = .inflight ∧ now - bs.pieceRequestTime i > timeoutSecs then
    (bs.requeuePiece i).2
  else bs

def handleTimeouts (bs : BlockSwarm) (now timeoutSecs : Int) : BlockSwarm :=
  (List.range bs.manifest.numPieces).foldl (timeoutPiece now timeoutSecs) bs

def updateAvailability (bs : BlockSwarm) (bitmap : List UInt8) : BlockSwarm :=
  { bs with
    pieceAvailability := fun i =>
      if i < bs.manifest.numPieces ∧ bitmapHolds bitmap i then bs.pieceAvailability i + 1
      else bs.pieceAvailability i }

end BlockSwarm

/-- The calls that work on a swarm, each with the wall time it reads where it reads one. -/
inductive SwarmCall where
  | assign (peerId : Int) (peerBitmap : Option (List UInt8)) (now : Int)
  | assignThroughHeight (peerId : Int) (peerBitmap : Option (List UInt8)) (maxHeight now : Int)
  | assignForPeer (peerId : Int) (peerBitmap : Option (List UInt8))
      (maxHeight peerEndHeight now : Int)
  | receive (piece : Nat)
  | fail (piece : Nat)
  | requeue (piece : Nat)
  | firstIncomplete
  | timeouts (now timeoutSecs : Int)
  | updateAvailability (bitmap : List UInt8)
deriving DecidableEq, Repr

def BlockSwarm.call (bs : BlockSwarm) : SwarmCall → BlockSwarm
  | .assign peerId bitmap now => (bs.assignPiece peerId bitmap now).2
  | .assignThroughHeight peerId bitmap maxHeight now =>
    (bs.assignPieceThroughHeight peerId bitmap maxHeight now).2
  | .assignForPeer peerId bitmap maxHeight peerEndHeight now =>
    (bs.assignPieceForPeer peerId bitmap maxHeight peerEndHeight now).2
  | .receive piece => bs.receivePiece piece
  | .fail piece => bs.failPiece piece
  | .requeue piece => (bs.requeuePiece piece).2
  | .firstIncomplete => bs.firstIncompletePiece.2
  | .timeouts now timeoutSecs => bs.handleTimeouts now timeoutSecs
  | .updateAvailability bitmap => bs.updateAvailability bitmap

def BlockSwarm.run (bs : BlockSwarm) (calls : List SwarmCall) : BlockSwarm :=
  calls.foldl BlockSwarm.call bs

-- What the counters and hints say of the pieces

namespace BlockSwarm

def completePieces (bs : BlockSwarm) : Finset Nat :=
  (Finset.range bs.manifest.numPieces).filter fun i => bs.pieceStates i = .complete

/-- No assignable piece stands below the first hint and no incomplete one below the second. -/
structure Tracks (bs : BlockSwarm) : Prop where
  assignHint : ∀ i < bs.nextAssignHint, !blockSwarmPieceAssignable (bs.pieceStates i)
  incompleteHint : ∀ i < bs.firstIncompleteHint, bs.pieceStates i = .complete
  incompleteWithin : bs.firstIncompleteHint ≤ bs.manifest.numPieces
  counted : bs.piecesComplete = bs.completePieces.card

variable {bs : BlockSwarm} {piece : Nat} {state : ChunkState} {peerId time : Int}

theorem mem_completePieces {i : Nat}
    : i ∈ bs.completePieces ↔ i < bs.manifest.numPieces ∧ bs.pieceStates i = .complete := by
  rw [completePieces, Finset.mem_filter, Finset.mem_range]

theorem completePieces_setPiece_other (incomplete : bs.pieceStates piece ≠ .complete)
    (other : state ≠ .complete)
    : (bs.setPiece piece state peerId time).completePieces = bs.completePieces := by
  apply Finset.filter_congr
  intro i _
  rcases eq_or_ne i piece with rfl | apart
  · simp [setPiece, incomplete, other]
  · simp [setPiece, apart]

theorem completePieces_setPiece_complete (within : piece < bs.manifest.numPieces)
    : (bs.setPiece piece .complete peerId time).completePieces
        = insert piece bs.completePieces := by
  ext i
  rw [Finset.mem_insert, mem_completePieces, mem_completePieces]
  rcases eq_or_ne i piece with rfl | apart
  · simp [setPiece, within]
  · simp [setPiece, apart]

theorem Tracks.advanceAssignHint (tracks : bs.Tracks) : bs.advanceAssignHint.Tracks where
  assignHint := advance_skips tracks.assignHint
  incompleteHint := tracks.incompleteHint
  incompleteWithin := tracks.incompleteWithin
  counted := tracks.counted

theorem incompleteHint_advance_le (within : bs.firstIncompleteHint ≤ bs.manifest.numPieces)
    : bs.advanceIncompleteHint.firstIncompleteHint ≤ bs.manifest.numPieces := by
  have bounded := advance_le (fun i => bs.pieceStates i = .complete)
    (bs.manifest.numPieces - bs.firstIncompleteHint) bs.firstIncompleteHint
  rwa [Nat.add_sub_cancel' within] at bounded

theorem Tracks.advanceIncompleteHint (tracks : bs.Tracks)
    : bs.advanceIncompleteHint.Tracks where
  assignHint := tracks.assignHint
  incompleteHint := by
    intro i below
    apply of_decide_eq_true
    apply advance_skips _ i below
    intro j earlier
    exact decide_eq_true (tracks.incompleteHint j earlier)
  incompleteWithin := incompleteHint_advance_le tracks.incompleteWithin
  counted := tracks.counted

theorem Tracks.updateEndgame (tracks : bs.Tracks) : bs.updateEndgame.Tracks := by
  unfold BlockSwarm.updateEndgame
  extract_lets remaining
  split
  · exact ⟨tracks.assignHint, tracks.incompleteHint, tracks.incompleteWithin, tracks.counted⟩
  · exact tracks

/-- An incomplete piece takes another incomplete state, which is assignable only where the hint
does not pass it. -/
theorem Tracks.setPiece_other (tracks : bs.Tracks)
    (incomplete : bs.pieceStates piece ≠ .complete) (other : state ≠ .complete)
    (hidden : piece < bs.nextAssignHint → !blockSwarmPieceAssignable state)
    : (bs.setPiece piece state peerId time).Tracks where
  assignHint := by
    intro i below
    rcases eq_or_ne i piece with rfl | apart
    · simpa [setPiece] using hidden below
    · simpa [setPiece, apart] using tracks.assignHint i below
  incompleteHint := by
    intro i below
    have apart : i ≠ piece := by
      rintro rfl
      exact incomplete (tracks.incompleteHint i below)
    simpa [setPiece, apart] using tracks.incompleteHint i below
  incompleteWithin := tracks.incompleteWithin
  counted := by
    rw [completePieces_setPiece_other incomplete other]
    exact tracks.counted

theorem Tracks.markPieceInflight (tracks : bs.Tracks)
    (incomplete : bs.pieceStates piece ≠ .complete) (now : Int)
    : (bs.markPieceInflight piece peerId now).Tracks := by
  have counted : ({ bs with piecesInflight := bs.piecesInflight + 1 } : BlockSwarm).Tracks :=
    ⟨tracks.assignHint, tracks.incompleteHint, tracks.incompleteWithin, tracks.counted⟩
  unfold BlockSwarm.markPieceInflight
  extract_lets marked
  have set : marked.Tracks := counted.setPiece_other incomplete (by simp) fun _ => rfl
  split
  · exact set.advanceAssignHint
  · exact set

theorem Tracks.releaseInflight (tracks : bs.Tracks) (piece : Nat)
    : (bs.releaseInflight piece).Tracks := by
  unfold BlockSwarm.releaseInflight
  split
  · exact ⟨tracks.assignHint, tracks.incompleteHint, tracks.incompleteWithin, tracks.counted⟩
  · exact tracks

@[simp] theorem releaseInflight_pieceStates (bs : BlockSwarm) (piece : Nat)
    : (bs.releaseInflight piece).pieceStates = bs.pieceStates := by
  unfold releaseInflight
  split <;> rfl

@[simp] theorem releaseInflight_manifest (bs : BlockSwarm) (piece : Nat)
    : (bs.releaseInflight piece).manifest = bs.manifest := by
  unfold releaseInflight
  split <;> rfl

section

variable (tracks : bs.Tracks)
include tracks

theorem Tracks.rewindAssignHint (piece : Nat) : (bs.rewindAssignHint piece).Tracks
        ∧ (bs.rewindAssignHint piece).pieceStates = bs.pieceStates
        ∧ ¬piece < (bs.rewindAssignHint piece).nextAssignHint := by
  unfold BlockSwarm.rewindAssignHint
  split
  case isTrue passed =>
    refine ⟨⟨?_, tracks.incompleteHint, tracks.incompleteWithin, tracks.counted⟩, rfl,
      Nat.lt_irrefl _⟩
    exact fun i below => tracks.assignHint i (Nat.lt_trans below passed)
  case isFalse ahead => exact ⟨tracks, rfl, ahead⟩

theorem Tracks.requeuePiece (piece : Nat) : (bs.requeuePiece piece).2.Tracks := by
  unfold BlockSwarm.requeuePiece
  split
  case isTrue => exact tracks
  case isFalse reset =>
    simp only [not_or] at reset
    obtain ⟨rewound, states, ahead⟩ := (tracks.releaseInflight piece).rewindAssignHint piece
    apply rewound.setPiece_other _ (by simp) fun below => absurd below ahead
    rw [states, releaseInflight_pieceStates]
    exact reset.2.1

theorem Tracks.failPiece (piece : Nat) : (bs.failPiece piece).Tracks := by
  have requeued := tracks.requeuePiece piece
  simp only [BlockSwarm.failPiece]
  split
  · exact ⟨requeued.assignHint, requeued.incompleteHint, requeued.incompleteWithin,
      requeued.counted⟩
  · exact requeued

theorem Tracks.handleTimeouts (now timeoutSecs : Int)
    : (bs.handleTimeouts now timeoutSecs).Tracks := by
  unfold BlockSwarm.handleTimeouts
  generalize List.range bs.manifest.numPieces = pieces
  induction pieces generalizing bs with
  | nil => exact tracks
  | cons i rest ih =>
    apply ih
    unfold timeoutPiece
    split
    · exact tracks.requeuePiece i
    · exact tracks

theorem Tracks.completePiece (within : piece < bs.manifest.numPieces)
    (incomplete : bs.pieceStates piece ≠ .complete)
    : (bs.completePiece piece).Tracks := by
  have released := tracks.releaseInflight piece
  refine ⟨?_, ?_, released.incompleteWithin, ?_⟩
  · intro i below
    rcases eq_or_ne i piece with rfl | apart
    · simp [BlockSwarm.completePiece, setPiece, blockSwarmPieceAssignable]
    · simpa [BlockSwarm.completePiece, setPiece, apart] using released.assignHint i below
  · intro i below
    rcases eq_or_ne i piece with rfl | apart
    · simp [BlockSwarm.completePiece, setPiece]
    · simpa [BlockSwarm.completePiece, setPiece, apart] using released.incompleteHint i below
  · have counts : ((bs.releaseInflight piece).setPiece piece .complete (-1) 0).completePieces.card
        = (bs.releaseInflight piece).completePieces.card + 1 := by
      rw [completePieces_setPiece_complete (by simpa using within)]
      apply Finset.card_insert_of_notMem
      simp [mem_completePieces, incomplete]
    exact (congrArg (· + 1) released.counted).trans counts.symm

theorem Tracks.receivePiece (piece : Nat) : (bs.receivePiece piece).Tracks := by
  unfold BlockSwarm.receivePiece
  split
  case isTrue => exact tracks
  case isFalse within =>
    split
    case isTrue => exact tracks
    case isFalse incomplete =>
      extract_lets held moved settled
      have heldTracks : held.Tracks := tracks.completePiece (Nat.lt_of_not_ge within) incomplete
      have movedTracks : moved.Tracks := by
        unfold moved
        split
        · exact heldTracks.advanceAssignHint
        · exact heldTracks
      have settledTracks : settled.Tracks := by
        unfold settled
        split
        · exact movedTracks.advanceIncompleteHint
        · exact movedTracks
      split
      · exact ⟨settledTracks.assignHint, settledTracks.incompleteHint,
          settledTracks.incompleteWithin, settledTracks.counted⟩
      · exact settledTracks

end

end BlockSwarm

-- The scan for the rarest piece

/-- Rarer pieces come first, and of equally rare ones the lower. -/
def rarity (availability : Nat → UInt32) (i : Nat) : Nat ×ₗ Nat :=
  toLex ((availability i).toNat, i)

section Rarest

variable {availability : Nat → UInt32} {offerable : Nat → Bool} {seen : Nat → Prop} {i j : Nat}

theorem rarity_le_iff
    : rarity availability i ≤ rarity availability j
        ↔ availability i < availability j ∨ availability i = availability j ∧ i ≤ j := by
  rw [rarity, rarity, Prod.Lex.toLex_le_toLex, UInt32.lt_iff_toNat_lt, UInt32.toNat_inj]

theorem rarity_le_of_le (rare : availability i ≤ availability j) (lower : i ≤ j)
    : rarity availability i ≤ rarity availability j := by
  rw [rarity_le_iff]
  rcases UInt32.lt_or_eq_of_le rare with rarer | same
  · exact .inl rarer
  · exact .inr ⟨same, lower⟩

theorem le_uint32Max (count : UInt32) : count ≤ uint32Max := by
  have size : uint32Max.toNat = 4294967295 := by simp [uint32Max]
  have bounded := count.toNat_lt
  rw [UInt32.le_iff_toNat_le, size]
  omega

/-- The best piece so far is the first of those seen, and its availability is at hand. -/
structure Leads (availability : Nat → UInt32) (seen : Nat → Prop) (best : Option Nat)
    (bestAvail : UInt32) : Prop where
  first : First (rarity availability) seen best
  bound : best.elim uint32Max availability = bestAvail

section

variable {best : Option Nat} {bestAvail : UInt32} (leads : Leads availability seen best bestAvail)
include leads

theorem Leads.take (better : availability i < bestAvail ∨ availability i = bestAvail ∧ best = none)
    : ∀ j, seen j → rarity availability i ≤ rarity availability j := by
  intro j isSeen
  cases best with
  | none => exact absurd isSeen (leads.first j)
  | some b =>
    have rarer : availability i < availability b := by
      rw [leads.bound.symm] at better
      exact better.resolve_right fun tie => Option.some_ne_none b tie.2
    exact (rarity_le_iff.mpr (.inl rarer)).trans (leads.first.2 j isSeen)

theorem Leads.keep (later : ∀ j, seen j → j < i)
    (worse : ¬(availability i < bestAvail ∨ availability i = bestAvail ∧ best = none))
    : Leads availability (fun j => seen j ∨ j = i) best bestAvail := by
  rw [not_or, UInt32.not_lt] at worse
  refine ⟨?_, leads.bound⟩
  cases best with
  | none =>
    -- nothing is rarer than the bound only when it is the greatest value there is
    have most : availability i = bestAvail := by
      refine UInt32.le_antisymm ?_ worse.1
      rw [leads.bound.symm]
      exact le_uint32Max (availability i)
    exact absurd ⟨most, rfl⟩ worse.2
  | some b =>
    apply leads.first.keep
    rintro _ rfl
    apply rarity_le_of_le
    · rw [leads.bound.symm] at worse
      exact worse.1
    · exact (later b leads.first.1).le

theorem rarestScan_first {todo : List Nat} (later : ∀ j, seen j → ∀ i ∈ todo, j < i)
    (rising : todo.Pairwise (· < ·))
    : First (rarity availability) (fun j => seen j ∨ (j ∈ todo ∧ offerable j))
        (rarestScan offerable availability todo best bestAvail) := by
  induction todo generalizing seen best bestAvail with
  | nil => simpa [rarestScan] using leads.first
  | cons i rest ih =>
    obtain ⟨above, rest_rising⟩ := List.pairwise_cons.mp rising
    have later_here : ∀ j, seen j → j < i := fun j isSeen => later j isSeen i (by simp)
    have later_rest : ∀ j, seen j → ∀ k ∈ rest, j < k :=
      fun j isSeen k member => later j isSeen k (by simp [member])
    have later_both : ∀ j, seen j ∨ j = i → ∀ k ∈ rest, j < k := by
      rintro j (isSeen | rfl) k member
      · exact later_rest j isSeen k member
      · exact above k member
    rw [rarestScan]
    split
    case isFalse refused =>
      refine (First.congr ?_).mp (ih leads later_rest rest_rising)
      intro j
      rw [List.mem_cons]
      rcases eq_or_ne j i with rfl | apart <;> simp_all
    case isTrue offered =>
      have split_here : ∀ j, ((seen j ∨ j = i) ∨ (j ∈ rest ∧ offerable j))
          ↔ (seen j ∨ (j ∈ i :: rest ∧ offerable j)) := by
        intro j
        rw [List.mem_cons]
        rcases eq_or_ne j i with rfl | apart <;> simp_all
      split
      case isFalse worse =>
        refine (First.congr split_here).mp (ih ?_ later_both rest_rising)
        exact leads.keep later_here (by simpa using worse)
      case isTrue better =>
        have before := leads.take (i := i) (by simpa using better)
        split
        case isTrue unannounced =>
          refine ⟨.inr ⟨by simp, offered⟩, ?_⟩
          rintro j (isSeen | ⟨member, -⟩)
          · exact before j isSeen
          · apply rarity_le_of_le
            · simp [unannounced]
            · rcases List.mem_cons.mp member with rfl | further
              · exact le_refl _
              · exact (above j further).le
        case isFalse =>
          refine (First.congr split_here).mp (ih ⟨?_, rfl⟩ later_both rest_rising)
          refine ⟨.inr rfl, ?_⟩
          rintro j (isSeen | rfl)
          · exact before j isSeen
          · exact le_refl _

end

end Rarest

-- The piece assigned

namespace BlockSwarm

variable {bs : BlockSwarm} {peerId : Int} {peerBitmap : Option (List UInt8)}

/-- The pieces the peer holds that wait for a request. -/
def Wanted (bs : BlockSwarm) (peerBitmap : Option (List UInt8)) (i : Nat) : Prop :=
  i < bs.manifest.numPieces ∧ peerHolds peerBitmap i ∧ blockSwarmPieceAssignable (bs.pieceStates i)

theorem pieceOfferable_iff {i : Nat}
    : bs.pieceOfferable peerId peerBitmap i
        ↔ blockSwarmPieceAssignable (bs.pieceStates i) ∧ peerHolds peerBitmap i := by
  unfold pieceOfferable
  cases bs.pieceStates i <;> simp [blockSwarmPieceAssignable]

@[simp] theorem updateEndgame_pieceStates (bs : BlockSwarm)
    : bs.updateEndgame.pieceStates = bs.pieceStates := by
  unfold updateEndgame
  extract_lets
  split <;> rfl

@[simp] theorem updateEndgame_pieceAvailability (bs : BlockSwarm)
    : bs.updateEndgame.pieceAvailability = bs.pieceAvailability := by
  unfold updateEndgame
  extract_lets
  split <;> rfl

@[simp] theorem updateEndgame_nextAssignHint (bs : BlockSwarm)
    : bs.updateEndgame.nextAssignHint = bs.nextAssignHint := by
  unfold updateEndgame
  extract_lets
  split <;> rfl

theorem scan_first (bs : BlockSwarm) (peerId : Int) (peerBitmap : Option (List UInt8))
    (start count : Nat)
    : First (rarity bs.pieceAvailability)
        (fun i => (start ≤ i ∧ i < start + count) ∧ blockSwarmPieceAssignable (bs.pieceStates i)
          ∧ peerHolds peerBitmap i)
        (rarestScan (bs.pieceOfferable peerId peerBitmap) bs.pieceAvailability
          (List.range' start count) none uint32Max) := by
  have leads : Leads bs.pieceAvailability (fun _ => False) none uint32Max := ⟨fun _ => id, rfl⟩
  refine (First.congr ?_).mp
    (rarestScan_first leads (fun _ => False.elim) List.pairwise_lt_range')
  intro i
  simp only [false_or, List.mem_range'_1, pieceOfferable_iff]

theorem not_complete_of_assignable {state : ChunkState}
    (assignable : blockSwarmPieceAssignable state)
    : state ≠ .complete := by
  rintro rfl
  exact absurd assignable (by simp [blockSwarmPieceAssignable])

theorem Tracks.assignPieceCapped (tracks : bs.Tracks) (peerId : Int)
    (peerBitmap : Option (List UInt8)) (maxPieceIndex : Nat) (now : Int)
    : (bs.assignPieceCapped peerId peerBitmap maxPieceIndex now).2.Tracks := by
  unfold BlockSwarm.assignPieceCapped
  split
  · exact tracks
  extract_lets last hinted scanned
  split
  · exact tracks.advanceAssignHint
  have scannedTracks : scanned.Tracks := tracks.advanceAssignHint.updateEndgame
  have first := scan_first scanned peerId peerBitmap scanned.nextAssignHint
    (last + 1 - scanned.nextAssignHint)
  split
  case h_1 best found =>
    rw [found] at first
    exact scannedTracks.markPieceInflight (not_complete_of_assignable first.1.2.1) now
  case h_2 => exact scannedTracks

theorem Tracks.assignPieceThroughHeight (tracks : bs.Tracks) (peerId : Int)
    (peerBitmap : Option (List UInt8)) (maxHeight now : Int)
    : (bs.assignPieceThroughHeight peerId peerBitmap maxHeight now).2.Tracks := by
  unfold BlockSwarm.assignPieceThroughHeight
  split
  · exact tracks
  split
  · exact tracks.assignPieceCapped peerId peerBitmap _ now
  extract_lets completePieces
  split
  · exact tracks
  · exact tracks.assignPieceCapped peerId peerBitmap _ now

theorem Tracks.assignPiece (tracks : bs.Tracks) (peerId : Int)
    (peerBitmap : Option (List UInt8)) (now : Int)
    : (bs.assignPiece peerId peerBitmap now).2.Tracks := by
  unfold BlockSwarm.assignPiece
  split
  · exact tracks
  · exact tracks.assignPieceCapped peerId peerBitmap _ now

theorem Tracks.call (tracks : bs.Tracks) (request : SwarmCall) : (bs.call request).Tracks := by
  cases request with
  | assign peerId bitmap now =>
    exact tracks.assignPiece peerId bitmap now
  | assignThroughHeight peerId bitmap maxHeight now =>
    exact tracks.assignPieceThroughHeight peerId bitmap maxHeight now
  | assignForPeer peerId bitmap maxHeight peerEndHeight now =>
    exact tracks.assignPieceThroughHeight peerId bitmap _ now
  | receive piece => exact tracks.receivePiece piece
  | fail piece => exact tracks.failPiece piece
  | requeue piece => exact tracks.requeuePiece piece
  | firstIncomplete => exact tracks.advanceIncompleteHint
  | timeouts now timeoutSecs => exact tracks.handleTimeouts now timeoutSecs
  | updateAvailability bitmap =>
    exact ⟨tracks.assignHint, tracks.incompleteHint, tracks.incompleteWithin, tracks.counted⟩

theorem Tracks.run (tracks : bs.Tracks) (calls : List SwarmCall) : (bs.run calls).Tracks := by
  induction calls generalizing bs with
  | nil => exact tracks
  | cons request rest ih => exact ih (tracks.call request)

theorem tracks_of_init {granted : Bool} {manifest : BlockPieceManifest}
    (started : blockSwarmInit granted manifest = some bs)
    : bs.Tracks := by
  unfold blockSwarmInit at started
  split at started
  · cases started
  split at started
  · cases started
  split at started
  · cases started
    refine ⟨fun _ below => absurd below (Nat.not_lt_zero _),
      fun _ below => absurd below (Nat.not_lt_zero _), Nat.zero_le _, ?_⟩
    simp [completePieces]
  · cases started

theorem Tracks.assignPiece_first (tracks : bs.Tracks) (peerId : Int)
    (peerBitmap : Option (List UInt8)) (now : Int)
    : First (rarity bs.pieceAvailability) (bs.Wanted peerBitmap)
        (bs.assignPiece peerId peerBitmap now).1 := by
  unfold BlockSwarm.assignPiece
  split
  case isTrue empty => exact fun i wanted => absurd wanted.1 (by omega)
  case isFalse some_pieces =>
    unfold BlockSwarm.assignPieceCapped
    rw [if_neg some_pieces]
    extract_lets last hinted scanned
    have last_eq : last = bs.manifest.numPieces - 1 := if_neg (by omega)
    have ahead : ∀ i, bs.Wanted peerBitmap i → hinted.nextAssignHint ≤ i := by
      intro i wanted
      by_contra below
      have hidden := tracks.advanceAssignHint.assignHint i (not_le.mp below)
      rw [show bs.advanceAssignHint.pieceStates = bs.pieceStates from rfl, wanted.2.2] at hidden
      cases hidden
    split
    case isTrue past =>
      intro i wanted
      have within := wanted.1
      have reached := ahead i wanted
      omega
    case isFalse reached =>
      have first := scan_first scanned peerId peerBitmap scanned.nextAssignHint
        (last + 1 - scanned.nextAssignHint)
      have same : ∀ i, ((scanned.nextAssignHint ≤ i
            ∧ i < scanned.nextAssignHint + (last + 1 - scanned.nextAssignHint))
          ∧ blockSwarmPieceAssignable (scanned.pieceStates i) ∧ peerHolds peerBitmap i)
          ↔ bs.Wanted peerBitmap i := by
        intro i
        have hint_eq : scanned.nextAssignHint = hinted.nextAssignHint :=
          updateEndgame_nextAssignHint hinted
        have states_eq : scanned.pieceStates = bs.pieceStates := updateEndgame_pieceStates hinted
        rw [hint_eq, states_eq]
        constructor
        · rintro ⟨⟨-, below⟩, assignable, holds⟩
          exact ⟨by omega, holds, assignable⟩
        · intro wanted
          have within := wanted.1
          have above := ahead i wanted
          exact ⟨⟨above, by omega⟩, wanted.2.2, wanted.2.1⟩
      rw [First.congr same] at first
      have availability_eq : scanned.pieceAvailability = bs.pieceAvailability :=
        updateEndgame_pieceAvailability hinted
      rw [← availability_eq]
      split
      case h_1 best found => rwa [found] at first
      case h_2 found => rwa [found] at first

/-- The index is that of the first incomplete piece, or the number of pieces if there is none. -/
structure LowestIncomplete (bs : BlockSwarm) (index : Nat) : Prop where
  within : index ≤ bs.manifest.numPieces
  complete : ∀ i < index, bs.pieceStates i = .complete
  incomplete : index < bs.manifest.numPieces → bs.pieceStates index ≠ .complete

theorem Tracks.firstIncompletePiece (tracks : bs.Tracks)
    : bs.LowestIncomplete bs.firstIncompletePiece.1 where
  within := incompleteHint_advance_le tracks.incompleteWithin
  complete := tracks.advanceIncompleteHint.incompleteHint
  incomplete := by
    intro within
    have stops := @advance_stops (fun i => bs.pieceStates i = .complete)
      (bs.manifest.numPieces - bs.firstIncompleteHint) bs.firstIncompleteHint
    rw [Nat.add_sub_cancel' tracks.incompleteWithin] at stops
    exact of_decide_eq_false (stops within)

def incompletePieces (bs : BlockSwarm) : Finset Nat :=
  (Finset.range bs.manifest.numPieces).filter fun i => bs.pieceStates i ≠ .complete

/-- The pieces the peer holds that another peer was asked for, once few pieces are missing. -/
def Duplicable (bs : BlockSwarm) (peerId : Int) (peerBitmap : Option (List UInt8)) (i : Nat)
    : Prop :=
  i < bs.manifest.numPieces ∧ peerHolds peerBitmap i
    ∧ bs.incompletePieces.card ≤ endgameThreshold
    ∧ bs.pieceStates i = .inflight ∧ bs.piecePeer i ≠ peerId

/-- One of these comes before every piece that waits for a request. -/
def DuplicateFirst (bs : BlockSwarm) (peerId : Int) (peerBitmap : Option (List UInt8)) : Prop :=
  ∃ e, bs.Duplicable peerId peerBitmap e ∧ ∀ i, bs.Wanted peerBitmap i →
    rarity bs.pieceAvailability e < rarity bs.pieceAvailability i

/-- The assigned piece is the rarest one of all that the endgame allows. -/
def AssignsRarest (bs : BlockSwarm) (peerId : Int) (peerBitmap : Option (List UInt8)) (now : Int)
    : Prop :=
  First (rarity bs.pieceAvailability)
    (fun i => bs.Wanted peerBitmap i ∨ bs.Duplicable peerId peerBitmap i)
    (bs.assignPiece peerId peerBitmap now).1

end BlockSwarm

/-- In every state a swarm reaches its counter and its second hint are exact, and the assigned
piece is the rarest one allowed unless a duplicate request would come first: the test that is to
allow those in the endgame stands behind one that refuses every piece in flight. -/
theorem swarm_assigns_rarest_iff {granted : Bool} {manifest : BlockPieceManifest} {bs : BlockSwarm}
    (started : blockSwarmInit granted manifest = some bs) (calls : List SwarmCall)
    : (bs.run calls).piecesComplete = (bs.run calls).completePieces.card
        ∧ (bs.run calls).LowestIncomplete (bs.run calls).firstIncompletePiece.1
        ∧ ∀ peerId peerBitmap now, (bs.run calls).AssignsRarest peerId peerBitmap now
            ↔ ¬(bs.run calls).DuplicateFirst peerId peerBitmap := by
  have tracks := (BlockSwarm.tracks_of_init started).run calls
  refine ⟨tracks.counted, tracks.firstIncompletePiece, ?_⟩
  intro peerId peerBitmap now
  exact (tracks.assignPiece_first peerId peerBitmap now).widen_iff

def twoPieces : BlockPieceManifest := { startHeight := 0, endHeight := 127, numPieces := 2 }

/-- The first peer is asked for both pieces. -/
def bothAsked : List SwarmCall := [.assign 1 none 0, .assign 1 none 0]

/-- The first piece is announced once and then asked for. -/
def firstAnnounced : List SwarmCall := [.updateAvailability [1], .assign 1 (some [1]) 0]

theorem swarm_assigns_rarest_iff_two
    : blockSwarmInit true twoPieces = some { manifest := twoPieces }
        ∧ (BlockSwarm.run { manifest := twoPieces } firstAnnounced).AssignsRarest 2 none 0 := by
  have started : blockSwarmInit true twoPieces = some { manifest := twoPieces } := rfl
  refine ⟨started, ((swarm_assigns_rarest_iff started firstAnnounced).2.2 2 none 0).mpr ?_⟩
  rintro ⟨e, duplicable, before⟩
  have within : e < 2 := duplicable.1
  have rarer := before 1 ⟨by decide, by decide, by decide⟩
  rcases Nat.lt_succ_iff_lt_or_eq.mp within with first | rfl
  · obtain rfl := Nat.lt_one_iff.mp first
    exact absurd rarer (by decide)
  · exact absurd rarer (lt_irrefl _)

theorem endgame_assigns_nothing
    : ¬∀ (manifest : BlockPieceManifest) (bs : BlockSwarm),
        blockSwarmInit true manifest = some bs → ∀ calls peerId peerBitmap now,
          (bs.run calls).AssignsRarest peerId peerBitmap now := by
  intro always
  have rarest := always twoPieces _ rfl bothAsked 2 none 0
  have nothing : ((BlockSwarm.run { manifest := twoPieces } bothAsked).assignPiece 2 none 0).1
      = none := by decide
  unfold BlockSwarm.AssignsRarest at rarest
  rw [nothing] at rarest
  exact rarest 0 (.inr ⟨by decide, by decide, by decide, by decide, by decide⟩)

end Z23.Net
