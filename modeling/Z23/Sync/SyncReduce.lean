import Mathlib.Data.List.Induction
import Z23.Primitives

/-!
The reducer of a snapshot sync: one total function from a state and an event to the next state and
the side effects that it asks for.
-/

namespace Z23.Sync

-- Data model

inductive SyncPhase where
  | idle
  | negotiating
  | receiving
  | verifying
  | staged
  | activationContained
  | failed
deriving DecidableEq, Repr

inductive SyncEventKind where
  | start
  | offerReceived
  | offerAccepted
  | chunkReceived
  | chunkRejected
  | receiveComplete
  | proofVerified
  | proofFailed
  | peerLost
  | timeout
  | stopRequested
  | manifestValidated
  | artifactVerified
  | installPrepared
  | installCommitted
  | tailPieceVerified
  | reducerAdvanced
  | readyReached
  | sovereignReached
deriving DecidableEq, Repr

inductive SyncAction where
  | storeOffer
  | resetOffset
  | beginReceive
  | applyChunk
  | startVerify
  | stageBundle
  | raiseContainmentBlocker
  | penalizePeer
  | fail
deriving DecidableEq, Repr

inductive SyncBlocker where
  | activationContained
  | proofFailed
  | peerLost
  | timeout
deriving DecidableEq, Repr

inductive SyncOfferVerdict where
  | accept
  | reject
deriving DecidableEq, Repr

/-- Models `struct sync_kernel_state`; session 0 is none. -/
structure SyncKernelState where
  sessionId : UInt64 := 0
  phase : SyncPhase := .idle
  peer : UInt64 := 0
  height : Int32 := 0
  chunksTotal : UInt32 := 0
  chunksReceived : UInt32 := 0
  chunkRoot : Uint256 := Uint256.fill 0
  utxoRoot : Uint256 := Uint256.fill 0
  proofOk : Bool := false
deriving DecidableEq, Repr

/-- Models `struct sync_event`, as far as the reducer reads it. -/
structure SyncEvent where
  sessionId : UInt64
  kind : SyncEventKind
  peer : UInt64 := 0
  chunksTotal : UInt32 := 0
  chunkRoot : Uint256 := Uint256.fill 0
  utxoRoot : Uint256 := Uint256.fill 0
  height : Int32 := 0
  proofOk : Bool := false
  verdict : SyncOfferVerdict := .accept
deriving DecidableEq, Repr

/-- Models `struct sync_decision`, without the unused slots for actions. -/
structure SyncDecision where
  next : SyncPhase
  actions : List SyncAction := []
  blocker : Option SyncBlocker := none
deriving DecidableEq, Repr

structure SyncTransition where
  nextState : SyncKernelState
  actions : List SyncAction := []
  blocker : Option SyncBlocker := none
deriving DecidableEq, Repr

-- Decisions

def decisionNoop (next : SyncPhase) : SyncDecision := { next }

def decisionAct1 (next : SyncPhase) (a0 : SyncAction) : SyncDecision := { next, actions := [a0] }

def decisionAct2 (next : SyncPhase) (a0 a1 : SyncAction) : SyncDecision :=
  { next, actions := [a0, a1] }

def decisionFail (blocker : SyncBlocker) : SyncDecision :=
  { next := .failed, actions := [.fail], blocker := some blocker }

def decisionContain : SyncDecision :=
  { next := .activationContained
    actions := [.raiseContainmentBlocker]
    blocker := some .activationContained }

def decisionManifest (e : SyncEvent) (acceptNext rejectNext : SyncPhase) : SyncDecision :=
  if e.verdict = .accept then decisionAct1 acceptNext .storeOffer else decisionNoop rejectNext

def reduceIdle (e : SyncEvent) : SyncDecision :=
  match e.kind with
  | .start => decisionNoop .negotiating
  | .offerReceived => decisionAct1 .negotiating .storeOffer
  | .manifestValidated => decisionManifest e .negotiating .idle
  | .offerAccepted | .chunkReceived | .chunkRejected | .receiveComplete | .proofVerified
  | .proofFailed | .peerLost | .timeout | .stopRequested => decisionNoop .idle
  | .artifactVerified | .installPrepared | .installCommitted | .tailPieceVerified
  | .reducerAdvanced | .readyReached | .sovereignReached => decisionNoop .idle

def reduceNegotiating (e : SyncEvent) : SyncDecision :=
  match e.kind with
  | .start => decisionNoop .negotiating
  | .offerReceived => decisionAct1 .negotiating .storeOffer
  | .manifestValidated => decisionManifest e .negotiating .negotiating
  | .offerAccepted => decisionAct2 .receiving .resetOffset .beginReceive
  | .chunkReceived | .chunkRejected | .receiveComplete | .proofVerified => decisionNoop .negotiating
  | .proofFailed => decisionFail .proofFailed
  | .peerLost => decisionFail .peerLost
  | .timeout => decisionFail .timeout
  | .stopRequested => decisionNoop .idle
  | .artifactVerified | .installPrepared | .installCommitted | .tailPieceVerified
  | .reducerAdvanced | .readyReached | .sovereignReached => decisionNoop .negotiating

def reduceReceiving (e : SyncEvent) : SyncDecision :=
  match e.kind with
  | .start | .offerReceived | .manifestValidated | .offerAccepted => decisionNoop .receiving
  | .chunkReceived => decisionAct1 .receiving .applyChunk
  | .chunkRejected => decisionAct1 .receiving .penalizePeer
  | .receiveComplete => decisionAct1 .verifying .startVerify
  | .proofVerified => decisionNoop .receiving
  | .proofFailed => decisionFail .proofFailed
  | .peerLost => decisionFail .peerLost
  | .timeout => decisionFail .timeout
  | .stopRequested => decisionNoop .idle
  | .artifactVerified | .installPrepared | .installCommitted | .tailPieceVerified
  | .reducerAdvanced | .readyReached | .sovereignReached => decisionNoop .receiving

def reduceVerifying (e : SyncEvent) : SyncDecision :=
  match e.kind with
  | .start | .offerReceived | .manifestValidated | .offerAccepted | .chunkReceived | .chunkRejected
  | .receiveComplete => decisionNoop .verifying
  | .proofVerified =>
    if e.proofOk then decisionAct1 .staged .stageBundle else decisionFail .proofFailed
  | .proofFailed => decisionFail .proofFailed
  | .peerLost => decisionFail .peerLost
  | .timeout => decisionFail .timeout
  | .stopRequested => decisionNoop .idle
  | .artifactVerified | .installPrepared | .installCommitted | .tailPieceVerified
  | .reducerAdvanced | .readyReached | .sovereignReached => decisionNoop .verifying

def reduceStaged (e : SyncEvent) : SyncDecision :=
  match e.kind with
  | .start | .offerReceived | .offerAccepted | .chunkReceived | .receiveComplete
  | .proofVerified => decisionContain
  | .manifestValidated | .chunkRejected | .proofFailed | .peerLost | .timeout => decisionNoop .staged
  | .stopRequested => decisionNoop .idle
  | .artifactVerified | .installPrepared | .installCommitted | .tailPieceVerified
  | .reducerAdvanced | .readyReached | .sovereignReached => decisionNoop .staged

def reduceActivationContained (e : SyncEvent) : SyncDecision :=
  match e.kind with
  | .start | .offerReceived | .offerAccepted | .chunkReceived | .receiveComplete
  | .proofVerified => decisionContain
  | .manifestValidated | .chunkRejected | .proofFailed | .peerLost
  | .timeout => decisionNoop .activationContained
  | .stopRequested => decisionNoop .idle
  | .artifactVerified | .installPrepared | .installCommitted | .tailPieceVerified
  | .reducerAdvanced | .readyReached | .sovereignReached => decisionNoop .activationContained

def reduceFailed (e : SyncEvent) : SyncDecision :=
  match e.kind with
  | .start | .offerReceived | .manifestValidated | .offerAccepted | .chunkReceived | .chunkRejected
  | .receiveComplete | .proofVerified | .proofFailed | .peerLost | .timeout => decisionNoop .failed
  | .stopRequested => decisionNoop .idle
  | .artifactVerified | .installPrepared | .installCommitted | .tailPieceVerified
  | .reducerAdvanced | .readyReached | .sovereignReached => decisionNoop .failed

/-- The switch over the phases. -/
def reducePhase : SyncPhase → SyncEvent → SyncDecision
  | .idle => reduceIdle
  | .negotiating => reduceNegotiating
  | .receiving => reduceReceiving
  | .verifying => reduceVerifying
  | .staged => reduceStaged
  | .activationContained => reduceActivationContained
  | .failed => reduceFailed

-- The next state

def applySyncAction (e : SyncEvent) (ns : SyncKernelState) : SyncAction → SyncKernelState
  | .storeOffer =>
    { ns with
      height := e.height
      chunksTotal := e.chunksTotal
      chunksReceived := 0
      chunkRoot := e.chunkRoot
      utxoRoot := e.utxoRoot
      proofOk := false }
  | .resetOffset => { ns with chunksReceived := 0 }
  | .applyChunk =>
    if ns.chunksReceived < ns.chunksTotal
    then { ns with chunksReceived := ns.chunksReceived + 1 } else ns
  | .stageBundle => { ns with proofOk := true, utxoRoot := e.utxoRoot }
  | .beginReceive | .startVerify | .raiseContainmentBlocker | .penalizePeer | .fail => ns

/-- A session without id that leaves the idle phase takes the id and the peer of the event. -/
def adoptSession (s : SyncKernelState) (e : SyncEvent) (next : SyncPhase) : SyncKernelState :=
  if s.sessionId = 0 ∧ s.phase = .idle ∧ next ≠ .idle
  then { s with phase := next, sessionId := e.sessionId, peer := e.peer }
  else { s with phase := next }

def applyState (s : SyncKernelState) (e : SyncEvent) (core : SyncDecision) : SyncKernelState :=
  let ns := core.actions.foldl (applySyncAction e) (adoptSession s e core.next)
  if core.next = .idle ∧ s.phase ≠ .idle then {} else ns

def transitionInert (state : SyncKernelState) : SyncTransition := { nextState := state }

def syncReduce (state : SyncKernelState) (event : SyncEvent) : SyncTransition :=
  if state.sessionId ≠ 0 ∧ state.sessionId ≠ event.sessionId then transitionInert state
  else if event.kind = .chunkReceived ∧ state.chunkRoot ≠ Uint256.fill 0
      ∧ state.chunkRoot ≠ event.chunkRoot then transitionInert state
  else
    let core := reducePhase state.phase event
    { nextState := applyState state event core
      actions := core.actions
      blocker := core.blocker }

/-- The states that events lead to. -/
def runEvents (s : SyncKernelState) (events : List SyncEvent) : SyncKernelState :=
  events.foldl (fun s e => (syncReduce s e).nextState) s

end Z23.Sync
