import Mathlib.Data.List.Nodup
import Mathlib.Logic.Function.Iterate
import Z23.Noise.SessionTransport

/-!
Runs of a sender: the frames it sends, the seal calls it makes, and that no key and nonce pair comes
twice among the calls.

The pair of a call is given by its position: the number of rekeys before it and its counter.
Positions grow along a run.
-/

namespace Z23.Noise

open Z23.Lib.Bytes

-- Runs of a sender

structure Message where
  channel : UInt8
  payload : List UInt8
deriving DecidableEq, Repr

/-- A message and the frame that carries it. -/
structure Sent where
  message : Message
  frame : List UInt8
deriving DecidableEq, Repr

def Message.fits (message : Message) : Bool := message.payload.length ≤ sessionMaxPayload

section Runs

variable (aead : Aead)

/-- The state after one call of `session_transport_encrypt`. -/
def encryptNext (t : SessionTransport) (message : Message) : SessionTransport :=
  (sessionTransportEncrypt aead t message.channel message.payload).1

/-- What one call of `session_transport_encrypt` puts on the wire. -/
def encryptSent (t : SessionTransport) (message : Message) : List Sent :=
  ((sessionTransportEncrypt aead t message.channel message.payload).2.map (Sent.mk message)).toList

/-- The seal calls one call of `session_transport_encrypt` makes. -/
def encryptCalls (t : SessionTransport) (message : Message) : List AeadCall :=
  if message.payload.length > sessionMaxPayload then []
  else
    (if t.send.due then [rekeyCall aead t.send.key] else [])
      ++ [frameCall aead (rekeyIfNeeded aead t.send) message.channel message.payload]

/-- How often one call of `session_transport_encrypt` rekeys. -/
def encryptRekeys (t : SessionTransport) (message : Message) : Nat :=
  if message.fits && t.send.due then 1 else 0

def encryptAll (t : SessionTransport) : List Message → SessionTransport
  | [] => t
  | message :: messages => encryptAll (encryptNext aead t message) messages

def sentBy (t : SessionTransport) : List Message → List Sent
  | [] => []
  | message :: messages =>
    encryptSent aead t message ++ sentBy (encryptNext aead t message) messages

def callsOf (t : SessionTransport) : List Message → List AeadCall
  | [] => []
  | message :: messages =>
    encryptCalls aead t message ++ callsOf (encryptNext aead t message) messages

def rekeysOf (t : SessionTransport) : List Message → Nat
  | [] => 0
  | message :: messages =>
    encryptRekeys t message + rekeysOf (encryptNext aead t message) messages

/-- The first keys of the chain of rekeyed keys are distinct. -/
def RepetitionFree (key : List UInt8) (rekeys : Nat) : Prop :=
  ∀ i j, i ≤ rekeys → j ≤ rekeys → (nextKey aead)^[i] key = (nextKey aead)^[j] key → i = j

end Runs

/-- What tells one seal call from another. -/
def AeadCall.keyNonce (call : AeadCall) : List UInt8 × List UInt8 := (call.key, call.nonce)

-- One call

section Steps

variable {aead : Aead} {t : SessionTransport} {message : Message}

theorem Message.fits_iff : message.fits = true ↔ ¬ message.payload.length > sessionMaxPayload := by
  simp [Message.fits]

theorem encrypt_refused (long : message.fits = false)
    : sessionTransportEncrypt aead t message.channel message.payload = (t, none) := by
  have tooLong : message.payload.length > sessionMaxPayload := by
    simpa [Message.fits] using long
  rw [sessionTransportEncrypt, if_pos tooLong]

theorem encrypt_sealed (fits : message.fits = true)
    : sessionTransportEncrypt aead t message.channel message.payload
      = ({ t with send := (rekeyIfNeeded aead t.send).count (message.payload.length + 1) },
          some (sealFrame aead (rekeyIfNeeded aead t.send) message.channel message.payload)) := by
  rw [sessionTransportEncrypt, if_neg (Message.fits_iff.mp fits)]

theorem encryptNext_refused (long : message.fits = false) : encryptNext aead t message = t := by
  rw [encryptNext, encrypt_refused long]

theorem encryptNext_sealed (fits : message.fits = true)
    : encryptNext aead t message
      = { t with send := (rekeyIfNeeded aead t.send).count (message.payload.length + 1) } := by
  rw [encryptNext, encrypt_sealed fits]

theorem encryptSent_refused (long : message.fits = false) : encryptSent aead t message = [] := by
  rw [encryptSent, encrypt_refused long]
  rfl

theorem encryptSent_sealed (fits : message.fits = true)
    : encryptSent aead t message
      = [⟨message, sealFrame aead (rekeyIfNeeded aead t.send) message.channel message.payload⟩] := by
  rw [encryptSent, encrypt_sealed fits]
  rfl

theorem encryptCalls_refused (long : message.fits = false) : encryptCalls aead t message = [] := by
  have tooLong : message.payload.length > sessionMaxPayload := by
    simpa [Message.fits] using long
  rw [encryptCalls, if_pos tooLong]

theorem encryptCalls_sealed (fits : message.fits = true)
    : encryptCalls aead t message
      = (if t.send.due then [rekeyCall aead t.send.key] else [])
        ++ [frameCall aead (rekeyIfNeeded aead t.send) message.channel message.payload] := by
  rw [encryptCalls, if_neg (Message.fits_iff.mp fits)]

theorem encryptRekeys_refused (long : message.fits = false) : encryptRekeys t message = 0 := by
  rw [encryptRekeys, long]
  rfl

theorem encryptRekeys_sealed (fits : message.fits = true)
    : encryptRekeys t message = if t.send.due then 1 else 0 := by
  rw [encryptRekeys, fits, Bool.true_and]

theorem rekeyIfNeeded_due {d : Direction} (due : d.due = true)
    : rekeyIfNeeded aead d = rekeyDirection aead d := by
  rw [rekeyIfNeeded, if_pos due]

theorem rekeyIfNeeded_notDue {d : Direction} (notDue : d.due = false)
    : rekeyIfNeeded aead d = d := by
  rw [rekeyIfNeeded, notDue]
  rfl

theorem rekeyIfNeeded_settled (d : Direction) : (rekeyIfNeeded aead d).due = false := by
  cases due : d.due with
  | true =>
    rw [rekeyIfNeeded_due due]
    rfl
  | false => rw [rekeyIfNeeded_notDue due, due]

theorem rekeyIfNeeded_twice (d : Direction)
    : rekeyIfNeeded aead (rekeyIfNeeded aead d) = rekeyIfNeeded aead d :=
  rekeyIfNeeded_notDue (rekeyIfNeeded_settled d)

theorem lt_frameLimit {d : Direction} (notDue : d.due = false) : d.n < sessionRekeyFrameLimit := by
  have parts : d.n < sessionRekeyFrameLimit ∧ d.bytesEpoch < sessionRekeyByteLimit := by
    simpa [Direction.due] using notDue
  exact parts.1

end Steps

-- Positions

section Positions

variable (aead : Aead) (key : List UInt8)

/-- The key and the nonce at a position. -/
def pairAt (position : Nat) : List UInt8 × List UInt8 :=
  ((nextKey aead)^[position / 2 ^ 64] key, frameNonce (position % 2 ^ 64))

/-- The direction has gone through `rekeys` rekeys of the first key. -/
structure Direction.Reached (d : Direction) (rekeys : Nat) : Prop where
  chained : d.key = (nextKey aead)^[rekeys] key
  bounded : d.n ≤ sessionRekeyFrameLimit

variable {aead key} {d : Direction} {rekeys : Nat}

theorem pairAt_of {n : Nat} (small : n < 2 ^ 64)
    : pairAt aead key (rekeys * 2 ^ 64 + n) = ((nextKey aead)^[rekeys] key, frameNonce n) := by
  have index : (rekeys * 2 ^ 64 + n) / 2 ^ 64 = rekeys := by omega
  have counter : (rekeys * 2 ^ 64 + n) % 2 ^ 64 = n := by omega
  rw [pairAt, index, counter]

theorem frameNonce_injective {m n : Nat} (smallM : m < 2 ^ 64) (smallN : n < 2 ^ 64)
    (same : frameNonce m = frameNonce n) : m = n := by
  have bytes : bytesLE 8 m = bytesLE 8 n := List.append_cancel_left same
  have back := congrArg natLE bytes
  rwa [natLE_bytesLE (by simpa using smallM), natLE_bytesLE (by simpa using smallN)] at back

theorem pairAt_injective {p q : Nat} (distinct : RepetitionFree aead key rekeys)
    (boundP : p < (rekeys + 1) * 2 ^ 64) (boundQ : q < (rekeys + 1) * 2 ^ 64)
    (same : pairAt aead key p = pairAt aead key q) : p = q := by
  obtain ⟨sameKey, sameNonce⟩ := Prod.mk.inj same
  have index := distinct _ _ (by omega) (by omega) sameKey
  have counter := frameNonce_injective (by omega) (by omega) sameNonce
  omega

section

variable (reached : d.Reached aead key rekeys)
include reached

theorem rekeyCall_pair
    : (rekeyCall aead d.key).keyNonce = pairAt aead key (rekeys * 2 ^ 64 + rekeyNonce) := by
  rw [pairAt_of (by decide), ← reached.chained]
  rfl

theorem frameCall_pair (channel : UInt8) (payload : List UInt8)
    : (frameCall aead d channel payload).keyNonce = pairAt aead key (rekeys * 2 ^ 64 + d.n) := by
  have small : d.n < 2 ^ 64 := Nat.lt_of_le_of_lt reached.bounded (by decide)
  rw [pairAt_of small, ← reached.chained]
  rfl

theorem Direction.Reached.rekey : (rekeyDirection aead d).Reached aead key (rekeys + 1) where
  chained := by
    rw [Function.iterate_succ_apply', ← reached.chained]
    rfl
  bounded := Nat.zero_le _

theorem Direction.Reached.count (notDue : d.due = false) (innerLen : Nat)
    : (d.count innerLen).Reached aead key rekeys where
  chained := reached.chained
  bounded := lt_frameLimit notDue

end

/-- Calls at growing positions from `low` up to `high`. -/
structure Placed (aead : Aead) (key : List UInt8) (calls : List AeadCall) (low high : Nat)
    (positions : List Nat) : Prop where
  pairs : calls.map AeadCall.keyNonce = positions.map (pairAt aead key)
  growing : positions.Pairwise (· < ·)
  bounds : ∀ p ∈ positions, low ≤ p ∧ p < high

theorem Placed.nil (low high : Nat) : Placed aead key [] low high [] where
  pairs := rfl
  growing := List.Pairwise.nil
  bounds := by simp

theorem Placed.cons {call : AeadCall} {calls : List AeadCall} {low next high p : Nat}
    {positions : List Nat} (placed : Placed aead key calls next high positions)
    (pair : call.keyNonce = pairAt aead key p) (least : low ≤ p) (before : p < next)
    (below : p < high)
    : Placed aead key (call :: calls) low high (p :: positions) where
  pairs := by rw [List.map_cons, List.map_cons, pair, placed.pairs]
  growing := by
    refine List.Pairwise.cons ?_ placed.growing
    intro q held
    exact Nat.lt_of_lt_of_le before (placed.bounds q held).1
  bounds := by
    intro q held
    cases held with
    | head => exact ⟨least, below⟩
    | tail _ held =>
      obtain ⟨above, under⟩ := placed.bounds q held
      exact ⟨by omega, under⟩

theorem callsOf_placed (messages : List Message) {t : SessionTransport} {rekeys : Nat}
    (reached : t.send.Reached aead key rekeys)
    : ∃ positions,
        Placed aead key (callsOf aead t messages) (rekeys * 2 ^ 64 + t.send.n)
          ((rekeys + rekeysOf aead t messages + 1) * 2 ^ 64) positions := by
  induction messages generalizing t rekeys with
  | nil => exact ⟨[], Placed.nil _ _⟩
  | cons message messages ih =>
    have small := reached.bounded
    rw [sessionRekeyFrameLimit] at small
    cases fits : message.fits with
    | false =>
      rw [callsOf, rekeysOf, encryptCalls_refused fits, encryptRekeys_refused fits,
        encryptNext_refused fits, List.nil_append, Nat.zero_add]
      exact ih reached
    | true =>
      rw [callsOf, rekeysOf, encryptCalls_sealed fits, encryptRekeys_sealed fits,
        encryptNext_sealed fits]
      cases due : t.send.due with
      | false =>
        rw [rekeyIfNeeded_notDue due, if_neg Bool.false_ne_true, if_neg Bool.false_ne_true,
          Nat.zero_add]
        have after := reached.count due (message.payload.length + 1)
        obtain ⟨positions, placed⟩ :=
          @ih { t with send := t.send.count (message.payload.length + 1) } _ after
        have start : (t.send.count (message.payload.length + 1)).n = t.send.n + 1 := rfl
        refine ⟨_, placed.cons (frameCall_pair reached _ _) (Nat.le_refl _) ?_ ?_⟩
        · rw [start]
          omega
        · omega
      | true =>
        rw [rekeyIfNeeded_due due, if_pos rfl, if_pos rfl]
        have rekeyed := reached.rekey
        have after := rekeyed.count rfl (message.payload.length + 1)
        obtain ⟨positions, placed⟩ :=
          @ih
            { t with send := (rekeyDirection aead t.send).count (message.payload.length + 1) }
            _ after
        have fresh : (rekeyDirection aead t.send).n = 0 := rfl
        have start
            : ((rekeyDirection aead t.send).count (message.payload.length + 1)).n = 1 := rfl
        have last : rekeyNonce = 2 ^ 64 - 1 := rfl
        rw [start, Nat.add_assoc rekeys 1] at placed
        have sealed := placed.cons (frameCall_pair rekeyed message.channel message.payload)
          (Nat.le_refl _) (by rw [fresh]; omega) (by rw [fresh]; omega)
        rw [fresh] at sealed
        refine ⟨_, sealed.cons (rekeyCall_pair reached) ?_ ?_ ?_⟩
        · rw [last]
          omega
        · rw [last]
          omega
        · rw [last]
          omega

theorem callsOf_nodup {messages : List Message} {t : SessionTransport} {rekeys : Nat}
    (reached : t.send.Reached aead key rekeys)
    (distinct : RepetitionFree aead key (rekeys + rekeysOf aead t messages))
    : ((callsOf aead t messages).map AeadCall.keyNonce).Nodup := by
  obtain ⟨positions, placed⟩ := callsOf_placed messages reached
  rw [placed.pairs]
  apply List.Nodup.map_on
  · intro p heldP q heldQ same
    exact pairAt_injective distinct (placed.bounds p heldP).2 (placed.bounds q heldQ).2 same
  · exact placed.growing.imp Nat.ne_of_lt

end Positions

end Z23.Noise
