import Z23.Lib.Bytes

/-!
The secure record layer: length-prefixed sealed frames with a nonce counter for each direction and
keys that are replaced after a number of frames or bytes.

The authenticated cipher is a parameter. On inputs of the sizes used here it never fails to seal.
-/

namespace Z23.Noise

open Z23.Lib.Bytes

-- Frames

def sessionChData : UInt8 := 0

def sessionFrameLenBytes : Nat := 3

def sessionFrameMaxPlaintext : Nat := 1536

def sessionMaxPayload : Nat := sessionFrameMaxPlaintext - 1

def sessionTagLen : Nat := 16

def sessionFrameMaxWire : Nat := sessionFrameLenBytes + sessionFrameMaxPlaintext + sessionTagLen

def sessionRekeyFrameLimit : Nat := 2 ^ 20

def sessionRekeyByteLimit : Nat := 2 ^ 30

/-- Models `chacha20poly1305_encrypt` and `chacha20poly1305_decrypt`, by key, nonce, associated data
and text; a ciphertext ends with its tag. -/
structure Aead where
  encrypt : List UInt8 → List UInt8 → List UInt8 → List UInt8 → List UInt8
  decrypt : List UInt8 → List UInt8 → List UInt8 → List UInt8 → Option (List UInt8)

/-- A call of `chacha20poly1305_encrypt` and what it gave. -/
structure AeadCall where
  key : List UInt8
  nonce : List UInt8
  aad : List UInt8
  plaintext : List UInt8
  ciphertext : List UInt8
deriving DecidableEq, Repr

/-- Models `frame_nonce`. -/
def frameNonce (n : Nat) : List UInt8 := [0, 0, 0, 0] ++ bytesLE 8 n

/-- Models `frame_aad`. -/
def frameAad (epoch : UInt32) (wireLen : Nat) : List UInt8 :=
  bytesLE 4 epoch.toNat ++ bytesLE 3 wireLen

-- Directions and keys

/-- Key, frame counter, epoch and bytes since the last rekey of one direction. -/
structure Direction where
  key : List UInt8
  n : Nat
  epoch : UInt32
  bytesEpoch : Nat
deriving DecidableEq, Repr

structure SessionTransport where
  send : Direction
  recv : Direction
deriving DecidableEq, Repr

/-- Models `session_transport_init`. -/
def SessionTransport.init (sendKey recvKey : List UInt8) : SessionTransport :=
  ⟨⟨sendKey, 0, 0, 0⟩, ⟨recvKey, 0, 0, 0⟩⟩

def rekeyNonce : Nat := 2 ^ 64 - 1

section Cipher

variable (aead : Aead)

/-- The call that derives the next key. -/
def rekeyCall (key : List UInt8) : AeadCall :=
  { key
    nonce := frameNonce rekeyNonce
    aad := []
    plaintext := List.replicate 32 0
    ciphertext := aead.encrypt key (frameNonce rekeyNonce) [] (List.replicate 32 0) }

def nextKey (key : List UInt8) : List UInt8 := (rekeyCall aead key).ciphertext.take 32

/-- Models `rekey_direction`. -/
def rekeyDirection (d : Direction) : Direction := ⟨nextKey aead d.key, 0, d.epoch + 1, 0⟩

def Direction.due (d : Direction) : Bool :=
  sessionRekeyFrameLimit ≤ d.n || sessionRekeyByteLimit ≤ d.bytesEpoch

/-- The rekey before a frame, when a threshold is crossed. -/
def rekeyIfNeeded (d : Direction) : Direction := if d.due then rekeyDirection aead d else d

/-- The direction after a frame of `innerLen` bytes. -/
def Direction.count (d : Direction) (innerLen : Nat) : Direction :=
  { d with n := d.n + 1, bytesEpoch := d.bytesEpoch + innerLen }

-- Sealing and opening

/-- The call that seals a frame. -/
def frameCall (d : Direction) (channel : UInt8) (payload : List UInt8) : AeadCall :=
  let inner := channel :: payload
  let aad := frameAad d.epoch (inner.length + sessionTagLen)
  { key := d.key
    nonce := frameNonce d.n
    aad
    plaintext := inner
    ciphertext := aead.encrypt d.key (frameNonce d.n) aad inner }

/-- The frame of a payload, under a direction that is not due. -/
def sealFrame (d : Direction) (channel : UInt8) (payload : List UInt8) : List UInt8 :=
  bytesLE 3 (payload.length + 1 + sessionTagLen) ++ (frameCall aead d channel payload).ciphertext

/-- Models `session_transport_encrypt`: the frame, unless refused. -/
def sessionTransportEncrypt (t : SessionTransport) (channel : UInt8) (plaintext : List UInt8)
    : SessionTransport × Option (List UInt8) :=
  if plaintext.length > sessionMaxPayload then (t, none)
  else
    let d := rekeyIfNeeded aead t.send
    ({ t with send := d.count (plaintext.length + 1) }, some (sealFrame aead d channel plaintext))

/-- The length field of a frame. -/
def wireLength (input : List UInt8) : Nat := natLE (input.take sessionFrameLenBytes)

/-- The ciphertext of a frame, by its length field. -/
def wireCiphertext (input : List UInt8) : List UInt8 :=
  (input.drop sessionFrameLenBytes).take (wireLength input)

/-- What `session_transport_decrypt` checks before it opens a frame. -/
def wireAcceptable (input : List UInt8) : Bool :=
  sessionFrameLenBytes + sessionTagLen ≤ input.length
    && sessionTagLen ≤ wireLength input
    && sessionFrameLenBytes + wireLength input ≤ input.length
    && 1 ≤ wireLength input - sessionTagLen
    && wireLength input - sessionTagLen ≤ sessionFrameMaxPlaintext

/-- Models `session_transport_decrypt`: the channel and the payload, unless refused. -/
def sessionTransportDecrypt (t : SessionTransport) (input : List UInt8)
    : SessionTransport × Option (UInt8 × List UInt8) :=
  if !wireAcceptable input then (t, none)
  else
    let innerLen := wireLength input - sessionTagLen
    let d := rekeyIfNeeded aead t.recv
    match aead.decrypt d.key (frameNonce d.n) (frameAad d.epoch (wireLength input))
        (wireCiphertext input) with
    | none => ({ t with recv := d }, none)
    | some inner =>
      ({ t with recv := d.count innerLen },
        some (inner.headD 0, (inner.drop 1).take (innerLen - 1)))

end Cipher

/-- What the code relies on in the cipher: what was sealed opens again, and the tag adds its
length. -/
structure Aead.Correct (aead : Aead) : Prop where
  opens : ∀ key nonce aad text, aead.decrypt key nonce aad (aead.encrypt key nonce aad text) = some text
  length
    : ∀ key nonce aad text,
        (aead.encrypt key nonce aad text).length = text.length + sessionTagLen

end Z23.Noise
