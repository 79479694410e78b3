import Mathlib.Tactic.IntervalCases
import Z23.Noise.SessionNonces

/-!
A receiver of the secure record layer, fed the frames of a sender in order or anything else.

The receiver keeps step with the sender: once a due rekey is done on both sides, it opens under the
key, the counter and the epoch of the next frame sent. As no pair of key and nonce comes twice, the
next frame is the only one that opens.
-/

namespace Z23.Noise

open Z23.Lib.Bytes

-- Runs of a receiver

/-- The frame at the front of an input, by its length field. -/
def wireFrame (input : List UInt8) : List UInt8 :=
  input.take (sessionFrameLenBytes + wireLength input)

def Message.opened (message : Message) : UInt8 × List UInt8 := (message.channel, message.payload)

def decryptAll (aead : Aead) (t : SessionTransport)
    : List (List UInt8) → SessionTransport × List (Option (UInt8 × List UInt8))
  | [] => (t, [])
  | input :: inputs =>
    let (t, opened) := sessionTransportDecrypt aead t input
    let (t, rest) := decryptAll aead t inputs
    (t, opened :: rest)

/-- What an ordered channel gives: each input is refused unless it is the next frame sent, which
stays the next one after a refusal. -/
def inOrder (isFrame : List UInt8 → List UInt8 → Bool)
    : List Sent → List (List UInt8) → List (Option (UInt8 × List UInt8))
  | _, [] => []
  | [], _ :: inputs => none :: inOrder isFrame [] inputs
  | next :: sent, input :: inputs =>
    if isFrame input next.frame then some next.message.opened :: inOrder isFrame sent inputs
    else none :: inOrder isFrame (next :: sent) inputs

/-- The ciphertexts of the inputs open only as they were sealed. -/
def IdealOn (aead : Aead) (calls : List AeadCall) (inputs : List (List UInt8)) : Prop :=
  ∀ input ∈ inputs, ∀ key nonce aad text,
    aead.decrypt key nonce aad (wireCiphertext input) = some text →
      ⟨key, nonce, aad, text, wireCiphertext input⟩ ∈ calls

-- Frames on the wire

section Wire

variable {aead : Aead} {d : Direction} {message : Message}

theorem wireFrame_eq {input : List UInt8} (long : sessionFrameLenBytes ≤ input.length)
    : wireFrame input = bytesLE 3 (wireLength input) ++ wireCiphertext input := by
  have field : bytesLE 3 (wireLength input) = input.take sessionFrameLenBytes := by
    have back := bytesLE_natLE (input.take sessionFrameLenBytes)
    rwa [List.length_take, Nat.min_eq_left long] at back
  rw [field, wireFrame, wireCiphertext, List.take_add]

theorem wireFrame_front (input : List UInt8) : ∃ rest, input = wireFrame input ++ rest :=
  ⟨_, (List.take_append_drop _ input).symm⟩

theorem wireLength_field {length : Nat} (small : length < 2 ^ 24) (rest : List UInt8)
    : wireLength (bytesLE 3 length ++ rest) = length := by
  have front : (bytesLE 3 length ++ rest).take sessionFrameLenBytes = bytesLE 3 length := by
    rw [sessionFrameLenBytes, List.take_left' (length_bytesLE 3 length)]
  rw [wireLength, front, natLE_bytesLE (by simpa using small)]

theorem wireCiphertext_field {length : Nat} (small : length < 2 ^ 24) {text : List UInt8}
    (exact : text.length = length) (rest : List UInt8)
    : wireCiphertext (bytesLE 3 length ++ (text ++ rest)) = text := by
  rw [wireCiphertext, wireLength_field small, sessionFrameLenBytes,
    List.drop_left' (length_bytesLE 3 length), List.take_left' exact]

theorem Message.wire_small (fits : message.fits = true)
    : message.payload.length + 1 + sessionTagLen ≤ 1552 := by
  have bound : message.payload.length ≤ sessionMaxPayload := by simpa [Message.fits] using fits
  have most : sessionMaxPayload = 1535 := rfl
  rw [most] at bound
  rw [sessionTagLen]
  omega

theorem frameCall_length (correct : aead.Correct)
    : (frameCall aead d message.channel message.payload).ciphertext.length
      = message.payload.length + 1 + sessionTagLen := by
  rw [frameCall, correct.length, List.length_cons]

theorem sealFrame_fields (correct : aead.Correct) (fits : message.fits = true) (rest : List UInt8)
    : wireLength (sealFrame aead d message.channel message.payload ++ rest)
        = message.payload.length + 1 + sessionTagLen
      ∧ wireCiphertext (sealFrame aead d message.channel message.payload ++ rest)
          = (frameCall aead d message.channel message.payload).ciphertext
      ∧ wireAcceptable (sealFrame aead d message.channel message.payload ++ rest) = true := by
  have small := Message.wire_small fits
  have exact := @frameCall_length aead d message correct
  have length := wireLength_field (by omega : message.payload.length + 1 + sessionTagLen < 2 ^ 24)
    ((frameCall aead d message.channel message.payload).ciphertext ++ rest)
  have text := wireCiphertext_field (by omega) exact rest
  rw [sealFrame, List.append_assoc]
  refine ⟨length, text, ?_⟩
  simp only [wireAcceptable, Bool.and_eq_true, decide_eq_true_eq, length]
  simp only [List.length_append, length_bytesLE, exact, sessionFrameLenBytes, sessionTagLen,
    sessionFrameMaxPlaintext] at small ⊢
  omega

end Wire

-- One call

section Steps

variable {aead : Aead} {t : SessionTransport} {d : Direction} {message : Message}

theorem decrypt_cases (aead : Aead) (t : SessionTransport) (input : List UInt8)
    : (sessionTransportDecrypt aead t input).2 = none
        ∧ rekeyIfNeeded aead (sessionTransportDecrypt aead t input).1.recv
            = rekeyIfNeeded aead t.recv
      ∨ wireAcceptable input = true
        ∧ ∃ inner,
            aead.decrypt (rekeyIfNeeded aead t.recv).key (frameNonce (rekeyIfNeeded aead t.recv).n)
                (frameAad (rekeyIfNeeded aead t.recv).epoch (wireLength input))
                (wireCiphertext input)
              = some inner := by
  rw [sessionTransportDecrypt]
  cases acceptable : wireAcceptable input with
  | false => exact Or.inl ⟨rfl, rfl⟩
  | true =>
    simp only [Bool.not_true, Bool.false_eq_true, if_false, true_and]
    cases opened : aead.decrypt (rekeyIfNeeded aead t.recv).key
        (frameNonce (rekeyIfNeeded aead t.recv).n)
        (frameAad (rekeyIfNeeded aead t.recv).epoch (wireLength input))
        (wireCiphertext input) with
    | none => exact Or.inl ⟨rfl, rekeyIfNeeded_twice _⟩
    | some inner => exact Or.inr ⟨inner, rfl⟩

theorem decrypt_next (correct : aead.Correct) (fits : message.fits = true)
    (aligned : rekeyIfNeeded aead t.recv = d) (rest : List UInt8)
    : sessionTransportDecrypt aead t (sealFrame aead d message.channel message.payload ++ rest)
      = ({ t with recv := d.count (message.payload.length + 1) }, some message.opened) := by
  obtain ⟨length, text, acceptable⟩ := @sealFrame_fields aead d message correct fits rest
  have inner : message.payload.length + 1 + sessionTagLen - sessionTagLen
      = message.payload.length + 1 := Nat.add_sub_cancel _ _
  have opens
      : aead.decrypt d.key (frameNonce d.n)
          (frameAad d.epoch (message.payload.length + 1 + sessionTagLen))
          (frameCall aead d message.channel message.payload).ciphertext
        = some (message.channel :: message.payload) :=
    correct.opens _ _ _ _
  rw [sessionTransportDecrypt, acceptable, length, text, aligned, inner]
  simp only [Bool.not_true, Bool.false_eq_true, if_false, opens]
  simp [Message.opened]

theorem decrypt_only {calls : List AeadCall} {input : List UInt8}
    (ideal : IdealOn aead calls [input])
    (unique
      : ∀ call ∈ calls, call.key = d.key → call.nonce = frameNonce d.n →
          call = frameCall aead d message.channel message.payload)
    (acceptable : wireAcceptable input = true) {inner : List UInt8}
    (opened
      : aead.decrypt d.key (frameNonce d.n) (frameAad d.epoch (wireLength input))
          (wireCiphertext input) = some inner)
    : wireFrame input = sealFrame aead d message.channel message.payload := by
  have logged := ideal input (List.mem_singleton.mpr rfl) _ _ _ _ opened
  have same := unique _ logged rfl rfl
  have sameAad := congrArg AeadCall.aad same
  have sameText := congrArg AeadCall.ciphertext same
  have fields : bytesLE 3 (wireLength input)
      = bytesLE 3 (message.payload.length + 1 + sessionTagLen) := List.append_cancel_left sameAad
  have long : sessionFrameLenBytes ≤ input.length := by
    simp only [wireAcceptable, Bool.and_eq_true, decide_eq_true_eq] at acceptable
    omega
  rw [wireFrame_eq long, fields, sealFrame, ← sameText]

end Steps

-- Whole runs

section Runs

variable {aead : Aead} {t r : SessionTransport}

theorem decryptAll_sent (correct : aead.Correct) (messages : List Message)
    (aligned : r.recv = t.send)
    : decryptAll aead r ((sentBy aead t messages).map Sent.frame)
      = ({ r with recv := (encryptAll aead t messages).send },
          (sentBy aead t messages).map fun sent => some sent.message.opened) := by
  induction messages generalizing t r with
  | nil =>
    rw [encryptAll, ← aligned]
    rfl
  | cons message messages ih =>
    rw [sentBy, encryptAll]
    cases fits : message.fits with
    | false =>
      rw [encryptSent_refused fits, encryptNext_refused fits]
      exact ih aligned
    | true =>
      have next := decrypt_next correct fits
        (congrArg (rekeyIfNeeded aead) aligned) ([] : List UInt8)
      rw [List.append_nil] at next
      rw [encryptSent_sealed fits, encryptNext_sealed fits]
      simp only [List.map_cons, List.cons_append, List.nil_append, decryptAll, next]
      rw [ih rfl]

theorem sentBy_cases (aead : Aead) (t : SessionTransport) (messages : List Message)
    : sentBy aead t messages = [] ∧ encryptAll aead t messages = t
      ∨ ∃ message rest,
          message.fits = true
            ∧ sentBy aead t messages
                = encryptSent aead t message ++ sentBy aead (encryptNext aead t message) rest
            ∧ callsOf aead t messages
                = encryptCalls aead t message ++ callsOf aead (encryptNext aead t message) rest
            ∧ encryptAll aead t messages
                = encryptAll aead (encryptNext aead t message) rest := by
  induction messages with
  | nil => exact Or.inl ⟨rfl, rfl⟩
  | cons message messages ih =>
    cases fits : message.fits with
    | true => exact Or.inr ⟨message, messages, fits, rfl, rfl, rfl⟩
    | false =>
      rw [sentBy, callsOf, encryptAll, encryptSent_refused fits, encryptCalls_refused fits,
        encryptNext_refused fits]
      exact ih

theorem decryptAll_cons (input : List UInt8) (inputs : List (List UInt8))
    : (decryptAll aead r (input :: inputs)).2
      = (sessionTransportDecrypt aead r input).2
        :: (decryptAll aead (sessionTransportDecrypt aead r input).1 inputs).2 := rfl

theorem frameCall_only {calls : List AeadCall} (unique : (calls.map AeadCall.keyNonce).Nodup)
    {message : Message} (fits : message.fits = true) (logged : encryptCalls aead t message ⊆ calls)
    : ∀ call ∈ calls, call.key = (rekeyIfNeeded aead t.send).key →
        call.nonce = frameNonce (rekeyIfNeeded aead t.send).n →
          call = frameCall aead (rekeyIfNeeded aead t.send) message.channel message.payload := by
  intro call held sameKey sameNonce
  apply List.inj_on_of_nodup_map unique held
  · apply logged
    rw [encryptCalls_sealed fits]
    exact List.mem_append_right _ (List.mem_singleton.mpr rfl)
  · exact Prod.ext sameKey sameNonce

theorem decryptAll_inOrder (correct : aead.Correct) {calls : List AeadCall}
    {inputs : List (List UInt8)} {messages : List Message} (ideal : IdealOn aead calls inputs)
    (unique : (calls.map AeadCall.keyNonce).Nodup) (logged : callsOf aead t messages ⊆ calls)
    (fresh
      : ((rekeyIfNeeded aead (encryptAll aead t messages).send).key,
          frameNonce (rekeyIfNeeded aead (encryptAll aead t messages).send).n)
        ∉ calls.map AeadCall.keyNonce)
    (aligned : rekeyIfNeeded aead r.recv = rekeyIfNeeded aead t.send)
    : (decryptAll aead r inputs).2
      = inOrder (fun input frame => wireFrame input == frame) (sentBy aead t messages) inputs := by
  induction inputs generalizing t r messages with
  | nil =>
    cases sentBy aead t messages with
    | nil => rfl
    | cons next sent => rfl
  | cons input inputs ih =>
    have idealHead : IdealOn aead calls [input] := by
      intro other held
      rw [List.mem_singleton.mp held]
      exact ideal input List.mem_cons_self
    have idealTail : IdealOn aead calls inputs := (List.forall_mem_cons.mp ideal).2
    obtain ⟨nothing, same⟩ | ⟨message, rest, fits, sent, made, after⟩ :=
      sentBy_cases aead t messages
    · have refused := decrypt_cases aead r input
      rw [aligned] at refused
      obtain ⟨none, kept⟩ | ⟨acceptable, inner, opened⟩ := refused
      · have tail := ih idealTail logged fresh kept
        rw [nothing] at tail ⊢
        rw [decryptAll_cons, inOrder, none, tail]
      · -- an input that opens would be sealed under a pair no call has used
        exfalso
        apply fresh
        rw [same]
        exact List.mem_map_of_mem (f := AeadCall.keyNonce)
          (idealHead input List.mem_cons_self _ _ _ _ opened)
    · rw [made] at logged
      have loggedHead := (List.append_subset.mp logged).1
      have loggedTail := (List.append_subset.mp logged).2
      have only := frameCall_only unique fits loggedHead
      rw [encryptSent_sealed fits] at sent
      cases frame : wireFrame input ==
          sealFrame aead (rekeyIfNeeded aead t.send) message.channel message.payload with
      | true =>
        obtain ⟨behind, split⟩ := wireFrame_front input
        rw [beq_iff_eq.mp frame] at split
        have accepted := decrypt_next correct fits aligned behind
        rw [← split] at accepted
        rw [after] at fresh
        have next := congrArg SessionTransport.send
          (encryptNext_sealed fits : encryptNext aead t message = _)
        have tail := @ih _
          { r with
            recv := (rekeyIfNeeded aead t.send).count (message.payload.length + 1) }
          rest idealTail loggedTail fresh (by rw [next])
        rw [sent, decryptAll_cons, List.singleton_append, inOrder, frame, accepted, tail,
          if_pos rfl]
      | false =>
        have refused := decrypt_cases aead r input
        rw [aligned] at refused
        obtain ⟨none, kept⟩ | ⟨acceptable, inner, opened⟩ := refused
        · have tail := ih idealTail (made ▸ logged) fresh kept
          rw [sent] at tail ⊢
          rw [decryptAll_cons, List.singleton_append, inOrder, frame, none, tail,
            if_neg Bool.false_ne_true]
          rfl
        · have same := decrypt_only idealHead only acceptable opened
          rw [same, beq_self_eq_true] at frame
          cases frame

theorem callsOf_append (before after : List Message)
    : callsOf aead t (before ++ after)
      = callsOf aead t before ++ callsOf aead (encryptAll aead t before) after := by
  induction before generalizing t with
  | nil => rfl
  | cons message before ih =>
    rw [List.cons_append, callsOf, ih, ← List.append_assoc]
    rfl

theorem rekeysOf_append (before after : List Message)
    : rekeysOf aead t (before ++ after)
      = rekeysOf aead t before + rekeysOf aead (encryptAll aead t before) after := by
  induction before generalizing t with
  | nil => rw [List.nil_append, rekeysOf, Nat.zero_add, encryptAll]
  | cons message before ih =>
    rw [List.cons_append, rekeysOf, ih, ← Nat.add_assoc]
    rfl

theorem RepetitionFree.mono {key : List UInt8} {few many : Nat} (le : few ≤ many)
    (distinct : RepetitionFree aead key many) : RepetitionFree aead key few :=
  fun i j boundI boundJ same =>
    distinct i j (Nat.le_trans boundI le) (Nat.le_trans boundJ le) same

theorem next_pair_fresh {key : List UInt8} {messages : List Message}
    (reached : t.send.Reached aead key 0)
    (distinct : RepetitionFree aead key (rekeysOf aead t messages + 1))
    : ((rekeyIfNeeded aead (encryptAll aead t messages).send).key,
        frameNonce (rekeyIfNeeded aead (encryptAll aead t messages).send).n)
      ∉ (callsOf aead t messages).map AeadCall.keyNonce := by
  let extra : Message := ⟨sessionChData, []⟩
  have fits : extra.fits = true := rfl
  have once : rekeysOf aead (encryptAll aead t messages) [extra] ≤ 1 := by
    rw [rekeysOf, rekeysOf, encryptRekeys]
    split
    · exact Nat.le_refl 1
    · exact Nat.zero_le 1
  have enough : 0 + rekeysOf aead t (messages ++ [extra]) ≤ rekeysOf aead t messages + 1 := by
    rw [rekeysOf_append, Nat.zero_add]
    exact Nat.add_le_add_left once _
  have unique := callsOf_nodup reached (distinct.mono enough)
  rw [callsOf_append, List.map_append] at unique
  intro held
  apply List.disjoint_of_nodup_append unique held
  rw [callsOf, callsOf, encryptCalls_sealed fits, List.append_nil, List.map_append]
  exact List.mem_append_right _ (List.mem_singleton.mpr rfl)

theorem reached_init (sendKey recvKey : List UInt8)
    : (SessionTransport.init sendKey recvKey).send.Reached aead sendKey 0 :=
  ⟨rfl, Nat.zero_le _⟩

/-- The record layer is an ordered channel without nonce reuse. A receiver looks at the bytes its
length field delimits: what comes behind them is ignored. -/
theorem session_ordered (correct : aead.Correct) (sendKey recvKey : List UInt8)
    (messages : List Message) (inputs : List (List UInt8))
    (distinct
      : RepetitionFree aead sendKey
          (rekeysOf aead (SessionTransport.init sendKey recvKey) messages + 1))
    (ideal
      : IdealOn aead (callsOf aead (SessionTransport.init sendKey recvKey) messages) inputs)
    : ((callsOf aead (SessionTransport.init sendKey recvKey) messages).map
          AeadCall.keyNonce).Nodup
      ∧ (∀ before, before <+: messages →
          decryptAll aead (SessionTransport.init recvKey sendKey)
              ((sentBy aead (SessionTransport.init sendKey recvKey) before).map Sent.frame)
            = ({ SessionTransport.init recvKey sendKey with
                  recv := (encryptAll aead (SessionTransport.init sendKey recvKey) before).send },
                (sentBy aead (SessionTransport.init sendKey recvKey) before).map fun sent =>
                  some sent.message.opened))
      ∧ (decryptAll aead (SessionTransport.init recvKey sendKey) inputs).2
          = inOrder (fun input frame => wireFrame input == frame)
              (sentBy aead (SessionTransport.init sendKey recvKey) messages) inputs := by
  have reached := @reached_init aead sendKey recvKey
  have unique := callsOf_nodup reached
    (distinct.mono (by rw [Nat.zero_add]; exact Nat.le_succ _))
  refine ⟨unique, ?_, ?_⟩
  · intro before _
    exact decryptAll_sent correct before rfl
  · apply decryptAll_inOrder correct ideal unique (List.Subset.refl _)
    · exact next_pair_fresh reached distinct
    · rfl

end Runs

-- A cipher given by some of its values

/-- A cipher that takes the values of a table, and elsewhere appends a tag of zeros. -/
def tableAead (table : List AeadCall) : Aead where
  encrypt key nonce aad text :=
    match table.find? fun call =>
        call.key == key && call.nonce == nonce && call.aad == aad && call.plaintext == text with
    | some call => call.ciphertext
    | none => text ++ List.replicate sessionTagLen 0
  decrypt key nonce aad text :=
    match table.find? fun call =>
        call.key == key && call.nonce == nonce && call.aad == aad && call.ciphertext == text with
    | some call => some call.plaintext
    | none =>
      if List.replicate sessionTagLen 0 <:+ text then
        some (text.take (text.length - sessionTagLen))
      else none

/-- The tables that give a cipher. -/
structure TableFits (table : List AeadCall) : Prop where
  unique : (table.map AeadCall.keyNonce).Nodup
  length : ∀ call ∈ table, call.ciphertext.length = call.plaintext.length + sessionTagLen
  tagged : ∀ call ∈ table, ¬ List.replicate sessionTagLen 0 <:+ call.ciphertext

section Table

variable {table : List AeadCall}

theorem tableAead_opens (fits : TableFits table) (key nonce aad text : List UInt8)
    : (tableAead table).decrypt key nonce aad ((tableAead table).encrypt key nonce aad text)
      = some text := by
  simp only [tableAead]
  cases found : table.find? fun call =>
      call.key == key && call.nonce == nonce && call.aad == aad && call.plaintext == text with
  | some call =>
    have held := List.mem_of_find?_eq_some found
    have same := List.find?_some found
    simp only [Bool.and_eq_true, beq_iff_eq] at same
    obtain ⟨⟨⟨sameKey, sameNonce⟩, sameAad⟩, sameText⟩ := same
    cases back : table.find? fun other =>
        other.key == key && other.nonce == nonce && other.aad == aad
          && other.ciphertext == call.ciphertext with
    | none =>
      have missed := List.find?_eq_none.mp back call held
      simp [sameKey, sameNonce, sameAad] at missed
    | some other =>
      have heldOther := List.mem_of_find?_eq_some back
      have sameOther := List.find?_some back
      simp only [Bool.and_eq_true, beq_iff_eq] at sameOther
      obtain ⟨⟨⟨otherKey, otherNonce⟩, otherAad⟩, otherText⟩ := sameOther
      have equal : other = call := by
        apply List.inj_on_of_nodup_map fits.unique heldOther held
        rw [AeadCall.keyNonce, AeadCall.keyNonce, otherKey, otherNonce, sameKey, sameNonce]
      simp [equal, sameText]
  | none =>
    cases back : table.find? fun other =>
        other.key == key && other.nonce == nonce && other.aad == aad
          && other.ciphertext == text ++ List.replicate sessionTagLen 0 with
    | some other =>
      exfalso
      have sameOther := List.find?_some back
      simp only [Bool.and_eq_true, beq_iff_eq] at sameOther
      apply fits.tagged other (List.mem_of_find?_eq_some back)
      rw [sameOther.2]
      exact List.suffix_append _ _
    | none => simp

theorem tableAead_correct (fits : TableFits table) : (tableAead table).Correct where
  opens := tableAead_opens fits
  length := by
    intro key nonce aad text
    simp only [tableAead]
    split
    next call found =>
      have same := List.find?_some found
      simp only [Bool.and_eq_true, beq_iff_eq] at same
      rw [fits.length call (List.mem_of_find?_eq_some found), same.2]
    next => simp

theorem tableAead_ideal {calls : List AeadCall} {inputs : List (List UInt8)}
    (tagged : ∀ input ∈ inputs, ¬ List.replicate sessionTagLen 0 <:+ wireCiphertext input)
    (made
      : ∀ input ∈ inputs, ∀ call ∈ table, call.ciphertext = wireCiphertext input → call ∈ calls)
    : IdealOn (tableAead table) calls inputs := by
  intro input held key nonce aad text opened
  simp only [tableAead] at opened
  split at opened
  next call found =>
    have same := List.find?_some found
    simp only [Bool.and_eq_true, beq_iff_eq] at same
    obtain ⟨⟨⟨sameKey, sameNonce⟩, sameAad⟩, sameText⟩ := same
    cases opened
    have logged := made input held call (List.mem_of_find?_eq_some found) sameText
    rwa [← sameKey, ← sameNonce, ← sameAad, ← sameText]
  next =>
    rw [if_neg (tagged input held)] at opened
    cases opened

end Table

-- A sample run

def sampleKey : List UInt8 := (List.range 32).map fun i => UInt8.ofNat (i + 1)

def sampleMessages : List Message := [⟨sessionChData, [1, 2]⟩, ⟨sessionChData, []⟩]

/-- Values of ChaCha20-Poly1305. -/
def sampleTable : List AeadCall :=
  [ { key := sampleKey
      nonce := frameNonce 0
      aad := frameAad 0 19
      plaintext := [0, 1, 2]
      ciphertext :=
        [99, 139, 213, 1, 44, 144, 59, 17, 231, 87, 186, 142, 194, 44, 4, 64, 63, 60, 82] },
    { key := sampleKey
      nonce := frameNonce 1
      aad := frameAad 0 17
      plaintext := [0]
      ciphertext :=
        [96, 116, 245, 174, 185, 15, 58, 173, 52, 52, 204, 49, 117, 252, 133, 61, 71] },
    { key := sampleKey
      nonce := frameNonce rekeyNonce
      aad := []
      plaintext := List.replicate 32 0
      ciphertext :=
        [127, 99, 123, 230, 249, 210, 37, 16, 236, 204, 30, 138, 89, 135, 64, 206, 192, 11, 75,
          183, 101, 125, 133, 254, 121, 131, 60, 250, 80, 208, 150, 1, 46, 198, 38, 236, 170, 70,
          93, 129, 55, 27, 245, 121, 170, 198, 248, 45] } ]

def sampleAead : Aead := tableAead sampleTable

def sampleSender : SessionTransport := SessionTransport.init sampleKey []

def sampleFrames : List (List UInt8) :=
  (sentBy sampleAead sampleSender sampleMessages).map Sent.frame

/-- The second frame too early, the first one twice, the second one cut and then whole. -/
def sampleInputs : List (List UInt8) :=
  [ sampleFrames.getD 1 [], sampleFrames.getD 0 [], sampleFrames.getD 0 [],
    (sampleFrames.getD 1 []).dropLast, sampleFrames.getD 1 [] ]

theorem sampleTable_fits : TableFits sampleTable where
  unique := by decide
  length := by decide
  tagged := by decide

theorem sample_repetitionFree
    : RepetitionFree sampleAead sampleKey (rekeysOf sampleAead sampleSender sampleMessages + 1) := by
  have differs : sampleKey ≠ nextKey sampleAead sampleKey := by decide
  have one : rekeysOf sampleAead sampleSender sampleMessages + 1 = 1 := by decide
  rw [one]
  intro i j boundI boundJ same
  interval_cases i <;> interval_cases j <;> simp_all

theorem session_ordered_sample
    : (decryptAll sampleAead (SessionTransport.init [] sampleKey) sampleInputs).2
        = [none, some (0, [1, 2]), none, none, some (0, [])]
      ∧ (decryptAll sampleAead (SessionTransport.init [] sampleKey) sampleInputs).2
          = inOrder (fun input frame => wireFrame input == frame)
              (sentBy sampleAead sampleSender sampleMessages) sampleInputs := by
  refine ⟨by decide, ?_⟩
  have ideal
      : IdealOn sampleAead (callsOf sampleAead sampleSender sampleMessages) sampleInputs :=
    tableAead_ideal (by decide) (by decide)
  exact (session_ordered (tableAead_correct sampleTable_fits) sampleKey [] sampleMessages
    sampleInputs sample_repetitionFree ideal).2.2

/-- A byte behind the next frame does not get it refused. -/
theorem decrypt_ignores_rest
    : sampleAead.Correct
      ∧ RepetitionFree sampleAead sampleKey
          (rekeysOf sampleAead sampleSender sampleMessages + 1)
      ∧ IdealOn sampleAead (callsOf sampleAead sampleSender sampleMessages)
          [sampleFrames.getD 0 [] ++ [0]]
      ∧ (decryptAll sampleAead (SessionTransport.init [] sampleKey)
            [sampleFrames.getD 0 [] ++ [0]]).2
          = [some (0, [1, 2])]
      ∧ inOrder (fun input frame => input == frame)
            (sentBy sampleAead sampleSender sampleMessages) [sampleFrames.getD 0 [] ++ [0]]
          = [none] := by
  refine ⟨tableAead_correct sampleTable_fits, sample_repetitionFree, ?_, by decide, by decide⟩
  exact tableAead_ideal (by decide) (by decide)

end Z23.Noise
