import Mathlib.Tactic.SplitIfs
import Z23.Script.Script

/-!
The filter of signatures accepts strict DER and nothing else. It sees a signature without the byte
that names what is signed.
-/

namespace Z23.Script

-- The language

/-- Not empty, not negative, and no zero byte in front that the sign does not need. -/
def StrictInteger : Bytes → Prop
  | [] => False
  | [first] => first &&& 0x80 = 0
  | first :: second :: _ => first &&& 0x80 = 0 ∧ ¬ (first = 0 ∧ second &&& 0x80 = 0)

def derInteger (bytes : Bytes) : Bytes := 0x02 :: UInt8.ofNat bytes.length :: bytes

/-- Two strict integers in a sequence of at most 72 bytes. -/
def StrictDer (sig : Bytes) : Prop :=
  ∃ r s, StrictInteger r ∧ StrictInteger s ∧ r.length + s.length + 6 ≤ 72 ∧
    sig = 0x30 :: UInt8.ofNat (r.length + s.length + 4) :: (derInteger r ++ derInteger s)

-- The reads

/-- A read past the end has no value. -/
def readAt (sig : Bytes) (i : Nat) (next : UInt8 → Option Bool) : Option Bool := sig[i]?.bind next

/-- The check of a zero byte in front, in the order of its reads. -/
def readPadding (sig : Bytes) (len start : Nat) (next : Option Bool) : Option Bool :=
  if len > 1 then
    readAt sig start fun first =>
      if first = 0 then
        readAt sig (start + 1) fun second => if second &&& 0x80 = 0 then some false else next
      else next
  else next

def readDerHeader (sig : Bytes) (next : Option Bool) : Option Bool :=
  if sig.length < 8 ∨ sig.length > 72 then some false
  else readAt sig 0 fun tag =>
    if tag ≠ 0x30 then some false
    else readAt sig 1 fun total => if total.toNat ≠ sig.length - 2 then some false else next

def readRInteger (sig : Bytes) (next : Nat → Option Bool) : Option Bool :=
  readAt sig 2 fun tag =>
    if tag ≠ 0x02 then some false
    else readAt sig 3 fun lenR =>
      if lenR.toNat = 0 then some false
      else readAt sig 4 fun top =>
        if top &&& 0x80 ≠ 0 then some false
        else if lenR.toNat > sig.length - 7 then some false
        else readPadding sig lenR.toNat 4 (next (lenR.toNat + 4))

/-- `is_valid_signature_encoding` with every read in its place. -/
def readSignatureEncoding (sig : Bytes) : Option Bool :=
  readDerHeader sig <| readRInteger sig fun startS =>
    readAt sig startS fun tag =>
      if tag ≠ 0x02 then some false
      else readAt sig (startS + 1) fun lenS =>
        if lenS.toNat = 0 then some false
        else readAt sig (startS + 2) fun top =>
          if top &&& 0x80 ≠ 0 then some false
          else if startS + lenS.toNat + 2 ≠ sig.length then some false
          else readPadding sig lenS.toNat (startS + 2) (some true)

variable {sig : Bytes}

theorem readAt_eq {i : Nat} (inside : i < sig.length) (next : UInt8 → Option Bool)
    : readAt sig i next = next (sig.getD i 0) := by
  rw [readAt, List.getD, List.getElem?_eq_getElem inside]
  rfl

theorem readPadding_eq {len start : Nat} (inside : start + len ≤ sig.length) (next : Option Bool)
    : readPadding sig len start next =
      if len > 1 ∧ sig.getD start 0 = 0 ∧ sig.getD (start + 1) 0 &&& 0x80 = 0 then some false
      else next := by
  rw [readPadding]
  by_cases long : len > 1
  · rw [if_pos long, readAt_eq (by omega), readAt_eq (by omega)]
    by_cases zero : sig.getD start 0 = 0
    · simp only [long, zero, true_and, if_true]
    · simp only [zero, false_and, and_false, if_false]
  · simp only [long, false_and, if_false]

theorem readDerHeader_eq (sig : Bytes) (next : Option Bool)
    : readDerHeader sig next = if isValidSignatureDerHeader sig then next else some false := by
  rw [readDerHeader]
  by_cases sized : sig.length < 8 ∨ sig.length > 72
  · have refused : isValidSignatureDerHeader sig = false := by
      simp only [isValidSignatureDerHeader, Bool.and_eq_false_iff, decide_eq_false_iff_not]
      omega
    simp [sized, refused]
  · rw [if_neg sized, readAt_eq (by omega), readAt_eq (by omega), isValidSignatureDerHeader]
    grind

theorem readRInteger_eq (long : 8 ≤ sig.length) (next : Nat → Option Bool)
    : readRInteger sig next = (signatureRIntegerSOffset sig).elim (some false) next := by
  rw [readRInteger, readAt_eq (by omega), readAt_eq (by omega), readAt_eq (by omega),
    signatureRIntegerSOffset]
  simp only [apply_ite (fun found : Option Nat => found.elim (some false) next), Option.elim_none,
    Option.elim_some]
  by_cases short : (sig.getD 3 0).toNat > sig.length - 7
  · simp only [if_pos short]
  · simp only [if_neg short]
    rw [readPadding_eq (by omega)]

theorem offset_inside {startS : Nat} (long : 8 ≤ sig.length)
    (found : signatureRIntegerSOffset sig = some startS)
    : startS = (sig.getD 3 0).toNat + 4 ∧ startS + 3 ≤ sig.length := by
  rw [signatureRIntegerSOffset] at found
  grind

theorem header_long (header : isValidSignatureDerHeader sig = true)
    : 8 ≤ sig.length := by
  simp only [isValidSignatureDerHeader, Bool.and_eq_true, decide_eq_true_eq] at header
  exact header.1.1.1

theorem readSignatureEncoding_eq (sig : Bytes)
    : readSignatureEncoding sig = some (isValidSignatureEncoding sig) := by
  rw [readSignatureEncoding, isValidSignatureEncoding, readDerHeader_eq]
  cases header : isValidSignatureDerHeader sig with
  | false => rfl
  | true =>
    have long := header_long header
    rw [if_pos rfl, readRInteger_eq long, Bool.true_and]
    cases found : signatureRIntegerSOffset sig with
    | none => rfl
    | some startS =>
      have inside := (offset_inside long found).2
      rw [Option.elim_some, readAt_eq (by omega), readAt_eq (by omega), readAt_eq (by omega)]
      simp only [apply_ite some]
      by_cases whole : startS + (sig.getD (startS + 1) 0).toNat + 2 ≠ sig.length
      · simp only [if_pos whole]
      · simp only [if_neg whole]
        rw [readPadding_eq (by omega)]

-- The two sides

theorem strictInteger_iff (bytes : Bytes)
    : StrictInteger bytes ↔ bytes.length ≠ 0 ∧ bytes.getD 0 0 &&& 0x80 = 0 ∧
      ¬ (bytes.length > 1 ∧ bytes.getD 0 0 = 0 ∧ bytes.getD 1 0 &&& 0x80 = 0) := by
  match bytes with
  | [] => simp [StrictInteger]
  | [first] => simp [StrictInteger]
  | first :: second :: rest => simp [StrictInteger]

theorem isValidSignatureEncoding_parts {a b c d u v : UInt8} {r s : Bytes}
    (lenR : d.toNat = r.length) (more : s ≠ [])
    : isValidSignatureEncoding (a :: b :: c :: d :: (r ++ u :: v :: s)) = true ↔
      StrictInteger r ∧ StrictInteger s ∧ r.length + s.length + 6 ≤ 72 ∧ a = 0x30 ∧
        b.toNat = r.length + s.length + 4 ∧ c = 0x02 ∧ u = 0x02 ∧ v.toNat = s.length := by
  generalize whole : a :: b :: c :: d :: (r ++ u :: v :: s) = sig
  have size : sig.length = r.length + s.length + 6 := by
    rw [← whole]
    simp
    omega
  have inR {i : Nat} (inside : i < r.length) : sig.getD (4 + i) 0 = r.getD i 0 := by
    rw [← whole, Nat.add_comm]
    simp [List.getElem?_append_left inside]
  have behindR (i : Nat) : sig.getD (r.length + 4 + i) 0 = (u :: v :: s).getD i 0 := by
    rw [← whole, Nat.add_right_comm]
    simp [List.getElem?_append_right (Nat.le_add_right r.length i)]
  have front : sig.getD 0 0 = a ∧ sig.getD 1 0 = b ∧ sig.getD 2 0 = c ∧ sig.getD 3 0 = d := by
    rw [← whole]
    exact ⟨rfl, rfl, rfl, rfl⟩
  have sPositive := List.length_pos_iff.mpr more
  obtain ⟨at0, at1, at2, at3⟩ := front
  have offset : signatureRIntegerSOffset sig =
      if c = 0x02 ∧ (r.length ≠ 0 ∧ r.getD 0 0 &&& 0x80 = 0 ∧
        ¬ (r.length > 1 ∧ r.getD 0 0 = 0 ∧ r.getD 1 0 &&& 0x80 = 0)) then some (r.length + 4)
      else none := by
    rw [signatureRIntegerSOffset, size, at2, at3, lenR]
    clear whole at0 at1 at2 at3 behindR
    rcases Nat.lt_trichotomy r.length 1 with none | one | long
    · simp [Nat.lt_one_iff.mp none]
    · rw [show sig.getD 4 0 = r.getD 0 0 from @inR 0 (by omega)]
      clear inR
      grind
    · rw [show sig.getD 4 0 = r.getD 0 0 from @inR 0 (by omega),
        show sig.getD 5 0 = r.getD 1 0 from @inR 1 long]
      clear inR
      grind
  have tagS : sig.getD (r.length + 4) 0 = u := behindR 0
  have lenS : sig.getD (r.length + 4 + 1) 0 = v := behindR 1
  have topS : sig.getD (r.length + 4 + 2) 0 = s.getD 0 0 := behindR 2
  have nextS : sig.getD (r.length + 4 + 3) 0 = s.getD 1 0 := behindR 3
  rw [strictInteger_iff, strictInteger_iff, isValidSignatureEncoding, isValidSignatureDerHeader,
    offset, size, at0, at1]
  split_ifs with strict
  · simp only [tagS, lenS, topS, nextS]
    clear whole inR behindR offset at0 at1 at2 at3 tagS lenS topS nextS
    simp
    grind
  · clear whole inR behindR offset at0 at1 at2 at3 tagS lenS topS nextS
    grind

theorem exists_parts (valid : isValidSignatureEncoding sig = true)
    : ∃ a b c d u v r s, sig = a :: b :: c :: d :: (r ++ u :: v :: s) ∧
      d.toNat = r.length ∧ s ≠ [] := by
  rw [isValidSignatureEncoding, Bool.and_eq_true] at valid
  have long := header_long valid.1
  cases found : signatureRIntegerSOffset sig with
  | none => simp [found] at valid
  | some startS =>
    obtain ⟨rfl, inside⟩ := offset_inside long found
    match sig with
    | a :: b :: c :: d :: rest =>
      simp only [List.getD_cons_succ, List.getD_cons_zero, List.length_cons] at inside
      have room : 3 ≤ (rest.drop d.toNat).length := by
        rw [List.length_drop]
        omega
      match split : rest.drop d.toNat, room with
      | u :: v :: s, room =>
        refine ⟨a, b, c, d, u, v, rest.take d.toNat, s, ?_, ?_, ?_⟩
        · rw [← split, List.take_append_drop]
        · rw [List.length_take, Nat.min_eq_left (by omega)]
        · rintro rfl
          simp at room

/-- The filter accepts strict DER and nothing else, and every read of it is in range. -/
theorem isValidSignatureEncoding_strictDer (sig : Bytes)
    : (isValidSignatureEncoding sig = true ↔ StrictDer sig) ∧
      readSignatureEncoding sig = some (isValidSignatureEncoding sig) := by
  refine ⟨⟨fun valid => ?_, ?_⟩, readSignatureEncoding_eq sig⟩
  · obtain ⟨a, b, c, d, u, v, r, s, rfl, lenR, more⟩ := exists_parts valid
    obtain ⟨strictR, strictS, fits, rfl, total, rfl, rfl, lenS⟩ :=
      (isValidSignatureEncoding_parts lenR more).mp valid
    refine ⟨r, s, strictR, strictS, fits, ?_⟩
    rw [derInteger, derInteger, ← total, ← lenR, ← lenS]
    simp
  · rintro ⟨r, s, strictR, strictS, fits, rfl⟩
    have byte {n : Nat} (small : n ≤ 72) : (UInt8.ofNat n).toNat = n := by
      rw [UInt8.toNat_ofNat']
      omega
    have more : s ≠ [] := by
      rintro rfl
      exact strictS
    refine (isValidSignatureEncoding_parts (byte (by omega)) more).mpr ?_
    exact ⟨strictR, strictS, fits, rfl, byte (by omega), rfl, rfl, byte (by omega)⟩

/-- With the byte that names what is signed behind it, strict DER is refused. -/
theorem isValidSignatureEncoding_not_hashType
    : (∃ r s hashType, StrictInteger r ∧ StrictInteger s ∧
        [0x30, 0x06, 0x02, 0x01, 0x01, 0x02, 0x01, 0x01, 0x01] =
          0x30 :: UInt8.ofNat (r.length + s.length + 4) :: (derInteger r ++ derInteger s) ++
            [hashType]) ∧
      isValidSignatureEncoding [0x30, 0x06, 0x02, 0x01, 0x01, 0x02, 0x01, 0x01, 0x01] = false :=
  ⟨⟨[1], [1], 1, rfl, rfl, rfl⟩, rfl⟩

end Z23.Script
