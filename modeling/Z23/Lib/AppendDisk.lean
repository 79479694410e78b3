import Mathlib.Data.List.Basic

/-!
A file with bytes that survive a crash and byte writes that may not: a crash keeps the flushed bytes
and a prefix of the unflushed writes, in the order in which they were made.
-/

namespace Z23.Lib.AppendDisk

/-- One byte at its place; a gap before it is filled with zeros. -/
def put (file : List UInt8) (write : Nat × UInt8) : List UInt8 :=
  if write.1 < file.length then file.set write.1 write.2
  else file ++ List.replicate (write.1 - file.length) 0 ++ [write.2]

structure Disk where
  durable : List UInt8
  pending : List (Nat × UInt8)

inductive IoOp where
  | write (bytes : List UInt8) (pos : Nat)
  | flush

/-- Whether an operation was done, or after how many bytes of it it failed. -/
inductive IoResult where
  | done
  | failed (part : Nat)

def byteWrites (bytes : List UInt8) (pos : Nat) : List (Nat × UInt8) :=
  bytes.zipIdx pos |>.map Prod.swap

namespace Disk

/-- What reads see. -/
def contents (d : Disk) : List UInt8 := d.pending.foldl put d.durable

/-- What is left after a crash that the first `kept` unflushed bytes survive. -/
def crash (d : Disk) (kept : Nat) : List UInt8 := (d.pending.take kept).foldl put d.durable

def apply (d : Disk) : IoOp → Disk
  | .write bytes pos => { d with pending := d.pending ++ byteWrites bytes pos }
  | .flush => ⟨d.contents, []⟩

/-- An operation that fails after a part of its bytes: a write has made them pending, a flush has
made them durable. -/
def applyPart (d : Disk) (part : Nat) : IoOp → Disk
  | .write bytes pos => { d with pending := d.pending ++ (byteWrites bytes pos).take part }
  | .flush => ⟨d.crash part, d.pending.drop part⟩

/-- Operations one after the other, up to the first that fails. -/
def run : List IoOp → List IoResult → Disk → Disk × Bool
  | [], _, d => (d, true)
  | op :: ops, results, d =>
    match results.headD .done with
    | .done => run ops results.tail (d.apply op)
    | .failed part => (d.applyPart part op, false)

end Disk

theorem Disk.eq_of_flushed {d : Disk} (flushed : d.pending = []) : d = ⟨d.contents, []⟩ := by
  cases d
  cases flushed
  rfl

-- Files that grow by one piece

theorem byteWrites_append (front back : List UInt8) (pos : Nat)
    : byteWrites (front ++ back) pos
        = byteWrites front pos ++ byteWrites back (pos + front.length) := by
  rw [byteWrites, List.zipIdx_append, List.map_append]
  rfl

theorem byteWrites_split (bytes : List UInt8) (pos count : Nat)
    : (byteWrites bytes pos).take count = byteWrites (bytes.take count) pos
        ∧ (byteWrites bytes pos).drop count
          = byteWrites (bytes.drop count) (pos + (bytes.take count).length) := by
  have whole := byteWrites_append (bytes.take count) (bytes.drop count) pos
  rw [List.take_append_drop] at whole
  have front : (byteWrites bytes pos).take count = byteWrites (bytes.take count) pos := by
    apply List.ext_getElem?
    intro index
    simp only [byteWrites, List.getElem?_take, List.getElem?_map, List.getElem?_zipIdx]
    split <;> rfl
  refine ⟨front, ?_⟩
  have parts := List.take_append_drop count (byteWrites bytes pos)
  rw [front] at parts
  conv at parts => rhs; rw [whole]
  exact List.append_cancel_left parts

/-- Writes at the end of a file append. -/
theorem foldl_put_byteWrites (bytes file : List UInt8)
    : (byteWrites bytes file.length).foldl put file = file ++ bytes := by
  induction bytes generalizing file with
  | nil => exact (List.append_nil file).symm
  | cons byte bytes ih =>
    have first : put file (file.length, byte) = file ++ [byte] := by
      simp [put]
    have later := ih (file ++ [byte])
    rw [List.length_append, List.length_singleton, List.append_assoc] at later
    rw [byteWrites, List.zipIdx_cons, List.map_cons, List.foldl_cons]
    change List.foldl put (put file (file.length, byte)) _ = _
    rw [first]
    exact later

/-- The disk holds a base and a part of a piece behind it: some of the part durable, the rest
pending in order. -/
structure Growing (base piece : List UInt8) (part : Nat) (d : Disk) : Prop where
  inside : part ≤ piece.length
  split
    : ∃ front rest, front ++ rest = piece.take part ∧ d.durable = base ++ front
        ∧ d.pending = byteWrites rest (base ++ front).length

theorem Growing.start (base piece : List UInt8) : Growing base piece 0 ⟨base, []⟩ where
  inside := Nat.zero_le _
  split := ⟨[], [], rfl, (List.append_nil base).symm, rfl⟩

section

variable {base piece : List UInt8} {part : Nat} {d : Disk}

section

variable (growing : Growing base piece part d)
include growing

/-- A crash leaves the base and a part of the piece. -/
theorem Growing.crash (kept : Nat) : ∃ left ≤ part, d.crash kept = base ++ piece.take left := by
  obtain ⟨inside, front, rest, parts, durable, pending⟩ := growing
  have length : front.length + rest.length = part := by
    rw [← List.length_append, parts, List.length_take, Nat.min_eq_left inside]
  refine ⟨front.length + min kept rest.length, by omega, ?_⟩
  have taken : piece.take (front.length + min kept rest.length) = front ++ rest.take kept := by
    rw [← Nat.min_eq_left (show front.length + min kept rest.length ≤ part by omega),
      ← List.take_take, ← parts, List.take_length_add_append, ← List.take_eq_take_min]
  rw [Disk.crash, pending, (byteWrites_split _ _ _).1, durable, foldl_put_byteWrites, taken,
    List.append_assoc]

theorem Growing.contents : d.contents = base ++ piece.take part := by
  obtain ⟨_, front, rest, parts, durable, pending⟩ := growing
  rw [Disk.contents, pending, durable, foldl_put_byteWrites, List.append_assoc, parts]

/-- The next bytes of the piece are written behind the part that is there. -/
theorem Growing.write {bytes : List UInt8} (next : bytes <+: piece.drop part)
    : Growing base piece (part + bytes.length)
        (d.apply (.write bytes (base.length + part))) := by
  obtain ⟨inside, front, rest, parts, durable, pending⟩ := growing
  obtain ⟨others, whole⟩ := next
  have longer : part + bytes.length ≤ piece.length := by
    have length := congrArg List.length whole
    rw [List.length_append, List.length_drop] at length
    omega
  have taken : piece.take (part + bytes.length) = piece.take part ++ bytes := by
    rw [List.take_add, ← whole, List.take_left]
  have position : base.length + part = (base ++ front).length + rest.length := by
    rw [List.length_append, Nat.add_assoc, ← List.length_append, parts, List.length_take,
      Nat.min_eq_left inside]
  refine ⟨longer, front, rest ++ bytes, ?_, durable, ?_⟩
  · rw [taken, ← List.append_assoc, parts]
  · rw [byteWrites_append, ← position, ← pending]
    rfl

theorem Growing.flush : Growing base piece part (d.apply .flush) where
  inside := growing.inside
  split := ⟨piece.take part, [], List.append_nil _, growing.contents, rfl⟩

/-- A write that fails leaves a shorter part of the piece, a flush that fails the same. -/
theorem Growing.applyPart {op : IoOp} (count : Nat)
    (next : ∀ bytes pos, op = .write bytes pos → pos = base.length + part ∧ bytes <+: piece.drop part)
    : ∃ part', part ≤ part' ∧ Growing base piece part' (d.applyPart count op) := by
  cases op with
  | write bytes pos =>
    obtain ⟨rfl, follows⟩ := next bytes pos rfl
    have written := growing.write ((List.take_prefix count bytes).trans follows)
    refine ⟨part + (bytes.take count).length, Nat.le_add_right _ _, ?_⟩
    rw [Disk.applyPart, (byteWrites_split _ _ _).1]
    exact written
  | flush =>
    obtain ⟨inside, front, rest, parts, durable, pending⟩ := growing
    refine ⟨part, Nat.le_refl _, inside, front ++ rest.take count, rest.drop count, ?_, ?_, ?_⟩
    · rw [List.append_assoc, List.take_append_drop, parts]
    · change d.crash count = _
      rw [Disk.crash, pending, (byteWrites_split _ _ _).1, durable, foldl_put_byteWrites,
        List.append_assoc]
    · change d.pending.drop count = _
      rw [pending, (byteWrites_split _ _ _).2, ← List.append_assoc, ← List.length_append]

end

/-- Operations that write a piece behind a base, from a part of it on, in order. -/
def Continues (base piece : List UInt8) : Nat → List IoOp → Prop
  | _, [] => True
  | part, .flush :: ops => Continues base piece part ops
  | part, .write bytes pos :: ops =>
    pos = base.length + part ∧ bytes <+: piece.drop part
      ∧ Continues base piece (part + bytes.length) ops

def advance : Nat → List IoOp → Nat
  | part, [] => part
  | part, .flush :: ops => advance part ops
  | part, .write bytes _ :: ops => advance (part + bytes.length) ops

variable {ops : List IoOp}

theorem Growing.foldl (growing : Growing base piece part d)
    (continues : Continues base piece part ops)
    : Growing base piece (advance part ops) (ops.foldl Disk.apply d) := by
  induction ops generalizing part d with
  | nil => exact growing
  | cons op ops ih =>
    cases op with
    | flush => exact ih growing.flush continues
    | write bytes pos =>
      obtain ⟨rfl, next, continues⟩ := continues
      exact ih (growing.write next) continues

/-- A write that is left out when it has no bytes. -/
theorem continues_optional {bytes : List UInt8} {pos : Nat} (place : pos = base.length + part)
    (next : bytes <+: piece.drop part) (continues : Continues base piece (part + bytes.length) ops)
    : Continues base piece part ((if bytes = [] then [] else [.write bytes pos]) ++ ops)
        ∧ advance part ((if bytes = [] then [] else [.write bytes pos]) ++ ops)
          = advance (part + bytes.length) ops := by
  by_cases empty : bytes = []
  · rw [empty] at continues
    rw [if_pos empty, empty]
    exact ⟨continues, rfl⟩
  · rw [if_neg empty]
    exact ⟨⟨place, next, continues⟩, rfl⟩

theorem Continues.take (continues : Continues base piece part ops) (count : Nat)
    : Continues base piece part (ops.take count) := by
  induction ops generalizing part count with
  | nil =>
    rw [List.take_nil]
    trivial
  | cons op ops ih =>
    cases count with
    | zero => trivial
    | succ count =>
      cases op with
      | flush => exact ih continues count
      | write bytes pos => exact ⟨continues.1, continues.2.1, ih continues.2.2 count⟩

/-- However the operations end, the disk holds the base and a part of the piece. -/
theorem Growing.run (growing : Growing base piece part d)
    (continues : Continues base piece part ops) (results : List IoResult)
    : ∃ part', Growing base piece part' (Disk.run ops results d).1 := by
  induction ops generalizing part d results with
  | nil => exact ⟨part, growing⟩
  | cons op ops ih =>
    rw [Disk.run]
    cases results.headD .done with
    | done =>
      cases op with
      | flush => exact ih growing.flush continues results.tail
      | write bytes pos =>
        obtain ⟨rfl, next, continues⟩ := continues
        exact ih (growing.write next) continues results.tail
    | failed count =>
      have next : ∀ bytes pos, op = .write bytes pos →
          pos = base.length + part ∧ bytes <+: piece.drop part := by
        rintro bytes pos rfl
        exact ⟨continues.1, continues.2.1⟩
      obtain ⟨part', -, held⟩ := growing.applyPart count next
      exact ⟨part', held⟩

theorem Disk.run_nil (ops : List IoOp) (d : Disk) : (Disk.run ops [] d).2 = true := by
  induction ops generalizing d with
  | nil => rfl
  | cons op ops ih => exact ih (d.apply op)

theorem Disk.run_done (results : List IoResult) (done : (Disk.run ops results d).2 = true)
    : (Disk.run ops results d).1 = ops.foldl Disk.apply d := by
  induction ops generalizing d results with
  | nil => rfl
  | cons op ops ih =>
    rw [Disk.run] at done ⊢
    cases result : results.headD .done with
    | done =>
      rw [result] at done
      exact ih results.tail done
    | failed count =>
      rw [result] at done
      cases done

end

end Z23.Lib.AppendDisk
