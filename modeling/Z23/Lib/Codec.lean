import Z23.Lib.Bytes

/-!
Byte strings of a fixed length, and readers that get back the values a writer is meant for.
-/

namespace Z23.Lib.Codec

open Z23.Lib.Bytes

/-- Exactly `size` bytes. -/
structure Blob (size : Nat) where
  data : List UInt8
  size_data : data.length = size
deriving DecidableEq, Repr

def Blob.zero (size : Nat) : Blob size := ⟨List.replicate size 0, List.length_replicate⟩

theorem Blob.ext {size : Nat} {a b : Blob size} (same : a.data = b.data) : a = b := by
  cases a
  cases b
  cases same
  rfl

def readBlob (size : Nat) : Reader (Blob size) := fun bytes =>
  match h : takeBytes size bytes with
  | none => none
  | some (front, rest) => some (⟨front, takeBytes_length h⟩, rest)

theorem readBlob_data (size : Nat) : ReadsBack (readBlob size) Blob.data := by
  intro blob rest
  have taken := takeBytes_append blob.size_data rest
  rw [readBlob]
  split
  · simp_all
  · rename_i front tail found
    rw [taken] at found
    cases found
    rfl

section

variable {β : Type}

/-- The reader gets back what the writer wrote of the valid values. -/
def ReadsBackOn (valid : β → Prop) (read : Reader β) (write : β → List UInt8) : Prop :=
  ∀ value, valid value → ∀ rest, read (write value ++ rest) = some (value, rest)

variable {read : Reader β} {γ : Type}

/-- What goes on after a value was read back. -/
theorem ReadsBack.bind {write : β → List UInt8} (back : ReadsBack read write) (value : β)
    (rest : List UInt8) (next : β × List UInt8 → Option γ)
    : (read (write value ++ rest) >>= next) = next (value, rest) := by
  rw [back value rest]
  rfl

theorem ReadsBack.on {write : β → List UInt8} (back : ReadsBack read write) (valid : β → Prop)
    : ReadsBackOn valid read write :=
  fun value _ rest => back value rest

variable {values : List β}

/-- Many values come back, each as the reader gives it. -/
theorem readMany_map {read : Reader γ} {write : β → List UInt8} {back : β → γ}
    (reads : ∀ value ∈ values, ∀ rest, read (write value ++ rest) = some (back value, rest))
    (rest : List UInt8)
    : readMany read values.length (values.flatMap write ++ rest)
      = some (values.map back, rest) := by
  induction values with
  | nil => rfl
  | cons value values ih =>
    have head := reads value List.mem_cons_self
    have tail := ih (List.forall_mem_cons.mp reads).2
    rw [List.flatMap_cons, List.append_assoc, List.length_cons, readMany, head]
    simp only [Option.bind_eq_bind, Option.bind_some, tail, List.map_cons]

theorem readMany_on {valid : β → Prop} {write : β → List UInt8}
    (back : ReadsBackOn valid read write) (all : ∀ value ∈ values, valid value) (rest : List UInt8)
    : readMany read values.length (values.flatMap write ++ rest) = some (values, rest) := by
  have reads : ∀ value ∈ values, ∀ rest, read (write value ++ rest) = some (id value, rest) :=
    fun value member => back value (all value member)
  rw [readMany_map reads, List.map_id]

/-- What the reader takes off the front is what the writer writes. -/
def ReadsOnly (read : Reader β) (write : β → List UInt8) : Prop :=
  ∀ {bytes value rest}, read bytes = some (value, rest) → bytes = write value ++ rest

theorem bind_read_iff {ran : Option (β × List UInt8)} {next : β × List UInt8 → Option γ} {result : γ}
    : (ran >>= next) = some result
        ↔ ∃ value rest, ran = some (value, rest) ∧ next (value, rest) = some result := by
  rw [Option.bind_eq_bind, Option.bind_eq_some_iff, Prod.exists]

theorem bind_read {next : β × List UInt8 → Option γ} {bytes : List UInt8} {result : γ}
    (ran : (read bytes >>= next) = some result)
    : ∃ value rest, read bytes = some (value, rest) ∧ next (value, rest) = some result :=
  bind_read_iff.mp ran

theorem takeBytes_only {count : Nat} {bytes front rest : List UInt8}
    (taken : takeBytes count bytes = some (front, rest)) : bytes = front ++ rest := by
  rw [takeBytes] at taken
  split at taken
  · cases taken
  · cases taken
    exact (List.take_append_drop count bytes).symm

theorem readBlob_only (size : Nat) : ReadsOnly (readBlob size) Blob.data := by
  intro bytes blob rest read
  rw [readBlob] at read
  split at read
  · cases read
  · rename_i front tail taken
    cases read
    exact takeBytes_only taken

theorem readMany_only {write : β → List UInt8} (only : ReadsOnly read write) {count : Nat}
    {bytes rest : List UInt8} (done : readMany read count bytes = some (values, rest))
    : values.length = count ∧ bytes = values.flatMap write ++ rest := by
  induction count generalizing bytes values with
  | zero =>
    cases done
    exact ⟨rfl, rfl⟩
  | succ count ih =>
    rw [readMany] at done
    obtain ⟨value, tail, first, done⟩ := bind_read done
    obtain ⟨values, last, others, done⟩ := bind_read done
    cases done
    obtain ⟨length, split⟩ := ih others
    refine ⟨congrArg (· + 1) length, ?_⟩
    rw [only first, split, List.flatMap_cons, List.append_assoc]

/-- What is written of a valid value can be told from what comes after it. -/
def Delimits (valid : β → Prop) (write : β → List UInt8) : Prop :=
  ∀ a b : β, ∀ aRest bRest : List UInt8, valid a → valid b →
    write a ++ aRest = write b ++ bRest → a = b ∧ aRest = bRest

theorem ReadsBackOn.delimits {valid : β → Prop} {write : β → List UInt8}
    (back : ReadsBackOn valid read write) : Delimits valid write := by
  intro a b aRest bRest aValid bValid same
  have read := back a aValid aRest
  rw [same, back b bValid bRest] at read
  obtain ⟨value, rest⟩ := Prod.mk.inj (Option.some.inj read)
  exact ⟨value.symm, rest.symm⟩

theorem ReadsBack.append_inj {write : β → List UInt8} (back : ReadsBack read write) {a b : β}
    {aRest bRest : List UInt8} (same : write a ++ aRest = write b ++ bRest) : a = b ∧ aRest = bRest :=
  (ReadsBack.on back fun _ => True).delimits a b aRest bRest trivial trivial same

/-- Delimited values are told apart one after the other. -/
theorem Delimits.flatMap_inj {valid : β → Prop} {write : β → List UInt8}
    (delimits : Delimits valid write) (long : ∀ value, write value ≠ []) {xs ys : List β}
    (xsValid : ∀ x ∈ xs, valid x) (ysValid : ∀ y ∈ ys, valid y)
    (same : xs.flatMap write = ys.flatMap write) : xs = ys := by
  induction xs generalizing ys with
  | nil =>
    cases ys with
    | nil => rfl
    | cons y ys =>
      rw [List.flatMap_nil, List.flatMap_cons] at same
      exact absurd (List.append_eq_nil_iff.mp same.symm).1 (long y)
  | cons x xs ih =>
    cases ys with
    | nil =>
      rw [List.flatMap_nil, List.flatMap_cons] at same
      exact absurd (List.append_eq_nil_iff.mp same).1 (long x)
    | cons y ys =>
      rw [List.flatMap_cons, List.flatMap_cons] at same
      obtain ⟨head, tail⟩ := delimits x y _ _ (xsValid x List.mem_cons_self)
        (ysValid y List.mem_cons_self) same
      rw [head, ih (List.forall_mem_cons.mp xsValid).2
        (List.forall_mem_cons.mp ysValid).2 tail]

/-- The same where a list may be missing. -/
theorem Delimits.map_flatMap_inj {valid : β → Prop} {write : β → List UInt8}
    (delimits : Delimits valid write) (long : ∀ value, write value ≠ []) {a b : Option (List β)}
    (aValid : ∀ xs, a = some xs → ∀ x ∈ xs, valid x)
    (bValid : ∀ ys, b = some ys → ∀ y ∈ ys, valid y)
    (same : (a.map fun xs => xs.flatMap write) = b.map fun ys => ys.flatMap write) : a = b := by
  cases a with
  | none =>
    cases b with
    | none => rfl
    | some ys => cases same
  | some xs =>
    cases b with
    | none => cases same
    | some ys =>
      exact congrArg some (delimits.flatMap_inj long (aValid xs rfl) (bValid ys rfl)
        (Option.some.inj same))

/-- A reader that succeeds only where another does, with the same result. -/
def ReadsWithin (strict read : Reader β) : Prop :=
  ∀ {bytes value rest}, strict bytes = some (value, rest) → read bytes = some (value, rest)

theorem readMany_within {strict : Reader β} (within : ReadsWithin strict read) {count : Nat}
    {bytes rest : List UInt8} (done : readMany strict count bytes = some (values, rest))
    : readMany read count bytes = some (values, rest) := by
  induction count generalizing bytes values with
  | zero => exact done
  | succ count ih =>
    rw [readMany] at done ⊢
    obtain ⟨value, tail, first, done⟩ := bind_read done
    obtain ⟨values, last, others, done⟩ := bind_read done
    cases done
    rw [within first]
    simp only [Option.bind_eq_bind, Option.bind_some, ih others]

variable {least : Nat}

/-- Values of at least `least` bytes each fill at least that many times their number. -/
theorem length_flatMap_ge {write : β → List UInt8}
    (long : ∀ value ∈ values, least ≤ (write value).length)
    : values.length * least ≤ (values.flatMap write).length := by
  induction values with
  | nil => simp
  | cons value values ih =>
    have head := long value List.mem_cons_self
    have tail := ih (List.forall_mem_cons.mp long).2
    rw [List.flatMap_cons, List.length_append, List.length_cons, Nat.succ_mul]
    omega

/-- A reader that succeeds has taken at least that many bytes. -/
def Consumes (least : Nat) (read : Reader β) : Prop :=
  ∀ bytes value rest, read bytes = some (value, rest) → least + rest.length ≤ bytes.length

theorem takeBytes_consumes (count : Nat) : Consumes count (takeBytes count) := by
  intro bytes front rest taken
  rw [takeBytes_only taken, List.length_append, takeBytes_length taken]

/-- A reader takes what the writer writes of its value. -/
theorem ReadsOnly.consumes {write : β → List UInt8} (only : ReadsOnly read write)
    (long : ∀ value, least ≤ (write value).length)
    : Consumes least read := by
  intro bytes value rest done
  rw [only done, List.length_append]
  exact Nat.add_le_add_right (long value) _

/-- Reading many values takes at least so often what one takes. -/
theorem readMany_consumes (consumes : Consumes least read) (count : Nat)
    : Consumes (count * least) (readMany read count) := by
  induction count with
  | zero =>
    intro bytes values rest done
    cases done
    rw [Nat.zero_mul, Nat.zero_add]
  | succ count ih =>
    intro bytes values rest done
    rw [readMany] at done
    obtain ⟨value, tail, first, done⟩ := bind_read done
    obtain ⟨values, last, others, done⟩ := bind_read done
    cases done
    have before := consumes bytes value tail first
    have after := ih tail values rest others
    rw [Nat.succ_mul]
    omega

end

end Z23.Lib.Codec
