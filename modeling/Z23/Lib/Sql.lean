import Mathlib.Data.List.Basic

/-!
Dynamically typed column values and the three-valued logic of a WHERE clause.
-/

namespace Z23.Lib.Sql

inductive StorageClass where
  | null
  | integer
  | real
  | text
  | blob
deriving DecidableEq, Repr

/-- A stored value. A real is its bit pattern; a text is its bytes. -/
inductive Value where
  | null
  | integer (value : Int)
  | real (bits : UInt64)
  | text (bytes : List UInt8)
  | blob (bytes : List UInt8)
deriving DecidableEq, Repr

def Value.typeof : Value → StorageClass
  | .null => .null
  | .integer _ => .integer
  | .real _ => .real
  | .text _ => .text
  | .blob _ => .blob

/--
A truth value; `none` is unknown. It stands for NULL, and for an operand that is left open because
another operand decides the condition.
-/
abbrev Truth : Type := Option Bool

def or : Truth → Truth → Truth
  | some true, _ => some true
  | _, some true => some true
  | some false, some false => some false
  | _, _ => none

def and : Truth → Truth → Truth
  | some false, _ => some false
  | _, some false => some false
  | some true, some true => some true
  | _, _ => none

/-- `length(x) <> size`, for a blob. -/
def lengthNe (value : Value) (size : Nat) : Truth :=
  match value with
  | .blob bytes => some (bytes.length ≠ size)
  | _ => none

/-- `x <> y`, for two blobs. -/
def ne : Value → Value → Truth
  | .blob left, .blob right => some (left ≠ right)
  | _, _ => none

/-- `typeof(x) <> 'blob' OR length(x) <> size`. -/
def notBlobOf (size : Nat) (value : Value) : Truth :=
  or (some (value.typeof ≠ .blob)) (lengthNe value size)

def isNotNull (value : Value) : Truth := some (value ≠ .null)

/-- A row is selected when its condition is true, neither false nor unknown. -/
def holds (condition : Truth) : Bool := condition = some true

@[simp]
theorem or_some (left right : Bool) : or (some left) (some right) = some (left || right) := by
  cases left <;> cases right <;> rfl

@[simp]
theorem and_some (left right : Bool) : and (some left) (some right) = some (left && right) := by
  cases left <;> cases right <;> rfl

@[simp]
theorem or_true (right : Truth) : or (some true) right = some true := by
  cases right <;> rfl

@[simp]
theorem or_true_right (left : Truth) : or left (some true) = some true := by
  rcases left with - | left
  · rfl
  · cases left <;> rfl

/-- The type test decides for every value that is no blob, so the condition is never unknown. -/
theorem notBlobOf_cases (size : Nat) (value : Value)
    : (∃ bytes, value = .blob bytes ∧ bytes.length = size ∧ notBlobOf size value = some false)
        ∨ ((∀ bytes, value = .blob bytes → bytes.length ≠ size)
          ∧ notBlobOf size value = some true) := by
  cases value with
  | blob bytes =>
    rcases eq_or_ne bytes.length size with fits | different
    · exact .inl ⟨bytes, rfl, fits, by simp [notBlobOf, lengthNe, Value.typeof, fits]⟩
    · exact .inr ⟨by simpa using different,
        by simp [notBlobOf, lengthNe, Value.typeof, different]⟩
  | _ => simp [notBlobOf, Value.typeof]

end Z23.Lib.Sql
