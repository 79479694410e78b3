import Mathlib.Tactic.Basic

/-!
Programs that may fail: two runs of which one makes more checks, so that whatever the strict run
returns the lax run returns too; and what a run ensures of the value it returns.
-/

namespace Z23.Lib.Failing

variable {ε α β : Type}

/-- The lax run returns what the strict run returns. -/
def Relaxes (strict lax : Except ε α) : Prop :=
  ∀ value, strict = .ok value → lax = .ok value

/-- A check. -/
def require (passes : Bool) (failure : ε) : Except ε Unit :=
  if passes then .ok () else .error failure

theorem Relaxes.refl (run : Except ε α) : Relaxes run run := fun _ same => same

variable {strict : Except ε α}

theorem Relaxes.bind {lax : Except ε α} {next more : α → Except ε β} (first : Relaxes strict lax)
    (rest : ∀ value, Relaxes (next value) (more value))
    : Relaxes (strict >>= next) (lax >>= more) := by
  intro result same
  cases run : strict with
  | error failure =>
    rw [run] at same
    cases same
  | ok value =>
    rw [first value run]
    rw [run] at same
    exact rest value result same

/-- A first part that only the strict run has. -/
theorem Relaxes.skip {next : α → Except ε β} {lax : Except ε β}
    (rest : ∀ value, Relaxes (next value) lax)
    : Relaxes (strict >>= next) lax := by
  intro result same
  cases run : strict with
  | error failure =>
    rw [run] at same
    cases same
  | ok value =>
    rw [run] at same
    exact rest value result same

theorem Relaxes.ite {p : Prop} [Decidable p] {lax strictElse laxElse : Except ε α}
    (yes : Relaxes strict lax) (no : Relaxes strictElse laxElse)
    : Relaxes (if p then strict else strictElse) (if p then lax else laxElse) := by
  split
  · exact yes
  · exact no

theorem Relaxes.require {strict lax : Bool} (weaker : strict = true → lax = true)
    (failure other : ε)
    : Relaxes (Failing.require strict failure) (Failing.require lax other) := by
  intro value same
  cases strict with
  | false => cases same
  | true =>
    rw [weaker rfl]
    exact same

-- How a run fails

variable {failure : ε}

theorem bind_eq_error_iff {run : Except ε α} {next : α → Except ε β}
    : run >>= next = .error failure ↔
        run = .error failure ∨ ∃ value, run = .ok value ∧ next value = .error failure := by
  cases run with
  | error other =>
    have stops : (Except.error other >>= next) = .error other := rfl
    simp [stops]
  | ok value =>
    have goes : (Except.ok value >>= next) = next value := rfl
    simp [goes]

variable {passes : Bool}

theorem require_eq_error_iff {other : ε}
    : require passes failure = .error other ↔ passes = false ∧ failure = other := by
  cases passes with
  | false => simp [require]
  | true => simp [require]

theorem require_bind (pass : passes = true) (failure : ε) (next : Unit → Except ε α)
    : (require passes failure >>= next) = next () := by
  rw [pass]
  rfl

theorem require_bind_error (refuse : passes = false) (failure : ε) (next : Unit → Except ε α)
    : (require passes failure >>= next) = .error failure := by
  rw [refuse]
  rfl

theorem bind_ok {run : Except ε α} {value : α} (returned : run = .ok value)
    (next : α → Except ε β) : (run >>= next) = next value := by
  rw [returned]
  rfl

-- What a run ensures

/-- Whatever the run returns has the property. -/
def Ensures (run : Except ε α) (holds : α → Prop) : Prop :=
  ∀ value, run = .ok value → holds value

theorem Ensures.ok {holds : α → Prop} {value : α} (h : holds value)
    : Ensures (.ok value : Except ε α) holds := by
  intro returned same
  cases same
  exact h

theorem Ensures.error {holds : α → Prop} (failure : ε)
    : Ensures (.error failure : Except ε α) holds := by
  intro value same
  cases same

theorem Ensures.bind {run : Except ε α} {next : α → Except ε β} {holds : α → Prop}
    {after : β → Prop} (first : Ensures run holds)
    (rest : ∀ value, holds value → Ensures (next value) after)
    : Ensures (run >>= next) after := by
  intro result same
  cases returned : run with
  | error failure =>
    rw [returned] at same
    cases same
  | ok value =>
    rw [returned] at same
    exact rest value (first value returned) result same

theorem Ensures.skip {run : Except ε α} {next : α → Except ε β} {after : β → Prop}
    (rest : ∀ value, Ensures (next value) after)
    : Ensures (run >>= next) after :=
  Ensures.bind (fun _ _ => trivial) fun value _ => rest value

theorem Ensures.check {next : Unit → Except ε α} {holds : α → Prop}
    (rest : passes = true → Ensures (next ()) holds)
    : Ensures (Failing.require passes failure >>= next) holds := by
  cases passes with
  | false => exact Ensures.error failure
  | true => exact rest rfl

end Z23.Lib.Failing
