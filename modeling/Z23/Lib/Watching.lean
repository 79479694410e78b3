import Mathlib.Tactic.Basic
import Z23.Lib.Failing

/-!
Programs that may fail and are watched while they run: what they did stays known when they fail.
Forgetting what was seen gives back the program.
-/

namespace Z23.Lib.Watching

open Z23.Lib.Failing

/-- What a run did, in order, and how it ended. -/
structure Watched (η ε α : Type) where
  seen : List η
  result : Except ε α

variable {η ε α β : Type}

namespace Watched

/-- What follows is seen only when the first part returns. -/
def seenAfter (next : α → Watched η ε β) : Except ε α → List η
  | .ok value => (next value).seen
  | .error _ => []

instance : Monad (Watched η ε) where
  pure value := { seen := [], result := .ok value }
  bind first next := {
    seen := first.seen ++ seenAfter next first.result
    result := first.result >>= fun value => (next value).result }

/-- A part that does nothing to see. -/
def quietly (run : Except ε α) : Watched η ε α where
  seen := []
  result := run

def see (event : η) : Watched η ε Unit where
  seen := [event]
  result := .ok ()

@[simp] theorem result_quietly (run : Except ε α)
    : (quietly run : Watched η ε α).result = run := rfl

theorem result_bind (first : Watched η ε α) (next : α → Watched η ε β)
    : (first >>= next).result = first.result >>= fun value => (next value).result := rfl

theorem seen_bind (first : Watched η ε α) (next : α → Watched η ε β)
    : (first >>= next).seen = first.seen ++ seenAfter next first.result := rfl

theorem result_ite {p : Prop} [Decidable p] (yes no : Watched η ε α)
    : (if p then yes else no).result = if p then yes.result else no.result := by
  split
  · rfl
  · rfl

end Watched

open Watched

-- What is only seen

/-- Nothing but such events is seen, even in a run that fails. -/
def OnlySees (run : Watched η ε α) (allowed : η → Prop) : Prop :=
  ∀ event ∈ run.seen, allowed event

variable {allowed : η → Prop}

theorem OnlySees.pure (value : α) : OnlySees (pure value : Watched η ε α) allowed :=
  fun _ member => (List.not_mem_nil member).elim

theorem OnlySees.quietly (run : Except ε α) : OnlySees (quietly run : Watched η ε α) allowed :=
  fun _ member => (List.not_mem_nil member).elim

theorem OnlySees.see {event : η} (h : allowed event)
    : OnlySees (see event : Watched η ε Unit) allowed := by
  intro other member
  rw [List.mem_singleton.mp member]
  exact h

theorem OnlySees.mono {wider : η → Prop} {run : Watched η ε α} (sees : OnlySees run allowed)
    (widens : ∀ event, allowed event → wider event)
    : OnlySees run wider :=
  fun event member => widens event (sees event member)

theorem OnlySees.bind {first : Watched η ε α} {next : α → Watched η ε β}
    (sees : OnlySees first allowed)
    (rest : ∀ value, first.result = .ok value → OnlySees (next value) allowed)
    : OnlySees (first >>= next) allowed := by
  intro event member
  rcases List.mem_append.mp member with early | late
  · exact sees event early
  · cases returned : first.result with
    | error failure =>
      rw [returned] at late
      exact (List.not_mem_nil late).elim
    | ok value =>
      rw [returned] at late
      exact rest value returned event late

theorem OnlySees.check {passes : Bool} {failure : ε} {next : Unit → Watched η ε β}
    (rest : passes = true → OnlySees (next ()) allowed)
    : OnlySees (Watched.quietly (require passes failure) >>= next) allowed := by
  refine OnlySees.bind (OnlySees.quietly _) fun value returned => ?_
  cases passes with
  | false => cases returned
  | true => exact rest rfl

theorem OnlySees.ite {p : Prop} [Decidable p] {yes no : Watched η ε α}
    (seesYes : p → OnlySees yes allowed) (seesNo : ¬ p → OnlySees no allowed)
    : OnlySees (if p then yes else no) allowed := by
  split
  · next holds => exact seesYes holds
  · next fails => exact seesNo fails

-- How often something is seen

/-- How many of the events that a run shows are of a kind. -/
def tally (kind : η → Bool) (run : Watched η ε α) : Nat := run.seen.countP kind

variable {kind : η → Bool}

theorem tally_bind_le {first : Watched η ε α} {next : α → Watched η ε β} {early late : Nat}
    (sees : tally kind first ≤ early)
    (rest : ∀ value, first.result = .ok value → tally kind (next value) ≤ late)
    : tally kind (first >>= next) ≤ early + late := by
  have later : (seenAfter next first.result).countP kind ≤ late := by
    cases returned : first.result with
    | error failure => exact Nat.zero_le _
    | ok value => exact rest value returned
  simp only [tally, seen_bind, List.countP_append]
  exact Nat.add_le_add sees later

theorem tally_eq_zero {run : Watched η ε α} (sees : OnlySees run fun event => kind event = false)
    : tally kind run = 0 := by
  apply List.countP_eq_zero.mpr
  intro event member
  simp [sees event member]

end Z23.Lib.Watching
