import Mathlib.Data.List.Basic

/-!
Spans of a text by their two ends: runs of symbols of one kind, and the scan over such a run.
-/

namespace Z23.Lib.Spans

variable {α : Type}

/-- Every symbol from the first position up to the second is of the kind. -/
inductive Run (kind : α → Bool) (text : List α) : Nat → Nat → Prop where
  | refl (i : Nat) : Run kind text i i
  | cons {i j : Nat} {c : α} (symbol : text[i]? = some c) (matched : kind c = true)
      (rest : Run kind text (i + 1) j) : Run kind text i j

/-- No symbol of the kind stands at the position. -/
def Stops (kind : α → Bool) (text : List α) (i : Nat) : Prop :=
  ∀ c, text[i]? = some c → kind c = false

/-- The position a scan over the symbols of the kind comes to. -/
def skip (kind : α → Bool) (text : List α) (i : Nat) : Nat :=
  i + ((text.drop i).takeWhile kind).length

variable {kind : α → Bool} {text : List α} {i j k : Nat} {c : α}

theorem drop_of_getElem? (symbol : text[i]? = some c) : text.drop i = c :: text.drop (i + 1) := by
  obtain ⟨inside, rfl⟩ := List.getElem?_eq_some_iff.mp symbol
  exact List.drop_eq_getElem_cons inside

theorem getElem?_of_drop {rest : List α} (split : text.drop i = c :: rest) (step : Nat)
    : text[i + step]? = (c :: rest)[step]? := by
  rw [← split, List.getElem?_drop]

-- Runs

theorem Run.le (run : Run kind text i j) : i ≤ j := by
  induction run with
  | refl i => exact Nat.le_refl i
  | cons symbol matched rest ih => exact Nat.le_of_succ_le ih

theorem Run.trans (run : Run kind text i j) (next : Run kind text j k) : Run kind text i k := by
  induction run with
  | refl i => exact next
  | cons symbol matched rest ih => exact .cons symbol matched (ih next)

/-- A run that does not stop at once starts with a symbol of the kind. -/
theorem Run.head (run : Run kind text i j) (proper : i < j)
    : ∃ c, text[i]? = some c ∧ kind c = true ∧ Run kind text (i + 1) j := by
  cases run with
  | refl => exact absurd proper (Nat.lt_irrefl i)
  | cons symbol matched rest => exact ⟨_, symbol, matched, rest⟩

-- The scan

theorem skip_of_stops (stops : Stops kind text i) : skip kind text i = i := by
  unfold skip
  cases split : text.drop i with
  | nil => rfl
  | cons c rest =>
    have symbol : text[i]? = some c := getElem?_of_drop split 0
    rw [List.takeWhile_cons, stops c symbol]
    rfl

theorem skip_of_symbol (symbol : text[i]? = some c) (matched : kind c = true)
    : skip kind text i = skip kind text (i + 1) := by
  unfold skip
  rw [drop_of_getElem? symbol, List.takeWhile_cons, matched]
  simp only [if_true, List.length_cons]
  omega

theorem Run.skip_eq_skip (run : Run kind text i j) : skip kind text i = skip kind text j := by
  induction run with
  | refl i => rfl
  | cons symbol matched rest ih => rw [skip_of_symbol symbol matched, ih]

/-- A run that ends before another kind of symbol is all that the scan passes over. -/
theorem Run.skip_eq (run : Run kind text i j) (stops : Stops kind text j)
    : skip kind text i = j := by
  rw [run.skip_eq_skip, skip_of_stops stops]

theorem symbol_or_stops (kind : α → Bool) (text : List α) (i : Nat)
    : (∃ c, text[i]? = some c ∧ kind c = true) ∨ Stops kind text i := by
  cases symbol : text[i]? with
  | none =>
    right
    intro c present
    rw [symbol] at present
    cases present
  | some c =>
    cases matched : kind c with
    | true => exact .inl ⟨c, rfl, matched⟩
    | false =>
      right
      intro other present
      rw [symbol] at present
      cases present
      exact matched

theorem skip_spec (kind : α → Bool) (text : List α) (i : Nat)
    : Run kind text i (skip kind text i) ∧ Stops kind text (skip kind text i) := by
  -- the positions that are left go down with every symbol of the run
  induction left : text.length - i using Nat.strongRecOn generalizing i with
  | ind left ih =>
    rcases symbol_or_stops kind text i with ⟨c, symbol, matched⟩ | stops
    · obtain ⟨inside, -⟩ := List.getElem?_eq_some_iff.mp symbol
      obtain ⟨run, stops⟩ := ih (text.length - (i + 1)) (by omega) (i + 1) rfl
      rw [skip_of_symbol symbol matched]
      exact ⟨.cons symbol matched run, stops⟩
    · rw [skip_of_stops stops]
      exact ⟨.refl i, stops⟩

theorem skip_run (kind : α → Bool) (text : List α) (i : Nat)
    : Run kind text i (skip kind text i) :=
  (skip_spec kind text i).1

theorem skip_stops (kind : α → Bool) (text : List α) (i : Nat)
    : Stops kind text (skip kind text i) :=
  (skip_spec kind text i).2

end Z23.Lib.Spans
