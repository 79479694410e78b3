import Mathlib.Data.List.Basic

/-!
Rules for loops that may stop early: a fold in `Except` whose successful runs carry an
invariant indexed by the prefix already processed.
-/

namespace Z23.Lib.FoldM

variable {ε α σ : Type}

theorem bind_eq_ok {β : Type} {first : Except ε α} {next : α → Except ε β} {result : β}
    : first >>= next = .ok result
        ↔ ∃ middle, first = .ok middle ∧ next middle = .ok result := by
  cases first with
  | error e => simp [Bind.bind, Except.bind]
  | ok a => simp [Bind.bind, Except.bind]

theorem bind_eq_error {β : Type} {first : Except ε α} {next : α → Except ε β} {e : ε}
    : first >>= next = .error e
        ↔ first = .error e ∨ ∃ middle, first = .ok middle ∧ next middle = .error e := by
  cases first with
  | error e => simp [Bind.bind, Except.bind]
  | ok a => simp [Bind.bind, Except.bind]

variable {state final : σ}

theorem foldlM_nil_ok {step : σ → α → Except ε σ}
    : ([] : List α).foldlM step state = .ok final ↔ state = final := by
  simp [List.foldlM, pure, Except.pure]

theorem foldlM_cons_ok {step : σ → α → Except ε σ} {item : α} {rest : List α}
    : (item :: rest).foldlM step state = .ok final
        ↔ ∃ middle, step state item = .ok middle
          ∧ rest.foldlM step middle = .ok final := by
  rw [List.foldlM_cons, bind_eq_ok]

theorem foldlM_append_ok {step : σ → α → Except ε σ} {first second : List α}
    : (first ++ second).foldlM step state = .ok final
        ↔ ∃ middle, first.foldlM step state = .ok middle
          ∧ second.foldlM step middle = .ok final := by
  rw [List.foldlM_append, bind_eq_ok]

private theorem foldlM_ok_from {step : σ → α → Except ε σ} (invariant : List α → σ → Prop)
    {items done : List α} (start : invariant done state)
    (keeps : ∀ before item after state next, done ++ items = before ++ item :: after →
      invariant before state → step state item = .ok next → invariant (before ++ [item]) next)
    (run : items.foldlM step state = .ok final)
    : invariant (done ++ items) final := by
  induction items generalizing done state with
  | nil =>
    rw [foldlM_nil_ok] at run
    rwa [List.append_nil, ← run]
  | cons item rest ih =>
    obtain ⟨middle, stepped, restRun⟩ := foldlM_cons_ok.mp run
    have next := keeps done item rest state middle rfl start stepped
    have shifted : done ++ [item] ++ rest = done ++ item :: rest := by simp
    have final := ih next (fun before item after state next split =>
      keeps before item after state next (shifted ▸ split)) restRun
    rwa [shifted] at final

/--
The loop rule: an invariant of the processed prefix that holds at the start and is kept by
every successful step holds of the whole list when the loop succeeds.
-/
theorem foldlM_ok_invariant {step : σ → α → Except ε σ} (invariant : List α → σ → Prop)
    {items : List α} (start : invariant [] state)
    (keeps : ∀ before item after state next, items = before ++ item :: after →
      invariant before state → step state item = .ok next → invariant (before ++ [item]) next)
    (run : items.foldlM step state = .ok final)
    : invariant items final :=
  foldlM_ok_from invariant start keeps run

/-- A failing loop fails with the error of one of its steps. -/
theorem foldlM_error {step : σ → α → Except ε σ} {items : List α} {e : ε}
    (run : items.foldlM step state = .error e)
    : ∃ item ∈ items, ∃ reached, step reached item = .error e := by
  induction items generalizing state with
  | nil => simp [List.foldlM, pure, Except.pure] at run
  | cons item rest ih =>
    rw [List.foldlM_cons, bind_eq_error] at run
    rcases run with here | ⟨middle, -, later⟩
    · exact ⟨item, List.mem_cons_self, state, here⟩
    · obtain ⟨other, member, found⟩ := ih later
      exact ⟨other, List.mem_cons_of_mem _ member, found⟩

end Z23.Lib.FoldM
