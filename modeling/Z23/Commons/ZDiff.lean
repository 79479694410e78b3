import Mathlib.Data.List.GetD
import Z23.Lib.CommonSublist

/-!
The line diff: the table of common lengths of all tails, and the walk over it that writes the
script.
-/

namespace Z23.Commons.ZDiff

open Z23.Lib

/-- A line is the slice of its text without the line break. -/
abbrev Line := List UInt8

inductive Kind where
  | keep
  | del
  | ins
deriving DecidableEq, Repr

structure Op where
  kind : Kind
  oldLine : Nat
  newLine : Nat
deriving DecidableEq, Repr

inductive Status where
  | ok
  | bound
  | space
deriving DecidableEq, Repr

def maxLines : Nat := 65535

def maxCells : Nat := 4194304

def zdiffCells (oldLines newLines : Nat) : Nat :=
  if oldLines > maxLines ∨ newLines > maxLines then 0
  else if (oldLines + 1) * (newLines + 1) > maxCells then 0
  else (oldLines + 1) * (newLines + 1)

def lineEq (a b : Line) : Bool := a.length = b.length && a = b

/-- The row of one old line, from the last new line on, with the row of the next old line. -/
def buildRow (x : Line) : List Line → List Nat → List Nat
  | [], _ => [0]
  | y :: ys, next =>
    let rest := buildRow x ys next.tail
    let del := next.headD 0
    let ins := rest.headD 0
    (if lineEq x y then next.tail.headD 0 + 1 else if del > ins then del else ins) :: rest

/-- The rows from the last old line on. -/
def buildLcs : List Line → List Line → List (List Nat)
  | [], new => [List.replicate (new.length + 1) 0]
  | x :: old, new =>
    let rows := buildLcs old new
    buildRow x new (rows.headD []) :: rows

def cell (dp : List (List Nat)) (i j : Nat) : Nat := (dp.getD i []).getD j 0

/-- The walk from line `i` and line `j`; every turn passes a line. -/
def emitScript (old new : List Line) (dp : List (List Nat)) : (fuel : Nat) → (i j : Nat) → List Op
  | 0, _, _ => []
  | fuel + 1, i, j =>
    if i < old.length ∨ j < new.length then
      if i < old.length ∧ j < new.length ∧ lineEq (old.getD i []) (new.getD j []) then
        ⟨.keep, i, j⟩ :: emitScript old new dp fuel (i + 1) (j + 1)
      else if j = new.length ∨ (i < old.length ∧ cell dp (i + 1) j ≥ cell dp i (j + 1)) then
        ⟨.del, i, j⟩ :: emitScript old new dp fuel (i + 1) j
      else ⟨.ins, i, j⟩ :: emitScript old new dp fuel i (j + 1)
    else []

/-- The status, the script length reported and the script. -/
def zdiffRun (old new : List Line) (dpCells opsCap : Nat) : Status × Nat × List Op :=
  let need := zdiffCells old.length new.length
  if need = 0 then (.bound, 0, [])
  else if dpCells < need then (.space, 0, [])
  else
    let dp := buildLcs old new
    let scriptLen := old.length + new.length - cell dp 0 0
    if opsCap < scriptLen then (.space, scriptLen, [])
    else (.ok, scriptLen, emitScript old new dp (old.length + new.length) 0 0)

-- What a script does

/-- The lines that a script makes of the old ones; it must use them all up. -/
def patch (new : List Line) : List Op → List Line → Option (List Line)
  | [], [] => some []
  | ⟨.keep, _, _⟩ :: ops, x :: old => (patch new ops old).map (x :: ·)
  | ⟨.del, _, _⟩ :: ops, _ :: old => patch new ops old
  | ⟨.ins, _, j⟩ :: ops, old =>
    match new[j]? with
    | some y => (patch new ops old).map (y :: ·)
    | none => none
  | _, _ => none

/-- What a script keeps is common to both sides, and the rest is deleted or inserted. -/
theorem patch_common {new : List Line} {ops : List Op} {old lines : List Line}
    (patched : patch new ops old = some lines)
    : ∃ common : List Line, common.Sublist old ∧ common.Sublist lines
        ∧ ops.length + common.length = old.length + lines.length := by
  induction ops generalizing old lines with
  | nil =>
    cases old with
    | nil =>
      cases patched
      exact ⟨[], .slnil, .slnil, rfl⟩
    | cons x old => cases patched
  | cons op ops ih =>
    obtain ⟨kind, i, j⟩ := op
    cases kind with
    | keep =>
      cases old with
      | nil => cases patched
      | cons x old =>
        obtain ⟨lines, rest, rfl⟩ := Option.map_eq_some_iff.mp patched
        obtain ⟨common, first, second, count⟩ := ih rest
        exact ⟨x :: common, first.cons_cons x, second.cons_cons x,
          by simp only [List.length_cons]; omega⟩
    | del =>
      cases old with
      | nil => cases patched
      | cons x old =>
        obtain ⟨common, first, second, count⟩ := ih patched
        exact ⟨common, first.cons x, second, by simp only [List.length_cons]; omega⟩
    | ins =>
      rw [patch] at patched
      split at patched
      · obtain ⟨lines, rest, rfl⟩ := Option.map_eq_some_iff.mp patched
        obtain ⟨common, first, second, count⟩ := ih rest
        exact ⟨common, first, second.cons _, by simp only [List.length_cons]; omega⟩
      · cases patched

/-- No script is shorter than what a longest common sublist leaves over. -/
theorem patch_length_ge {old new : List Line} {k : Nat} (lcs : IsLcs old new k) {ops : List Op}
    (patched : patch new ops old = some new)
    : old.length + new.length - k ≤ ops.length := by
  obtain ⟨common, first, second, count⟩ := patch_common patched
  have most := lcs.longest common first second
  omega

-- The table

theorem lineEq_iff {a b : Line} : lineEq a b = true ↔ a = b := by
  rw [lineEq, Bool.and_eq_true, decide_eq_true_eq, decide_eq_true_eq]
  exact ⟨fun same => same.2, fun same => ⟨congrArg _ same, same⟩⟩

/-- Every cell of a row holds the common length of its tails. -/
def RowOf (xs ys : List Line) (row : List Nat) : Prop :=
  ∀ j ≤ ys.length, IsLcs xs (ys.drop j) (row.getD j 0)

theorem RowOf.tail {xs ys : List Line} {y : Line} {row : List Nat} (rowOf : RowOf xs (y :: ys) row)
    : RowOf xs ys row.tail := by
  intro j within
  have cell := rowOf (j + 1) (Nat.succ_le_succ within)
  cases row <;> exact cell

theorem RowOf.head {xs ys : List Line} {row : List Nat} (rowOf : RowOf xs ys row)
    : IsLcs xs ys (row.headD 0) := by
  have cell := rowOf 0 (Nat.zero_le _)
  cases row <;> exact cell

theorem buildRow_rowOf {x : Line} {xs ys : List Line} {next : List Nat} (rowOf : RowOf xs ys next)
    : RowOf (x :: xs) ys (buildRow x ys next) := by
  induction ys generalizing next with
  | nil =>
    intro j within
    obtain rfl := Nat.le_zero.mp within
    exact .nil_right _
  | cons y ys ih =>
    have rest := ih rowOf.tail
    intro j within
    cases j with
    | succ j => exact rest j (Nat.le_of_succ_le_succ within)
    | zero =>
      rw [buildRow]
      change IsLcs (x :: xs) (y :: ys) (if lineEq x y then _ else _)
      split
      case isTrue same =>
        obtain rfl := lineEq_iff.mp same
        exact rowOf.tail.head.cons_same
      case isFalse differ =>
        have larger : ∀ a b : Nat, (if a > b then a else b) = max a b := by
          intro a b
          split <;> omega
        rw [larger]
        exact .cons_other (mt lineEq_iff.mpr differ) rowOf.head rest.head

theorem buildLcs_rowOf (old new : List Line) (i : Nat) (within : i ≤ old.length)
    : RowOf (old.drop i) new ((buildLcs old new).getD i []) := by
  induction old generalizing i with
  | nil =>
    obtain rfl := Nat.le_zero.mp within
    intro j inside
    have zero : (List.replicate (new.length + 1) 0).getD j 0 = 0 := by
      rw [List.getD_eq_getElem?_getD, List.getElem?_replicate]
      split <;> rfl
    change IsLcs [] _ ((List.replicate (new.length + 1) 0).getD j 0)
    rw [zero]
    exact .nil_left _
  | cons x old ih =>
    cases i with
    | succ i => exact ih i (Nat.le_of_succ_le_succ within)
    | zero =>
      have next := ih 0 (Nat.zero_le _)
      have head : (buildLcs old new).headD [] = (buildLcs old new).getD 0 [] := by
        cases buildLcs old new <;> rfl
      change RowOf (x :: old) new (buildRow x new ((buildLcs old new).headD []))
      rw [head]
      exact buildRow_rowOf next

theorem cell_isLcs (old new : List Line) {i j : Nat} (within : i ≤ old.length)
    (within' : j ≤ new.length)
    : IsLcs (old.drop i) (new.drop j) (cell (buildLcs old new) i j) :=
  buildLcs_rowOf old new i within j within'

-- The walk

variable {old new : List Line} {i j : Nat}

/-- What is kept by the rest of a script stands behind the line numbers and pairs equal lines. -/
def KeepsFrom (old new : List Line) (i j : Nat) (ops : List Op) : Prop :=
  ∀ op ∈ ops, op.kind = .keep → i ≤ op.oldLine ∧ j ≤ op.newLine
    ∧ ∃ line, old[op.oldLine]? = some line ∧ new[op.newLine]? = some line

def Rising (ops : List Op) : Prop :=
  (ops.filter (·.kind = .keep)).Pairwise fun first second =>
    first.oldLine < second.oldLine ∧ first.newLine < second.newLine

/-- A script from line `i` and line `j` on. -/
structure Script (old new : List Line) (i j k : Nat) (ops : List Op) : Prop where
  length : ops.length + k = old.length - i + (new.length - j)
  patches : patch new ops (old.drop i) = some (new.drop j)
  keeps : KeepsFrom old new i j ops
  rising : Rising ops

theorem KeepsFrom.mono {i' j' : Nat} {ops : List Op} (keeps : KeepsFrom old new i' j' ops)
    (left : i ≤ i') (right : j ≤ j') : KeepsFrom old new i j ops := by
  intro op member kept
  obtain ⟨above, above', pair⟩ := keeps op member kept
  exact ⟨Nat.le_trans left above, Nat.le_trans right above', pair⟩

theorem Script.keep {line : Line} {k : Nat} {ops : List Op} (first : old[i]? = some line)
    (second : new[j]? = some line) (script : Script old new (i + 1) (j + 1) k ops)
    : Script old new i j (k + 1) (⟨.keep, i, j⟩ :: ops) := by
  obtain ⟨inside, here⟩ := List.getElem?_eq_some_iff.mp first
  obtain ⟨inside', here'⟩ := List.getElem?_eq_some_iff.mp second
  refine ⟨?_, ?_, ?_, ?_⟩
  · have length := script.length
    rw [List.length_cons]
    omega
  · rw [List.drop_eq_getElem_cons inside, List.drop_eq_getElem_cons inside', here, here', patch,
      script.patches]
    rfl
  · intro op member kept
    rcases List.mem_cons.mp member with rfl | later
    · exact ⟨Nat.le_refl _, Nat.le_refl _, line, first, second⟩
    · exact script.keeps.mono (Nat.le_succ _) (Nat.le_succ _) op later kept
  · unfold Rising
    rw [List.filter_cons_of_pos (by simp), List.pairwise_cons]
    refine ⟨?_, script.rising⟩
    intro op member
    obtain ⟨later, kept⟩ := List.mem_filter.mp member
    obtain ⟨above, above', -⟩ := script.keeps op later (by simpa using kept)
    exact ⟨above, above'⟩

theorem Script.del {k : Nat} {ops : List Op} (inside : i < old.length)
    (script : Script old new (i + 1) j k ops)
    : Script old new i j k (⟨.del, i, j⟩ :: ops) := by
  refine ⟨?_, ?_, ?_, ?_⟩
  · have length := script.length
    rw [List.length_cons]
    omega
  · rw [List.drop_eq_getElem_cons inside, patch]
    exact script.patches
  · intro op member kept
    rcases List.mem_cons.mp member with rfl | later
    · cases kept
    · exact script.keeps.mono (Nat.le_succ _) (Nat.le_refl _) op later kept
  · unfold Rising
    rw [List.filter_cons_of_neg (by simp)]
    exact script.rising

theorem Script.ins {k : Nat} {ops : List Op} (inside : j < new.length)
    (script : Script old new i (j + 1) k ops)
    : Script old new i j k (⟨.ins, i, j⟩ :: ops) := by
  refine ⟨?_, ?_, ?_, ?_⟩
  · have length := script.length
    rw [List.length_cons]
    omega
  · rw [List.drop_eq_getElem_cons inside, patch, List.getElem?_eq_getElem inside, script.patches]
    rfl
  · intro op member kept
    rcases List.mem_cons.mp member with rfl | later
    · cases kept
    · exact script.keeps.mono (Nat.le_refl _) (Nat.le_succ _) op later kept
  · unfold Rising
    rw [List.filter_cons_of_neg (by simp)]
    exact script.rising

theorem cell_last_old (within' : j ≤ new.length) : cell (buildLcs old new) old.length j = 0 := by
  have here := cell_isLcs old new (Nat.le_refl _) within'
  rw [List.drop_length] at here
  exact here.unique (.nil_left _)

theorem cell_last_new (within : i ≤ old.length) : cell (buildLcs old new) i new.length = 0 := by
  have here := cell_isLcs old new within (Nat.le_refl _)
  rw [List.drop_length] at here
  exact here.unique (.nil_right _)

theorem cell_same (inside : i < old.length) (inside' : j < new.length) (same : old[i] = new[j])
    : cell (buildLcs old new) i j = cell (buildLcs old new) (i + 1) (j + 1) + 1 := by
  have here := cell_isLcs old new (Nat.le_of_lt inside) (Nat.le_of_lt inside')
  rw [List.drop_eq_getElem_cons inside, List.drop_eq_getElem_cons inside', same] at here
  exact here.unique (cell_isLcs old new inside inside').cons_same

theorem cell_other (inside : i < old.length) (inside' : j < new.length) (differ : old[i] ≠ new[j])
    : cell (buildLcs old new) i j
        = max (cell (buildLcs old new) (i + 1) j) (cell (buildLcs old new) i (j + 1)) := by
  have here := cell_isLcs old new (Nat.le_of_lt inside) (Nat.le_of_lt inside')
  have below := cell_isLcs old new inside (Nat.le_of_lt inside')
  have right := cell_isLcs old new (Nat.le_of_lt inside) inside'
  rw [List.drop_eq_getElem_cons inside, List.drop_eq_getElem_cons inside'] at here
  rw [List.drop_eq_getElem_cons inside'] at below
  rw [List.drop_eq_getElem_cons inside] at right
  exact here.unique (.cons_other differ below right)

theorem Script.done : Script old new old.length new.length
    (cell (buildLcs old new) old.length new.length) [] where
  length := by simp [cell_last_old]
  patches := by simp [patch]
  keeps := by simp [KeepsFrom]
  rising := by simp [Rising]

theorem emitScript_script {fuel : Nat} (within : i ≤ old.length) (within' : j ≤ new.length)
    (enough : old.length - i + (new.length - j) ≤ fuel)
    : Script old new i j (cell (buildLcs old new) i j)
        (emitScript old new (buildLcs old new) fuel i j) := by
  induction fuel generalizing i j with
  | zero =>
    obtain rfl : i = old.length := by omega
    obtain rfl : j = new.length := by omega
    exact .done
  | succ fuel ih =>
    rw [emitScript]
    split
    case isFalse past =>
      obtain rfl : i = old.length := by omega
      obtain rfl : j = new.length := by omega
      exact .done
    case isTrue ahead =>
      split
      case isTrue kept =>
        obtain ⟨inside, inside', same⟩ := kept
        rw [List.getD_eq_getElem _ _ inside, List.getD_eq_getElem _ _ inside', lineEq_iff]
          at same
        rw [cell_same inside inside' same]
        exact .keep (List.getElem?_eq_getElem inside)
          (same ▸ List.getElem?_eq_getElem inside') (ih inside inside' (by omega))
      case isFalse notKept =>
        have differ : ∀ (inside : i < old.length) (inside' : j < new.length), old[i] ≠ new[j] := by
          intro inside inside' same
          refine notKept ⟨inside, inside', ?_⟩
          rw [List.getD_eq_getElem _ _ inside, List.getD_eq_getElem _ _ inside', lineEq_iff]
          exact same
        split
        case isTrue deleted =>
          have inside : i < old.length := by omega
          have script := ih inside within' (by omega)
          have same : cell (buildLcs old new) i j = cell (buildLcs old new) (i + 1) j := by
            rcases Nat.lt_or_ge j new.length with inside' | last
            · rw [cell_other inside inside' (differ inside inside')]
              omega
            · obtain rfl : j = new.length := by omega
              rw [cell_last_new within, cell_last_new inside]
          rw [same]
          exact script.del inside
        case isFalse inserted =>
          have inside' : j < new.length := by omega
          have script := ih within inside' (by omega)
          have same : cell (buildLcs old new) i j = cell (buildLcs old new) i (j + 1) := by
            rcases Nat.lt_or_ge i old.length with inside | last
            · rw [cell_other inside inside' (differ inside inside')]
              omega
            · obtain rfl : i = old.length := by omega
              rw [cell_last_old within', cell_last_old inside']
          rw [same]
          exact script.ins inside'

example : zdiffRun [[97], [98]] [[98], [99]] 9 3
    = (.ok, 3, [⟨.del, 0, 0⟩, ⟨.keep, 1, 0⟩, ⟨.ins, 2, 1⟩]) := by decide

end Z23.Commons.ZDiff
