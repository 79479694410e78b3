import Mathlib.Data.List.Perm.Basic

/-!
Digests of collections by an operation that does not depend on the order of the elements, and that
takes an element out again when it is mixed in a second time.
-/

namespace Z23.Lib.Mixing

variable {α : Type} {mix : α → α → α} {start x : α} {xs ys : List α}

structure SelfInverse (mix : α → α → α) : Prop where
  swap : ∀ a x y, mix (mix a x) y = mix (mix a y) x
  cancel : ∀ a x, mix (mix a x) x = a

/-- Mixes all elements into a start. -/
def digest (mix : α → α → α) (start : α) (xs : List α) : α := xs.foldl mix start

theorem SelfInverse.digest_perm (law : SelfInverse mix) (perm : xs.Perm ys)
    : digest mix start xs = digest mix start ys := by
  have rightCommutative : RightCommutative mix := ⟨law.swap⟩
  exact perm.foldl_eq start

theorem digest_append : digest mix start (xs ++ ys) = digest mix (digest mix start xs) ys :=
  List.foldl_append

theorem SelfInverse.digest_cons (law : SelfInverse mix)
    : digest mix start (x :: xs) = mix (digest mix start xs) x := by
  rw [law.digest_perm (List.perm_append_singleton x xs).symm, digest_append]
  rfl

/-- An element that is mixed in again is out. -/
theorem SelfInverse.remove (law : SelfInverse mix)
    : mix (digest mix start (x :: xs)) x = digest mix start xs := by
  rw [law.digest_cons, law.cancel]

end Z23.Lib.Mixing
