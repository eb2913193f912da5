import Mathlib.Tactic

/-!
# Reading arrays with a default

Everything a graph or a computation on it keeps in an array is read with a default for positions out
of range.  These are the rules for reading after an update.
-/

namespace Unroller

variable {α : Type} (xs : Array α) (i j : Nat) (x d : α)

theorem getD_setIfInBounds :
    (xs.setIfInBounds i x).getD j d = if i = j ∧ j < xs.size then x else xs.getD j d := by
  by_cases hij : i = j
  · subst hij
    by_cases hi : i < xs.size <;> simp [Array.getD_eq_getD_getElem?, hi]
  · simp [Array.getD_eq_getD_getElem?, hij]

theorem getD_modify (f : α → α) :
    (xs.modify i f).getD j d = if i = j ∧ j < xs.size then f (xs.getD j d) else xs.getD j d := by
  simp only [Array.getD_eq_getD_getElem?, Array.getElem?_modify]
  by_cases hij : i = j
  · subst hij
    by_cases hi : i < xs.size <;> simp [hi]
  · simp [hij]

end Unroller
