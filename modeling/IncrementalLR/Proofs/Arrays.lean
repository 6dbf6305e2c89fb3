import Mathlib.Data.Nat.Basic

namespace IncrementalLR

section

variable {α : Type} {values : Array α} {index other : Nat} {value default : α}

theorem getD_push :
    (values.push value).getD index default =
      if index = values.size then value else values.getD index default := by
  simp only [Array.getD_eq_getD_getElem?, Array.getElem?_push]
  split
  · rfl
  · rfl

theorem getD_setIfInBounds :
    (values.setIfInBounds index value).getD other default =
      if other = index ∧ index < values.size then value else values.getD other default := by
  simp only [Array.getD_eq_getD_getElem?, Array.getElem?_setIfInBounds]
  by_cases he : index = other
  · subst he
    by_cases hlt : index < values.size
    · simp [hlt]
    · simp [hlt]
  · rw [if_neg he, if_neg fun h => he h.1.symm]

theorem getD_modify (change : α → α) :
    (values.modify index change).getD other default =
      if other = index ∧ index < values.size then change (values.getD other default)
      else values.getD other default := by
  simp only [Array.getD_eq_getD_getElem?, Array.getElem?_modify]
  by_cases he : index = other
  · subst he
    by_cases hlt : index < values.size
    · simp [hlt]
    · simp [hlt]
  · rw [if_neg he, if_neg fun h => he h.1.symm]

end

end IncrementalLR
