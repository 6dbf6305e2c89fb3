import IncrementalLR.Grammar.FirstFollow
import Mathlib.Logic.Function.Iterate
import Mathlib.Logic.Relation

namespace IncrementalLR

section Saturation

variable {α : Type} [DecidableEq α] {motive : α → Prop} (step : α → α)

-- Whatever a step keeps is kept by all of them.
theorem saturate_induction (hstep : ∀ value, motive value → motive (step value))
    (fuel : Nat) (value : α) (hv : motive value) : motive (saturate step fuel value) := by
  induction fuel generalizing value with
  | zero => exact hv
  | succ fuel ih =>
      unfold saturate
      split
      · exact hv
      · exact ih (step value) (hstep value hv)

-- The fuel lasts if each step that changes a value makes it grow, and what it
-- can grow by is less than the fuel.
theorem step_saturate (size : α → Nat) (bound : Nat)
    (hstep : ∀ value, motive value → motive (step value))
    (hgrow : ∀ value, motive value → step value ≠ value → size value < size (step value))
    (hbound : ∀ value, motive value → size value ≤ bound)
    (fuel : Nat) (value : α) (hv : motive value) (hfuel : bound < fuel + size value) :
    step (saturate step fuel value) = saturate step fuel value := by
  induction fuel generalizing value with
  | zero =>
      have hb := hbound value hv
      omega
  | succ fuel ih =>
      unfold saturate
      split
      · assumption
      · rename_i hne
        have hg := hgrow value hv hne
        exact ih (step value) (hstep value hv) (by omega)

-- A step that changes nothing may as well be repeated.
theorem saturate_eq_iterate (fuel : Nat) (value : α) : saturate step fuel value = step^[fuel] value := by
  induction fuel generalizing value with
  | zero => rfl
  | succ fuel ih =>
      unfold saturate
      split
      · rename_i hfixed
        exact (Function.iterate_fixed hfixed (fuel + 1)).symm
      · exact ih (step value)

end Saturation

section Renewal

variable {α : Type} {within renews : α → α → Prop} {seed value other fixed : α}

def AtRest (renews : α → α → Prop) (value : α) : Prop := ∀ next, renews value next → next = value

-- Renewals only add to a value, and what one of them adds it adds as well to a value
-- that has more.
structure Renewing (within renews : α → α → Prop) : Prop where
  refl : ∀ value, within value value
  trans : ∀ {first second third}, within first second → within second third → within first third
  antisymm : ∀ {value other}, within value other → within other value → value = other
  grows : ∀ {before after}, renews before after → within before after
  keeps : ∀ {before after other}, renews before after → within before other →
    ∃ next, renews other next ∧ within after next

-- Made one at a time, renewals of a seed end, and with this value, whatever their order.
structure EndsIn (renews : α → α → Prop) (seed fixed : α) : Prop where
  ends : Acc (fun after before => renews before after ∧ after ≠ before) seed
  eq_of_atRest : ∀ last, Relation.ReflTransGen renews seed last → AtRest renews last → last = fixed

namespace Renewing

theorem within_seed (hr : Renewing within renews) (h : Relation.ReflTransGen renews seed value) :
    within seed value := by
  induction h with
  | refl => exact hr.refl seed
  | tail _ hrenews ih => exact hr.trans ih (hr.grows hrenews)

-- No renewal leads out of a value at rest.
theorem within_of_renews (hr : Renewing within renews) (hrest : AtRest renews other)
    {before after : α} (hrenews : renews before after) (hw : within before other) : within after other := by
  obtain ⟨next, hnext, hwithin⟩ := hr.keeps hrenews hw
  exact hrest next hnext ▸ hwithin

theorem within_of_atRest (hr : Renewing within renews) (hrest : AtRest renews other) (hseed : within seed other)
    (h : Relation.ReflTransGen renews seed value) : within value other := by
  induction h with
  | refl => exact hseed
  | tail _ hrenews ih => exact hr.within_of_renews hrest hrenews ih

-- Each renewal that changes a value takes up room below a value at rest.
theorem acc (hr : Renewing within renews) (size : α → Nat)
    (hsize : ∀ {value other}, within value other → other ≠ value → size value < size other)
    (hrest : AtRest renews fixed) (hw : within value fixed) :
    Acc (fun after before => renews before after ∧ after ≠ before) value := by
  generalize hroom : size fixed - size value = room
  induction room using Nat.strongRecOn generalizing value with
  | ind room ih =>
      refine .intro value fun after ⟨hrenews, hne⟩ => ?_
      have hafter := hr.within_of_renews hrest hrenews hw
      have hlt : size value < size after := hsize (hr.grows hrenews) hne
      have hle : size after ≤ size fixed := by
        by_cases he : fixed = after
        · exact Nat.le_of_eq (congrArg size he.symm)
        · exact Nat.le_of_lt (hsize hafter he)
      exact ih _ (by omega) hafter rfl

-- It is enough to know the least value at rest that holds the seed.
theorem endsIn (hr : Renewing within renews) (size : α → Nat)
    (hsize : ∀ {value other}, within value other → other ≠ value → size value < size other)
    (hseed : within seed fixed) (hrest : AtRest renews fixed)
    (hleast : ∀ other, within seed other → AtRest renews other → within fixed other) : EndsIn renews seed fixed where
  ends := hr.acc size hsize hrest hseed
  eq_of_atRest last h hlast :=
    hr.antisymm (hr.within_of_atRest hrest hseed h) (hleast last (hr.within_seed h) hlast)

end Renewing

end Renewal

end IncrementalLR
