import IncrementalLR.Proofs.Parse.Prefixes
import Mathlib.Algebra.Ring.Nat

namespace IncrementalLR

namespace Machine

-- How a parser ends on the first of the leaves to come. It fails on a reduction that
-- it cannot make, and on the last of the leaves if it would go on behind that.
inductive Verdict where
  | accepts
  | rejects
  | fails
deriving DecidableEq, Repr

-- None where a parser goes on.
def verdict? (table : SyntaxTable) (machine : Machine) : Option Verdict :=
  match machine.leaves with
  | [] => none
  | leaf :: rest =>
      match action? table machine.slots leaf with
      | some .accept => some .accepts
      | some (.shift _) => if rest.isEmpty then some .fails else none
      | some (.reduce production) =>
          if (reduce table production machine.slots).isNone then some .fails else none
      | some (.goto _) | none => if leaf.passes then none else some .rejects

-- Whether only so many reductions can be made before each of some leaves, on whatever
-- stack a parser comes there with.
def Settles (table : SyntaxTable) (input : List Leaf) : Prop :=
  ∀ machine leaf rest, Steps table ⟨[], input⟩ machine → machine.leaves = leaf :: rest →
    Halts table leaf machine.slots

variable {table : SyntaxTable} {machine after other : Machine} {verdict second : Verdict} {leaf : Leaf}
  {rest : List Leaf} {slots : List Slot}

theorem accepts_of_verdict? (hv : machine.verdict? table = some .accepts) : Accepts table machine := by
  unfold verdict? at hv
  split at hv
  · cases hv
  · rename_i leaf rest hleaves
    split at hv
    · rename_i haction
      exact ⟨leaf, rest, hleaves, haction⟩
    all_goals split at hv <;> cases hv

theorem silent_of_verdict? (hv : machine.verdict? table = some .rejects) :
    ∃ leaf rest, machine.leaves = leaf :: rest ∧
      (action? table machine.slots leaf = none ∨ ∃ target, action? table machine.slots leaf = some (.goto target)) := by
  unfold verdict? at hv
  split at hv
  · cases hv
  · rename_i leaf rest hleaves
    refine ⟨leaf, rest, hleaves, ?_⟩
    split at hv
    · cases hv
    · split at hv <;> cases hv
    · split at hv <;> cases hv
    · rename_i target haction
      exact Or.inr ⟨target, haction⟩
    · rename_i haction
      exact Or.inl haction

-- What is left of a parser that has ended is nothing, or it has no more leaves.
theorem next_of_verdict? (hv : machine.verdict? table = some verdict) (h : machine.next table = some after) :
    after.leaves = [] := by
  cases takes_of_next h with
  | @shift slots leaf rest state haction =>
      rw [verdict?] at hv
      simp only [haction] at hv
      cases rest with
      | nil => rfl
      | cons first rest => cases hv
  | @reduce slots others leaf rest production haction hreduce =>
      rw [verdict?] at hv
      simp only [haction, hreduce] at hv
      cases hv
  | @pass slots leaf rest hp =>
      rw [verdict?] at hv
      rw [next] at h
      dsimp only at hv h
      split at h
      · rename_i state haction
        simp only [haction] at hv
        cases rest with
        | nil => rfl
        | cons first rest => cases hv
      · rename_i production haction
        simp only [haction] at hv
        obtain ⟨others, hreduce, -⟩ := Option.map_eq_some_iff.mp h
        rw [hreduce] at hv
        cases hv
      · cases h
      · rename_i target haction
        simp [haction, hp] at hv
      · rename_i haction
        simp [haction, hp] at hv

-- A parser ends in one way only.
theorem Steps.eq_of_verdict? (hs : Steps table machine after) (ho : Steps table machine other)
    (hv : after.verdict? table = some verdict) (hsecond : other.verdict? table = some second) :
    after = other := by
  have hunique : Relator.RightUnique fun machine after => next table machine = some after := by
    intro machine after other ha ho
    exact Option.some_inj.mp (ha.symm.trans ho)
  -- nothing comes behind a parser that has ended
  have hlast : ∀ {first last : Machine} {verdict second : Verdict}, Steps table first last →
      first.verdict? table = some verdict → last.verdict? table = some second → first = last := by
    intro first last verdict second hs hfirst hlast
    rcases Relation.ReflTransGen.cases_head hs with rfl | ⟨middle, hmiddle, hrest⟩
    · rfl
    · have hnil := next_of_verdict? hfirst hmiddle
      have hhalts : middle.next table = none := by rw [next, hnil]
      obtain rfl := Steps.eq_of_halted hrest hhalts
      rw [verdict?, hnil] at hlast
      cases hlast
  rcases Relation.ReflTransGen.total_of_right_unique hunique hs ho with h | h
  · exact hlast h hv hsecond
  · exact (hlast h hsecond hv).symm

-- A parser that makes only so many reductions before each leaf ends.
theorem Settles.acc {input : List Leaf} (h : Settles table input) (hs : Steps table ⟨[], input⟩ machine) :
    Acc (fun after machine => machine.next table = some after) machine := by
  induction hn : machine.leaves.length using Nat.strong_induction_on generalizing machine with
  | _ length ih =>
      subst hn
      cases hleaves : machine.leaves with
      | nil =>
          refine Acc.intro _ fun after hnext => ?_
          rw [next, hleaves] at hnext
          cases hnext
      | cons leaf rest =>
          have hhalts := h machine leaf rest hs hleaves
          obtain ⟨slots, leaves⟩ := machine
          dsimp only at hleaves hhalts ih
          subst hleaves
          induction hhalts with
          | intro slots _ ihslots =>
              refine Acc.intro _ fun after hnext => ?_
              have hafter := hs.tail hnext
              cases takes_of_next hnext with
              | shift _ => exact ih _ (Nat.lt_succ_self _) hafter rfl
              | reduce haction hreduce => exact ihslots _ ⟨_, haction, hreduce⟩ hafter
              | pass _ => exact ih _ (Nat.lt_succ_self _) hafter rfl

end Machine

-- Whether each left side weighs less than its right side.
def Rules.Lightens (rules : Rules) (weight : Nat → Nat) : Prop :=
  ∀ id left, (rules.production id).left = some left → weight left < ((rules.production id).right.map weight).sum

theorem Rules.lightens_of_all {rules : Rules} {weight : Nat → Nat}
    (h : (rules.productions.toList.all fun production =>
      production.left.all fun left => decide (weight left < (production.right.map weight).sum)) = true) :
    rules.Lightens weight := by
  intro id left hleft
  by_cases hlt : id < rules.productions.size
  · rw [Rules.production, Array.getD_eq_getD_getElem?, Array.getElem?_eq_getElem hlt, Option.getD_some] at hleft ⊢
    have hall := List.all_eq_true.mp h _ (Array.mem_toList_iff.mpr (Array.getElem_mem hlt))
    rw [hleft] at hall
    exact of_decide_eq_true hall
  · rw [Rules.production, Array.getD_eq_getD_getElem?, Array.getElem?_eq_none (Nat.le_of_not_lt hlt)] at hleft
    cases hleft

section

variable {grammar : Grammar} {graph : StateGraph} {spelled : List Nat} {slots : List Slot} {leaf : Leaf}
  {weight : Nat → Nat}

-- Where each left side weighs less than its right side, each reduction leaves less on
-- the stack.
theorem Path.halts (hw : grammar.toRules.WellFormed) (hf : Faithful grammar graph)
    (hweight : grammar.toRules.Lightens weight) (hp : Path graph spelled slots) :
    Machine.Halts (.build graph grammar) leaf slots := by
  induction hn : (spelled.map weight).sum using Nat.strong_induction_on generalizing spelled slots with
  | _ sum ih =>
      refine Machine.halts_of_forall fun after ⟨production, haction, hreduce⟩ => ?_
      obtain ⟨left, rest, after', hleft, rfl, hreduce', hafter⟩ := hp.reduce hw hf haction
      obtain rfl := Option.some_inj.mp (hreduce.symm.trans hreduce')
      refine ih _ ?_ hafter rfl
      have hlt := hweight production left hleft
      rw [← hn, List.map_append, List.map_reverse, List.sum_append, List.sum_reverse, List.map_cons, List.sum_cons]
      omega

theorem Machine.settles_of_lightens (hw : grammar.toRules.WellFormed) (hf : Faithful grammar graph)
    (hweight : grammar.toRules.Lightens weight) {input : List Leaf}
    (hplain : ∀ leaf ∈ input, leaf.passes = false) : Machine.Settles (.build graph grammar) input := by
  intro machine leaf rest hs _
  obtain ⟨spelled, read, hreads, -⟩ := Machine.HasRead.steps hw hf hplain hs
  exact hreads.path.halts hw hf hweight

-- Nothing fails if the end of the input stands in no right side.
theorem Machine.not_fails (hw : grammar.toRules.WellFormed) (hf : Faithful grammar graph)
    (hfinish : grammar.toRules.Avoids (· == .finish)) {input : List Leaf} {last : Leaf} {machine : Machine}
    (hlast : last.symbol = some finishId) (hplain : ∀ leaf ∈ input ++ [last], leaf.passes = false)
    (hs : Machine.Steps (.build graph grammar) ⟨[], input ++ [last]⟩ machine) :
    machine.verdict? (.build graph grammar) ≠ some .fails := by
  intro hv
  obtain ⟨spelled, read, hreads, -⟩ := Machine.HasRead.steps hw hf hplain hs
  have hsuffix := hs.leaves
  obtain ⟨slots, leaves⟩ := machine
  unfold Machine.verdict? at hv
  split at hv
  · cases hv
  · rename_i leaf rest hleaves
    dsimp only at hleaves hv hreads hsuffix
    subst hleaves
    split at hv
    · cases hv
    · rename_i state haction
      split at hv
      · -- the last of the leaves is the end of the input
        rename_i hempty
        rw [List.isEmpty_iff] at hempty
        subst hempty
        obtain ⟨before, hbefore⟩ := hsuffix
        obtain ⟨-, hleaf⟩ := List.append_inj' hbefore rfl
        obtain rfl := (List.cons.inj hleaf).1
        rw [Machine.action?, hlast, Option.bind_some] at haction
        cases candidate_of_action? haction with
        | shift he _ => exact no_edge_finish hw hf hfinish he
      · cases hv
    · rename_i production haction
      obtain ⟨left, below, after, -, -, hreduce, -⟩ := hreads.path.reduce hw hf haction
      rw [hreduce] at hv
      cases hv
    · split at hv
      · cases hv
      · cases hv
    · split at hv
      · cases hv
      · cases hv

end

end IncrementalLR
