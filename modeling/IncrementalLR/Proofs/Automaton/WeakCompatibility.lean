import IncrementalLR.Proofs.Automaton.Contests
import IncrementalLR.Proofs.Automaton.Simulation

namespace IncrementalLR

namespace ItemSet

-- Two final items with a lookahead in common.
def BothReduce (rules : Rules) (set : ItemSet) (item other : Item) : Prop :=
  item ≠ other ∧ item.isFinal rules = true ∧ other.isFinal rules = true ∧
    ∃ symbol, set.Sees item symbol ∧ set.Sees other symbol

-- A final item with a lookahead over which another item moves on.
def ReducesOrMoves (rules : Rules) (set : ItemSet) (item : Item) (symbol : Nat) : Prop :=
  item.isFinal rules = true ∧ set.Sees item symbol ∧
    ∃ other, set.HasItem other ∧ other.next? rules = some symbol

end ItemSet

-- Grammars whose canonical item sets have no conflicts.
def Grammar.IsLR1 (grammar : Grammar) : Prop :=
  ∀ word, (∀ item other, ¬ (grammar.canonical word).BothReduce grammar.toRules item other) ∧
    ∀ item symbol, ¬ (grammar.canonical word).ReducesOrMoves grammar.toRules item symbol

-- A table has no conflicts if no two candidates of a state make one.
theorem conflicts_build_eq_nil {grammar : Grammar} {graph : StateGraph}
    (hbetween : ∀ id symbol left right, (symbol, left) ∈ SyntaxTable.candidates grammar graph id →
      (symbol, right) ∈ SyntaxTable.candidates grammar graph id →
      Conflict.between? grammar.toRules id symbol left right = none) :
    (SyntaxTable.build graph grammar).conflicts = [] := by
  refine List.eq_nil_iff_forall_not_mem.mpr fun conflict h => ?_
  obtain ⟨id, symbol, left, right, -, hleft, hright, hconflict⟩ := mem_conflicts_build h
  rw [hbetween id symbol left right (mem_candidates.mpr hleft) (mem_candidates.mpr hright)] at hconflict
  cases hconflict

section Start

variable {grammar : Grammar} {set : ItemSet} {item : Item}

-- No item of the start rule is brought in.
theorem hasItem_of_closure_start (hw : grammar.toRules.WellFormed)
    (hi : (set.closure grammar .lr1).HasItem item) (hp : item.production = startProduction) :
    set.HasItem item := by
  cases ItemSet.reaches_of_hasItem_closure hw hi with
  | given hi => exact hi
  | brought _ hb =>
      obtain ⟨next, -, hleft, -⟩ := hb
      rw [hp, hw.start_left] at hleft
      cases hleft

-- Item sets in which the items of the start rule see the end of input.
def FinishesStart (set : ItemSet) : Prop :=
  ∀ item, set.HasItem item → item.production = startProduction → set.Sees item finishId

theorem FinishesStart.closure (hw : grammar.toRules.WellFormed) (hs : FinishesStart set) :
    FinishesStart (set.closure grammar .lr1) := fun item hi hp =>
  ItemSet.within_closure.sees _ _ (hs item (hasItem_of_closure_start hw hi hp) hp)

theorem finishesStart_finished (hw : grammar.toRules.WellFormed) {id : Nat}
    (hid : id < (Construction.finished grammar .lr1).size) :
    FinishesStart ((Construction.finished grammar .lr1).kernel id) := by
  apply @Construction.kernel_induction _ _ (fun _ => FinishesStart) _ _ _ id hid
  · intro item hi _
    exact ItemSet.sees_startKernel.mpr ⟨ItemSet.hasItem_startKernel.mp hi, Mode.noConfusion, rfl⟩
  · intro _ set other hs ho _ item hi hp
    exact ItemSet.sees_merge.mpr ((ItemSet.hasItem_merge.mp hi).imp (hs item · hp) (ho item · hp))
  · intro _ set symbol hs item hi hp
    obtain ⟨source, hsource, hn, rfl⟩ := ItemSet.hasItem_gotoKernel.mp hi
    exact ItemSet.sees_gotoKernel.mpr ⟨source, hs.closure hw source hsource hp, hn, rfl⟩

end Start

section Conflicts

variable {grammar : Grammar} {id : Nat} {item other : Item} {symbol : Nat}

-- Two final items share a lookahead only if they share one in a canonical set.
theorem bothReduce_canonical (hw : grammar.toRules.WellFormed)
    (h : ((StateGraph.build grammar .lr1).state id).BothReduce grammar.toRules item other) :
    ∃ word, (grammar.canonical word).cores = ((StateGraph.build grammar .lr1).state id).cores ∧
      (grammar.canonical word).BothReduce grammar.toRules item other := by
  obtain ⟨hne, hfinal, hfinal', symbol, hs, ho⟩ := h
  obtain ⟨old, hk⟩ := @Construction.kept_of_hasItem grammar .lr1 hw id item hs.hasItem
  have ha := Construction.accounted_finished hw Mode.noConfusion hk.lt
  have hstate : (StateGraph.build grammar .lr1).state id = _ := hk.state
  rw [hstate] at hs ho ⊢
  obtain ⟨spelled, shared, hc, hf, hf'⟩ := ha.foresees_both
    (ItemSet.foresees_of_sees_closure hw hs) (ItemSet.foresees_of_sees_closure hw ho)
  have hbounded := Grammar.bounded_canonicalKernel hw spelled
  refine ⟨spelled.reverse, ?_, hne, hfinal, hfinal', shared, ?_, ?_⟩
  · rw [Grammar.canonical_eq_closure]
    exact ItemSet.cores_closure hw hbounded ha.bounded hc
  · rw [Grammar.canonical_eq_closure]
    exact ItemSet.sees_closure_of_foresees hw hbounded Mode.noConfusion hf
  · rw [Grammar.canonical_eq_closure]
    exact ItemSet.sees_closure_of_foresees hw hbounded Mode.noConfusion hf'

-- A final item has a lookahead that is the symbol of an edge only if it has it in a
-- canonical set, in which some item moves over that symbol too.
theorem reducesOrMoves_canonical (hw : grammar.toRules.WellFormed)
    (hsim : SimulatesCanonical grammar (.build grammar .lr1)) {target : Nat}
    (hfinal : item.isFinal grammar.toRules = true)
    (hs : ((StateGraph.build grammar .lr1).state id).Sees item symbol)
    (he : (symbol, target) ∈ (StateGraph.build grammar .lr1).edgesFrom id) :
    ∃ word, (grammar.canonical word).cores = ((StateGraph.build grammar .lr1).state id).cores ∧
      (grammar.canonical word).ReducesOrMoves grammar.toRules item symbol := by
  obtain ⟨other, ho, hn⟩ := (faithful_build hw .lr1).edge_next id symbol target he
  obtain ⟨word, hc, hs⟩ := hsim.accounted id item symbol hs
  exact ⟨word, hc, hfinal, hs, other, (ItemSet.hasItem_congr hc other).mpr ho, hn⟩

-- Candidates of a state that make a conflict come from a conflict of a canonical set.
theorem between?_eq_none_of_isLR1 (hw : grammar.toRules.WellFormed)
    (hsim : SimulatesCanonical grammar (.build grammar .lr1)) (hlr : grammar.IsLR1)
    {left right : Action} (hl : Candidate grammar (.build grammar .lr1) id symbol left)
    (hr : Candidate grammar (.build grammar .lr1) id symbol right) :
    Conflict.between? grammar.toRules id symbol left right = none := by
  have hsees : ∀ {item terminal}, Admits grammar (.build grammar .lr1) id item terminal →
      ((StateGraph.build grammar .lr1).state id).Sees item terminal := by
    intro item terminal ha
    rcases ha.2 with ⟨hm, -⟩ | ⟨-, hs⟩
    · cases hm
    · exact hs
  have hstart : FinishesStart ((StateGraph.build grammar .lr1).state id) := by
    intro item hi hp
    obtain ⟨old, hk⟩ := @Construction.kept_of_hasItem grammar .lr1 hw id item hi
    have hstate : (StateGraph.build grammar .lr1).state id = _ := hk.state
    rw [hstate] at hi ⊢
    exact (finishesStart_finished hw hk.lt).closure hw item hi hp
  have hreduce : ∀ {item other terminal}, item.production ≠ other.production →
      item.isFinal grammar.toRules = true → other.isFinal grammar.toRules = true →
      ((StateGraph.build grammar .lr1).state id).Sees item terminal →
      ¬ ((StateGraph.build grammar .lr1).state id).Sees other terminal := by
    intro item other terminal hne hfinal hfinal' hs ho
    obtain ⟨word, -, h⟩ := bothReduce_canonical hw
      ⟨fun he => hne (congrArg Item.production he), hfinal, hfinal', terminal, hs, ho⟩
    exact (hlr word).1 item other h
  have hmove : ∀ {item terminal target}, item.isFinal grammar.toRules = true →
      ((StateGraph.build grammar .lr1).state id).Sees item terminal →
      (terminal, target) ∉ (StateGraph.build grammar .lr1).edgesFrom id := by
    intro item terminal target hfinal hs he
    obtain ⟨word, -, h⟩ := reducesOrMoves_canonical hw hsim hfinal hs he
    exact (hlr word).2 item terminal h
  cases hl with
  | accept hi hfinal hp =>
      cases hr with
      | accept => rfl
      | reduce ha hfinal' hp' =>
          exact absurd (hsees ha) (hreduce (fun he => hp' (he ▸ hp)) hfinal hfinal' (hstart _ hi hp))
      | shift => rfl
      | goto => rfl
  | reduce ha hfinal hp =>
      cases hr with
      | accept hi hfinal' hp' =>
          exact absurd (hstart _ hi hp') (hreduce (fun he => hp (he.trans hp')) hfinal hfinal' (hsees ha))
      | reduce ha' hfinal' hp' =>
          simp only [Conflict.between?]
          split
          · rfl
          · rename_i hne
            exact absurd (hsees ha') (hreduce hne hfinal hfinal' (hsees ha))
      | shift he => exact absurd he (hmove hfinal (hsees ha))
      | goto => rfl
  | shift he _ =>
      cases hr with
      | reduce ha hfinal _ => exact absurd he (hmove hfinal (hsees ha))
      | accept | shift | goto => rfl
  | goto he _ => cases hr <;> rfl

theorem conflicts_eq_nil_of_isLR1 (hw : grammar.toRules.WellFormed)
    (hsim : SimulatesCanonical grammar (.build grammar .lr1)) (hlr : grammar.IsLR1) :
    (SyntaxTable.build (.build grammar .lr1) grammar).conflicts = [] := by
  refine conflicts_build_eq_nil fun id symbol left right hl hr => ?_
  exact between?_eq_none_of_isLR1 hw hsim hlr (mem_candidates.mp hl) (mem_candidates.mp hr)

end Conflicts

-- Graphs that have no conflict which the canonical item sets do not have. Where two
-- final items share a lookahead, or a final item has the symbol of an edge for one,
-- they do in a canonical set with the same items.
structure AddsNoConflict (grammar : Grammar) (graph : StateGraph) : Prop where
  bothReduce : ∀ id item other, (graph.state id).BothReduce grammar.toRules item other →
    ∃ word, (grammar.canonical word).cores = (graph.state id).cores ∧
      (grammar.canonical word).BothReduce grammar.toRules item other
  reducesOrMoves : ∀ id item symbol target, item.isFinal grammar.toRules = true →
    (graph.state id).Sees item symbol → graph.follow id symbol = some target →
      ∃ word, (grammar.canonical word).cores = (graph.state id).cores ∧
        (grammar.canonical word).ReducesOrMoves grammar.toRules item symbol
  table : grammar.IsLR1 → (SyntaxTable.build graph grammar).conflicts = []

-- Merging weakly compatible states makes no conflict.
theorem addsNoConflict_build {grammar : Grammar} (hb : grammar.Built) :
    AddsNoConflict grammar (.build grammar .lr1) := by
  have hw := hb.wellFormed
  have hsim : SimulatesCanonical grammar (.build grammar .lr1) :=
    simulates_finishedGraph hw Mode.noConfusion
  constructor
  case bothReduce => exact fun id item other h => bothReduce_canonical hw h
  case reducesOrMoves =>
    intro id item symbol target hfinal hs hfollow
    have he := (lookup_eq_some_iff ((faithful_build hw .lr1).edges_sorted id)).mp hfollow
    exact reducesOrMoves_canonical hw hsim hfinal hs he
  case table => exact conflicts_eq_nil_of_isLR1 hw hsim

theorem addsNoConflict_crossed :
    Rules.crossed.toGrammar.Built ∧
      AddsNoConflict Rules.crossed.toGrammar (.build Rules.crossed.toGrammar .lr1) :=
  ⟨built_crossed, addsNoConflict_build built_crossed⟩

end IncrementalLR
