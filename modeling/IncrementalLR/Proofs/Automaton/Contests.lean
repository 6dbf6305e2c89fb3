import IncrementalLR.Proofs.Automaton.Cells

namespace IncrementalLR

namespace Filling

variable {rules : Rules} {state symbol : Nat} {filling : Filling} {cells rest : List (Nat × Action)}
  {conflict : Conflict}

-- A conflict is one of two candidates for a cell.
theorem mem_conflicts_foldl (hheld : ∀ symbol action, filling.row.lookup symbol = some action → (symbol, action) ∈ cells)
    (hrest : ∀ cell ∈ rest, cell ∈ cells) (h : conflict ∈ (rest.foldl (install rules state) filling).conflicts) :
    conflict ∈ filling.conflicts ∨ ∃ symbol left right, (symbol, left) ∈ cells ∧ (symbol, right) ∈ cells ∧
      Conflict.between? rules state symbol left right = some conflict := by
  induction rest generalizing filling with
  | nil => exact Or.inl h
  | cons cell rest ih =>
      have hcell := hrest cell List.mem_cons_self
      have hinstalled : ∀ symbol action, (filling.install rules state cell).row.lookup symbol = some action →
          (symbol, action) ∈ cells := by
        intro symbol action h
        rcases lookup_install h with h | h
        · exact hheld symbol action h
        · exact h ▸ hcell
      rcases ih hinstalled (fun other ho => hrest other (List.mem_cons_of_mem _ ho)) h with h | h
      · unfold install at h
        split at h
        · exact Or.inl h
        · rename_i existing hexisting
          split at h
          · exact Or.inl h
          · rename_i met hmet
            rcases List.mem_append.mp h with h | h
            · exact Or.inl h
            · obtain rfl := List.mem_singleton.mp h
              exact Or.inr ⟨cell.1, existing, cell.2, hheld _ _ hexisting, hcell, hmet⟩
      · exact Or.inr h

end Filling

section

variable {grammar : Grammar} {graph : StateGraph} {state symbol target production : Nat} {action : Action}
  {conflict : Conflict}

theorem mem_conflicts_build (h : conflict ∈ (SyntaxTable.build graph grammar).conflicts) :
    ∃ state symbol left right, state < graph.size ∧ Candidate grammar graph state symbol left ∧
      Candidate grammar graph state symbol right ∧
      Conflict.between? grammar.toRules state symbol left right = some conflict := by
  obtain ⟨filling, hfilling, hmem⟩ := List.mem_flatMap.mp h
  obtain ⟨state, hstate, rfl⟩ := List.mem_map.mp hfilling
  rcases Filling.mem_conflicts_foldl (fun symbol action h => by cases h) (fun _ h => h) hmem with h | h
  · cases h
  · obtain ⟨symbol, left, right, hleft, hright, hbetween⟩ := h
    exact ⟨state, symbol, left, right, List.mem_range.mp hstate, mem_candidates.mp hleft, mem_candidates.mp hright,
      hbetween⟩

-- Where a reduction competes with a shift, and with nothing else, their precedences decide.
theorem action?_of_contested (hf : Faithful grammar graph)
    (hreduce : Candidate grammar graph state symbol (.reduce production))
    (hshift : Candidate grammar graph state symbol (.shift target))
    (honly : ∀ other, Candidate grammar graph state symbol other → other = .reduce production ∨ other = .shift target) :
    (SyntaxTable.build graph grammar).action? state symbol =
      (Conflict.ofShiftReduce grammar.toRules state symbol production target).resolution.action? := by
  have hfollow : graph.follow state symbol = some target ∧ (grammar.symbol symbol).isNonterminal = false := by
    cases hshift with
    | shift he hn => exact ⟨(lookup_eq_some_iff (hf.edges_sorted state)).mpr he, hn⟩
  rw [action?_eq_foldl hf, SyntaxTable.candidates, Filling.actionsOn_append, List.foldl_append,
    actionsOn_edges hf hfollow.2, hfollow.1]
  -- the final items come first, and among them the production is alone
  have hfinals : (Filling.actionsOn symbol ((graph.state state).entries.flatMap
      (SyntaxTable.finalCells grammar graph.mode))).foldl (Filling.settle grammar.toRules state symbol) none =
        some (.reduce production) := by
    refine Filling.foldl_settle_of_only (fun action h => ?_) (Or.inr ⟨rfl, ?_⟩)
    · have hcell := Filling.mem_actionsOn.mp h
      refine (honly action (mem_candidates.mp (List.mem_append_left _ hcell))).resolve_right fun hs => ?_
      subst hs
      rcases accept_or_reduce_of_mem hcell with he | ⟨other, he⟩
      · cases he
      · cases he
    · refine Filling.mem_actionsOn.mpr ((List.mem_append.mp (mem_candidates.mpr hreduce)).resolve_right fun h => ?_)
      obtain ⟨edge, -, he⟩ := List.mem_map.mp h
      unfold SyntaxTable.edgeCell at he
      split at he
      · cases (Prod.mk.inj he).2
      · cases (Prod.mk.inj he).2
  rw [hfinals]
  rfl

end

end IncrementalLR
