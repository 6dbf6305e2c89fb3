import IncrementalLR.Automaton.Table
import IncrementalLR.Proofs.Automaton.Merging

namespace IncrementalLR

-- Whether no right side has a symbol of some kind.
def Rules.Avoids (rules : Rules) (kind : Symbol → Bool) : Prop :=
  ∀ id, ∀ symbol ∈ (rules.production id).right, kind (rules.symbol symbol) = false

theorem Rules.avoids_of_all {rules : Rules} {kind : Symbol → Bool}
    (h : (rules.productions.toList.all fun production =>
      production.right.all fun symbol => !kind (rules.symbol symbol)) = true) : rules.Avoids kind := by
  intro id symbol hs
  by_cases hlt : id < rules.productions.size
  · rw [Rules.production, Array.getD_eq_getD_getElem?, Array.getElem?_eq_getElem hlt, Option.getD_some] at hs
    have hall := List.all_eq_true.mp h _ (Array.mem_toList_iff.mpr (Array.getElem_mem hlt))
    simpa using List.all_eq_true.mp hall symbol hs
  · rw [Rules.production, Array.getD_eq_getD_getElem?, Array.getElem?_eq_none (Nat.le_of_not_lt hlt)] at hs
    cases hs

namespace Row

variable {row : Row} {symbol other : Nat} {action : Action}

theorem lookup_set :
    (row.set symbol action).lookup other = if other = symbol then some action else row.lookup other := by
  induction row with
  | nil =>
      rw [set, List.lookup_cons]
      by_cases he : other = symbol
      · simp [he]
      · rw [beq_false_of_ne he, if_neg he]
  | cons first rest ih =>
      obtain ⟨key, held⟩ := first
      unfold set
      by_cases he : other = symbol
      · subst he
        split
        · simp
        · split
          · simp
          · rename_i hne
            rw [List.lookup_cons, beq_false_of_ne hne, if_pos rfl]
            exact ih.trans (if_pos rfl)
      · have hne : (other == symbol) = false := beq_false_of_ne he
        split
        · simp only [List.lookup_cons, hne]
        · split
          · rename_i hs
            subst hs
            simp only [List.lookup_cons, hne]
          · simp only [List.lookup_cons, ih, if_neg he]

theorem lookup_erase :
    (row.erase symbol).lookup other = if other = symbol then none else row.lookup other := by
  induction row with
  | nil => simp [erase]
  | cons first rest ih =>
      obtain ⟨key, held⟩ := first
      rw [erase] at ih ⊢
      by_cases hkey : key = symbol
      · subst hkey
        rw [List.filter_cons_of_neg (by simp), ih]
        split
        · rfl
        · rename_i hne
          rw [List.lookup_cons, beq_false_of_ne hne]
      · rw [List.filter_cons_of_pos (by simpa using hkey), List.lookup_cons, List.lookup_cons, ih]
        by_cases he : other = symbol
        · subst he
          rw [beq_false_of_ne (Ne.symm hkey)]
        · simp only [if_neg he]

theorem lookup_setTo {action : Option Action} :
    (row.setTo symbol action).lookup other = if other = symbol then action else row.lookup other := by
  cases action with
  | none => exact lookup_erase
  | some action => exact lookup_set

end Row

section Resolution

variable {rules : Rules} {state symbol : Nat} {existing incoming : Action} {conflict : Conflict}

theorem Conflict.between?_self (action : Action) : Conflict.between? rules state symbol action action = none := by
  cases action <;> simp [Conflict.between?]

-- A conflict leaves one of its actions in the cell, or none.
theorem resolution_between (h : Conflict.between? rules state symbol existing incoming = some conflict)
    {action : Action} (ha : conflict.resolution.action? = some action) :
    action = existing ∨ action = incoming := by
  have hshift : ∀ production target,
      (Conflict.ofShiftReduce rules state symbol production target).resolution.action? = some action →
        action = .reduce production ∨ action = .shift target := by
    intro production target ha
    unfold Conflict.ofShiftReduce at ha
    dsimp only at ha
    repeat' split at ha
    all_goals simp_all [Resolution.action?]
  have hreduce : ∀ left right,
      (Conflict.ofReduceReduce rules state symbol left right).resolution.action? = some action →
        action = .reduce left ∨ action = .reduce right := by
    intro left right ha
    have hmin : min left right = left ∨ min left right = right := by omega
    unfold Conflict.ofReduceReduce at ha
    dsimp only at ha
    repeat' split at ha
    all_goals simp only [Resolution.action?, Option.some_inj] at ha
    all_goals rcases hmin with hmin | hmin <;> simp_all
  unfold Conflict.between? at h
  split at h
  · exact hshift _ _ (Option.some_inj.mp h ▸ ha)
  · exact (hshift _ _ (Option.some_inj.mp h ▸ ha)).symm
  · split at h
    · cases h
    · exact hreduce _ _ (Option.some_inj.mp h ▸ ha)
  · rw [← Option.some_inj.mp h] at ha
    exact Or.inl (Option.some_inj.mp ha).symm
  · rw [← Option.some_inj.mp h] at ha
    exact Or.inr (Option.some_inj.mp ha).symm
  · cases h

end Resolution

namespace Filling

variable {rules : Rules} {state symbol : Nat} {filling : Filling} {cells : List (Nat × Action)} {actions : List Action}
  {held : Option Action} {action incoming : Action}

-- What is in a cell after one more action has come to it.
def settle (rules : Rules) (state symbol : Nat) (held : Option Action) (incoming : Action) : Option Action :=
  match held with
  | none => some incoming
  | some existing =>
      match Conflict.between? rules state symbol existing incoming with
      | none => some existing
      | some conflict => conflict.resolution.action?

-- The actions that come to the cell of a symbol.
def actionsOn (symbol : Nat) (cells : List (Nat × Action)) : List Action :=
  (cells.filter (·.1 == symbol)).map (·.2)

theorem mem_actionsOn : action ∈ actionsOn symbol cells ↔ (symbol, action) ∈ cells := by
  simp [actionsOn]

theorem actionsOn_append (others : List (Nat × Action)) :
    actionsOn symbol (cells ++ others) = actionsOn symbol cells ++ actionsOn symbol others := by
  simp [actionsOn]

theorem lookup_install_self (incoming : Action) :
    (filling.install rules state (symbol, incoming)).row.lookup symbol =
      settle rules state symbol (filling.row.lookup symbol) incoming := by
  unfold install settle
  cases hheld : filling.row.lookup symbol with
  | none => exact Row.lookup_set.trans (if_pos rfl)
  | some existing =>
      dsimp only
      cases Conflict.between? rules state symbol existing incoming with
      | none => exact hheld
      | some conflict => exact Row.lookup_setTo.trans (if_pos rfl)

theorem lookup_install_ne {cell : Nat × Action} (hne : cell.1 ≠ symbol) :
    (filling.install rules state cell).row.lookup symbol = filling.row.lookup symbol := by
  unfold install
  split
  · rw [Row.lookup_set, if_neg (Ne.symm hne)]
  · split
    · rfl
    · rw [Row.lookup_setTo, if_neg (Ne.symm hne)]

-- A cell is settled by the actions that come to it, in their order.
theorem lookup_foldl_install_eq :
    (cells.foldl (install rules state) filling).row.lookup symbol =
      (actionsOn symbol cells).foldl (settle rules state symbol) (filling.row.lookup symbol) := by
  induction cells generalizing filling with
  | nil => rfl
  | cons cell rest ih =>
      obtain ⟨other, incoming⟩ := cell
      rw [List.foldl_cons, ih]
      by_cases he : other = symbol
      · subst he
        rw [lookup_install_self]
        simp [actionsOn]
      · rw [lookup_install_ne he]
        simp [actionsOn, he]

-- What is in a cell was there before or has come to it.
theorem settle_eq_some (h : settle rules state symbol held incoming = some action) :
    held = some action ∨ action = incoming := by
  unfold settle at h
  split at h
  · exact Or.inr (Option.some_inj.mp h).symm
  · split at h
    · exact Or.inl h
    · rename_i conflict hconflict
      exact (resolution_between hconflict h).imp_left fun he => congrArg some he.symm

theorem foldl_settle_eq_some (h : actions.foldl (settle rules state symbol) held = some action) :
    held = some action ∨ action ∈ actions := by
  induction actions generalizing held with
  | nil => exact Or.inl h
  | cons first rest ih =>
      rcases ih h with h | h
      · rcases settle_eq_some h with h | rfl
        · exact Or.inl h
        · exact Or.inr List.mem_cons_self
      · exact Or.inr (List.mem_cons_of_mem _ h)

theorem lookup_install {cell : Nat × Action}
    (h : (filling.install rules state cell).row.lookup symbol = some action) :
    filling.row.lookup symbol = some action ∨ (symbol, action) = cell := by
  by_cases he : cell.1 = symbol
  · subst he
    rw [lookup_install_self] at h
    exact (settle_eq_some h).imp_right fun he => by rw [he]
  · rw [lookup_install_ne he] at h
    exact Or.inl h

-- A cell with one candidate keeps it.
theorem foldl_settle_of_only (honly : ∀ other ∈ actions, other = action)
    (h : held = some action ∨ held = none ∧ action ∈ actions) :
    actions.foldl (settle rules state symbol) held = some action := by
  induction actions generalizing held with
  | nil => exact h.resolve_right fun h => nomatch h.2
  | cons first rest ih =>
      obtain ⟨rfl, hrest⟩ := List.forall_mem_cons.mp honly
      refine ih hrest (Or.inl ?_)
      rcases h with rfl | ⟨rfl, -⟩
      · rw [settle, Conflict.between?_self]
      · rfl

theorem conflicts_foldl_install (h : (cells.foldl (install rules state) filling).conflicts = []) :
    filling.conflicts = [] := by
  induction cells generalizing filling with
  | nil => exact h
  | cons cell rest ih =>
      have hc := ih h
      unfold install at hc
      split at hc
      · exact hc
      · split at hc
        · exact hc
        · simp at hc

-- An action that is in its cell stays there as long as nothing is in conflict.
theorem lookup_foldl_of_held {held : Action} (h : filling.row.lookup symbol = some held)
    (hc : (cells.foldl (install rules state) filling).conflicts = []) :
    (cells.foldl (install rules state) filling).row.lookup symbol = some held := by
  induction cells generalizing filling with
  | nil => exact h
  | cons cell rest ih =>
      refine ih ?_ hc
      have hnone : (filling.install rules state cell).conflicts = [] := conflicts_foldl_install hc
      by_cases he : cell.1 = symbol
      · obtain rfl := he
        unfold install at hnone ⊢
        rw [h] at hnone ⊢
        dsimp only at hnone ⊢
        split at hnone
        · exact h
        · simp at hnone
      · rw [lookup_install_ne he]
        exact h

-- Actions that meet in one cell without a conflict are the same, unless a final
-- item meets an edge of the wrong kind.
def Apart (rules : Rules) (state : Nat) (cells : List (Nat × Action)) (symbol : Nat) : Prop :=
  ∀ left right, (symbol, left) ∈ cells → (symbol, right) ∈ cells →
    Conflict.between? rules state symbol left right = none → left = right

theorem lookup_foldl_of_noConflict (hapart : Apart rules state cells symbol)
    (hheld : ∀ action, filling.row.lookup symbol = some action → (symbol, action) ∈ cells)
    {rest : List (Nat × Action)} (hrest : ∀ cell ∈ rest, cell ∈ cells)
    (hc : (rest.foldl (install rules state) filling).conflicts = []) (hmem : (symbol, action) ∈ rest) :
    (rest.foldl (install rules state) filling).row.lookup symbol = some action := by
  induction rest generalizing filling with
  | nil => cases hmem
  | cons cell rest ih =>
      rw [List.foldl_cons] at hc ⊢
      have hnone : (filling.install rules state cell).conflicts = [] := conflicts_foldl_install hc
      rcases List.mem_cons.mp hmem with rfl | hmem
      · have hcell : (filling.install rules state (symbol, action)).row.lookup symbol = some action := by
          unfold install at hnone ⊢
          split
          · rw [Row.lookup_set, if_pos rfl]
          · rename_i existing hexisting
            rw [hexisting] at hnone
            split
            · rename_i hbetween
              rw [hexisting, hapart existing action (hheld _ hexisting) (hrest _ List.mem_cons_self) hbetween]
            · rename_i conflict hbetween
              simp [hbetween] at hnone
        exact lookup_foldl_of_held hcell hc
      · refine ih (fun held h => ?_) (fun other ho => hrest other (List.mem_cons_of_mem _ ho)) hc hmem
        rcases lookup_install h with h | h
        · exact hheld held h
        · exact h ▸ hrest cell List.mem_cons_self

end Filling

section Table

variable {grammar : Grammar} {graph : StateGraph} {state symbol : Nat} {action : Action}

theorem Valid.terminal {rules : Rules} (hw : rules.WellFormed) {spelled : List Nat} {item : Item}
    {terminal : Nat} (hv : Valid rules spelled item terminal) : terminal ∈ rules.terminals := by
  induction hv with
  | start =>
      refine Rules.mem_terminals.mpr ⟨hw.finish_lt, ?_, by decide⟩
      rw [hw.symbol_finish]
      rfl
  | advanced _ _ ih => exact ih
  | begun _ _ hb => exact hb.mem_terminals
  | passed _ _ _ ih => exact ih

-- Whether a state may reduce by an item on a terminal.
def Admits (grammar : Grammar) (graph : StateGraph) (state : Nat) (item : Item) (terminal : Nat) :
    Prop :=
  (graph.state state).HasItem item ∧
    (graph.mode = .lr0 ∧ terminal ∈ grammar.terminals ∧
        (grammar.symbol terminal).isWildcard = false ∨
      graph.mode ≠ .lr0 ∧ (graph.state state).Sees item terminal)

theorem admits_iff {item : Item} {lookahead : SymbolSet} {terminal : Nat}
    (hmem : (item, lookahead) ∈ (graph.state state).entries) :
    Admits grammar graph state item terminal ↔
      terminal ∈ SyntaxTable.reduceSymbols grammar graph.mode lookahead := by
  have hitem : (graph.state state).HasItem item := ItemSet.hasItem_of_mem hmem
  unfold Admits SyntaxTable.reduceSymbols
  rw [ItemSet.sees_iff hmem]
  by_cases hm : graph.mode = .lr0
  · simp [hm, hitem]
  · simp [hm, hitem, SymbolSet.mem_def]

theorem Admits.terminal (hw : grammar.toRules.WellFormed) (hf : Faithful grammar graph) {item : Item}
    {terminal : Nat} (ha : Admits grammar graph state item terminal) : terminal ∈ grammar.terminals := by
  rcases ha.2 with ⟨-, h, -⟩ | ⟨-, h⟩
  · exact h
  · obtain ⟨spelled, hv⟩ := hf.justified state item terminal h
    exact hv.terminal hw

-- What a candidate for a cell stands for: a final item, or an edge.
inductive Candidate (grammar : Grammar) (graph : StateGraph) (state : Nat) : Nat → Action → Prop where
  | accept {item : Item} : (graph.state state).HasItem item →
      item.isFinal grammar.toRules = true → item.production = startProduction →
      Candidate grammar graph state finishId .accept
  | reduce {item : Item} {terminal : Nat} : Admits grammar graph state item terminal →
      item.isFinal grammar.toRules = true → item.production ≠ startProduction →
      Candidate grammar graph state terminal (.reduce item.production)
  | shift {terminal target : Nat} : (terminal, target) ∈ graph.edgesFrom state →
      (grammar.symbol terminal).isNonterminal = false →
      Candidate grammar graph state terminal (.shift target)
  | goto {nonterminal target : Nat} : (nonterminal, target) ∈ graph.edgesFrom state →
      (grammar.symbol nonterminal).isNonterminal = true →
      Candidate grammar graph state nonterminal (.goto target)

theorem mem_finalCells {entry : Entry} :
    (symbol, action) ∈ SyntaxTable.finalCells grammar graph.mode entry ↔
      entry.1.isFinal grammar.toRules = true ∧
        (entry.1.production = startProduction ∧ symbol = finishId ∧ action = .accept ∨
          entry.1.production ≠ startProduction ∧
            symbol ∈ SyntaxTable.reduceSymbols grammar graph.mode entry.2 ∧
            action = .reduce entry.1.production) := by
  unfold SyntaxTable.finalCells
  by_cases hf : entry.1.isFinal grammar.toRules = true
  · by_cases hs : entry.1.production = startProduction
    · simp [hf, hs]
    · simp only [hf, Bool.not_true, Bool.false_eq_true, if_false, hs, List.mem_map, Prod.mk.injEq,
        true_and, false_and, false_or, ne_eq, not_false_eq_true]
      constructor
      · rintro ⟨terminal, hmem, rfl, rfl⟩
        exact ⟨hmem, rfl⟩
      · rintro ⟨hmem, rfl⟩
        exact ⟨symbol, hmem, rfl, rfl⟩
  · simp [hf]

theorem mem_candidates :
    (symbol, action) ∈ SyntaxTable.candidates grammar graph state ↔
      Candidate grammar graph state symbol action := by
  unfold SyntaxTable.candidates
  rw [List.mem_append, List.mem_flatMap, List.mem_map]
  constructor
  · rintro (⟨entry, hmem, hcell⟩ | ⟨⟨X, target⟩, hedge, he⟩)
    · obtain ⟨hfinal, ⟨hp, rfl, rfl⟩ | ⟨hp, hsymbol, rfl⟩⟩ := mem_finalCells.mp hcell
      · exact .accept (ItemSet.hasItem_of_mem hmem) hfinal hp
      · exact .reduce ((admits_iff hmem).mpr hsymbol) hfinal hp
    · unfold SyntaxTable.edgeCell at he
      cases hn : (grammar.symbol X).isNonterminal with
      | false =>
          simp only [hn, Bool.false_eq_true, if_false, Prod.mk.injEq] at he
          obtain ⟨rfl, rfl⟩ := he
          exact .shift hedge hn
      | true =>
          simp only [hn, if_true, Prod.mk.injEq] at he
          obtain ⟨rfl, rfl⟩ := he
          exact .goto hedge hn
  · intro hc
    cases hc with
    | accept hi hfinal hp =>
        obtain ⟨lookahead, hmem⟩ := ItemSet.hasItem_iff.mp hi
        exact Or.inl ⟨_, hmem, mem_finalCells.mpr ⟨hfinal, Or.inl ⟨hp, rfl, rfl⟩⟩⟩
    | reduce ha hfinal hp =>
        obtain ⟨lookahead, hmem⟩ := ItemSet.hasItem_iff.mp ha.1
        exact Or.inl ⟨_, hmem, mem_finalCells.mpr ⟨hfinal, Or.inr ⟨hp, (admits_iff hmem).mp ha, rfl⟩⟩⟩
    | shift hedge hn => exact Or.inr ⟨_, hedge, by simp [SyntaxTable.edgeCell, hn]⟩
    | goto hedge hn => exact Or.inr ⟨_, hedge, by simp [SyntaxTable.edgeCell, hn]⟩

theorem action?_build :
    (SyntaxTable.build graph grammar).action? state symbol =
      if state < graph.size then (SyntaxTable.fill grammar graph state).row.lookup symbol else none := by
  unfold SyntaxTable.action? SyntaxTable.row SyntaxTable.build
  simp only [Array.getD_eq_getD_getElem?, List.getElem?_toArray, List.getElem?_map]
  by_cases hlt : state < graph.size
  · simp [hlt]
  · simp [hlt]

-- Whatever is in a cell was a candidate for it, also after conflicts.
theorem candidate_of_action? (h : (SyntaxTable.build graph grammar).action? state symbol = some action) :
    Candidate grammar graph state symbol action := by
  rw [action?_build] at h
  split at h
  · rw [SyntaxTable.fill, Filling.lookup_foldl_install_eq] at h
    exact mem_candidates.mp (Filling.mem_actionsOn.mp ((Filling.foldl_settle_eq_some h).resolve_left nofun))
  · cases h

theorem edge_of_goto? {target : Nat} (h : (SyntaxTable.build graph grammar).goto? state symbol = some target) :
    (symbol, target) ∈ graph.edgesFrom state := by
  rw [SyntaxTable.goto?] at h
  split at h
  · rename_i goto haction
    cases candidate_of_action? haction with
    | goto he _ => exact Option.some_inj.mp h ▸ he
  · cases h

theorem lt_size_of_edge (hf : Faithful grammar graph) {target : Nat}
    (he : (symbol, target) ∈ graph.edgesFrom state) : state < graph.size := by
  by_contra hn
  obtain ⟨item, hi, -⟩ := hf.edge_next state symbol target he
  rw [StateGraph.state_ge (Nat.not_lt.mp hn)] at hi
  exact ItemSet.not_hasItem_empty hi

theorem Candidate.terminal (hw : grammar.toRules.WellFormed) (hf : Faithful grammar graph) {production : Nat}
    (hc : Candidate grammar graph state symbol (.reduce production)) :
    (grammar.symbol symbol).isNonterminal = false := by
  cases hc with
  | reduce ha _ _ => simpa [Symbol.isTerminal] using (Rules.mem_terminals.mp (ha.terminal hw hf)).2.1

theorem Candidate.lt_size (hf : Faithful grammar graph) (hc : Candidate grammar graph state symbol action) :
    state < graph.size := by
  have hitem : ∀ {item : Item}, (graph.state state).HasItem item → state < graph.size := by
    intro item hi
    by_contra hn
    rw [StateGraph.state_ge (Nat.not_lt.mp hn)] at hi
    exact ItemSet.not_hasItem_empty hi
  cases hc with
  | accept hi _ _ => exact hitem hi
  | reduce ha _ _ => exact hitem ha.1
  | shift he _ => exact lt_size_of_edge hf he
  | goto he _ => exact lt_size_of_edge hf he

-- What is in a cell is what its candidates come to, one after another.
theorem action?_eq_foldl (hf : Faithful grammar graph) :
    (SyntaxTable.build graph grammar).action? state symbol =
      (Filling.actionsOn symbol (SyntaxTable.candidates grammar graph state)).foldl
        (Filling.settle grammar.toRules state symbol) none := by
  rw [action?_build]
  split
  · exact Filling.lookup_foldl_install_eq
  · rename_i hge
    have hnil : Filling.actionsOn symbol (SyntaxTable.candidates grammar graph state) = [] := by
      refine List.eq_nil_iff_forall_not_mem.mpr fun action h => hge ?_
      exact (mem_candidates.mp (Filling.mem_actionsOn.mp h)).lt_size hf
    rw [hnil]
    rfl

-- A candidate that has no rival holds its cell.
theorem action?_of_only (hf : Faithful grammar graph) (hc : Candidate grammar graph state symbol action)
    (honly : ∀ other, Candidate grammar graph state symbol other → other = action) :
    (SyntaxTable.build graph grammar).action? state symbol = some action := by
  rw [action?_eq_foldl hf]
  exact Filling.foldl_settle_of_only (fun other h => honly other (mem_candidates.mp (Filling.mem_actionsOn.mp h)))
    (Or.inr ⟨rfl, Filling.mem_actionsOn.mpr (mem_candidates.mpr hc)⟩)

theorem actionsOn_edges (hf : Faithful grammar graph) (hterminal : (grammar.symbol terminal).isNonterminal = false) :
    Filling.actionsOn terminal ((graph.edgesFrom state).map (SyntaxTable.edgeCell grammar)) =
      ((graph.follow state terminal).map Action.shift).toList := by
  rw [Filling.actionsOn, List.filter_map, List.map_map]
  change ((graph.edgesFrom state).filter (·.1 == terminal)).map (fun edge => (SyntaxTable.edgeCell grammar edge).2) = _
  rw [filter_edges (hf.edges_sorted state), StateGraph.follow]
  cases (graph.edgesFrom state).lookup terminal with
  | none => rfl
  | some target => simp [SyntaxTable.edgeCell, hterminal]

-- No declaration and no conflict touches the cells of nonterminals.
theorem goto?_of_edge (hw : grammar.toRules.WellFormed) (hf : Faithful grammar graph) {target : Nat}
    (he : (symbol, target) ∈ graph.edgesFrom state) (hn : (grammar.symbol symbol).isNonterminal = true) :
    (SyntaxTable.build graph grammar).goto? state symbol = some target := by
  have haction : (SyntaxTable.build graph grammar).action? state symbol = some (.goto target) := by
    refine action?_of_only hf (.goto he hn) fun other hc => ?_
    cases hc with
    | accept =>
        rw [hw.symbol_finish] at hn
        cases hn
    | reduce ha hfinal hp =>
        rw [Candidate.terminal hw hf (.reduce ha hfinal hp)] at hn
        cases hn
    | shift _ h =>
        rw [h] at hn
        cases hn
    | goto hedge => rw [Construction.target_unique (hf.edges_sorted state) he hedge]
  rw [SyntaxTable.goto?, haction]

-- An edge over the end of input would take part in no conflict with accepting.
theorem no_edge_finish (hw : grammar.toRules.WellFormed) (hf : Faithful grammar graph)
    (hfinish : grammar.toRules.Avoids (· == .finish)) {target : Nat} :
    (finishId, target) ∉ graph.edgesFrom state := by
  intro he
  obtain ⟨item, -, hn⟩ := hf.edge_next state finishId target he
  have h := hfinish item.production finishId (Item.next?_mem hn)
  rw [hw.symbol_finish] at h
  cases h

-- Final items ask for nothing but reductions and accepting.
theorem accept_or_reduce_of_mem {entries : List Entry}
    (h : (symbol, action) ∈ entries.flatMap (SyntaxTable.finalCells grammar graph.mode)) :
    action = .accept ∨ ∃ production, action = .reduce production := by
  obtain ⟨entry, -, hcell⟩ := List.mem_flatMap.mp h
  rcases (mem_finalCells.mp hcell).2 with ⟨-, -, rfl⟩ | ⟨-, -, rfl⟩
  · exact Or.inl rfl
  · exact Or.inr ⟨_, rfl⟩

-- Final items that meet on one terminal are in conflict.
theorem apart_finalCells {entries : List Entry} : Filling.Apart grammar.toRules state
    (entries.flatMap (SyntaxTable.finalCells grammar graph.mode)) symbol := by
  intro left right hl hr hnone
  rcases accept_or_reduce_of_mem hl with rfl | ⟨production, rfl⟩
  · rcases accept_or_reduce_of_mem hr with rfl | ⟨production, rfl⟩
    · rfl
    · cases hnone
  · rcases accept_or_reduce_of_mem hr with rfl | ⟨other, rfl⟩
    · cases hnone
    · simp only [Conflict.between?] at hnone
      split at hnone
      · rename_i he
        rw [he]
      · cases hnone

-- So are edges that meet final items, but for one over the end of input.
theorem apart_candidates (hw : grammar.toRules.WellFormed) (hf : Faithful grammar graph) (hne : symbol ≠ finishId) :
    Filling.Apart grammar.toRules state (SyntaxTable.candidates grammar graph state) symbol := by
  intro left right hl hr hnone
  have hl := mem_candidates.mp hl
  have hr := mem_candidates.mp hr
  cases hl with
  | accept => exact absurd rfl hne
  | reduce ha hfinal hp =>
      have hn := Candidate.terminal hw hf (.reduce ha hfinal hp)
      cases hr with
      | accept => cases hnone
      | reduce =>
          simp only [Conflict.between?] at hnone
          split at hnone
          · rename_i he
            rw [he]
          · cases hnone
      | shift => cases hnone
      | goto _ h =>
          rw [hn] at h
          cases h
  | shift he hn =>
      cases hr with
      | accept => exact absurd rfl hne
      | reduce => cases hnone
      | shift ho => rw [Construction.target_unique (hf.edges_sorted state) he ho]
      | goto _ h =>
          rw [hn] at h
          cases h
  | goto he hn =>
      cases hr with
      | accept => exact absurd rfl hne
      | reduce ha hfinal hp =>
          rw [Candidate.terminal hw hf (.reduce ha hfinal hp)] at hn
          cases hn
      | shift _ h =>
          rw [hn] at h
          cases h
      | goto ho => rw [Construction.target_unique (hf.edges_sorted state) he ho]

-- Without conflicts every candidate has its cell, unless the end of input is to be
-- shifted: accepting comes first there.
theorem action?_of_unfinished (hw : grammar.toRules.WellFormed) (hf : Faithful grammar graph)
    (hc : (SyntaxTable.build graph grammar).conflicts = []) (h : Candidate grammar graph state symbol action)
    (hshift : ∀ target, action = .shift target → symbol ≠ finishId) :
    (SyntaxTable.build graph grammar).action? state symbol = some action := by
  have hlt : state < graph.size := h.lt_size hf
  have hstate : (SyntaxTable.fill grammar graph state).conflicts = [] :=
    List.flatMap_eq_nil_iff.mp hc _ (List.mem_map.mpr ⟨state, List.mem_range.mpr hlt, rfl⟩)
  have hcell : symbol ≠ finishId → (SyntaxTable.fill grammar graph state).row.lookup symbol = some action :=
    fun hne => Filling.lookup_foldl_of_noConflict (apart_candidates hw hf hne) (fun _ h => by cases h) (fun _ h => h)
      hstate (mem_candidates.mpr h)
  -- final items come before the edges
  have hfinal : (symbol, action) ∈ (graph.state state).entries.flatMap (SyntaxTable.finalCells grammar graph.mode) →
      (SyntaxTable.fill grammar graph state).row.lookup symbol = some action := by
    intro hmem
    unfold SyntaxTable.fill SyntaxTable.candidates at hstate ⊢
    rw [List.foldl_append] at hstate ⊢
    refine Filling.lookup_foldl_of_held ?_ hstate
    exact Filling.lookup_foldl_of_noConflict apart_finalCells (fun _ h => by cases h) (fun _ h => h)
      (Filling.conflicts_foldl_install hstate) hmem
  rw [action?_build, if_pos hlt]
  cases h with
  | accept hi hfinal' hp =>
      obtain ⟨lookahead, hmem⟩ := ItemSet.hasItem_iff.mp hi
      exact hfinal (List.mem_flatMap.mpr ⟨_, hmem, mem_finalCells.mpr ⟨hfinal', Or.inl ⟨hp, rfl, rfl⟩⟩⟩)
  | reduce ha hfinal' hp =>
      obtain ⟨lookahead, hmem⟩ := ItemSet.hasItem_iff.mp ha.1
      exact hfinal (List.mem_flatMap.mpr ⟨_, hmem, mem_finalCells.mpr ⟨hfinal', Or.inr ⟨hp, (admits_iff hmem).mp ha, rfl⟩⟩⟩)
  | shift he hn => exact hcell (hshift _ rfl)
  | goto he hn =>
      refine hcell fun he => ?_
      rw [he, hw.symbol_finish] at hn
      cases hn

theorem action?_of_candidate (hw : grammar.toRules.WellFormed) (hf : Faithful grammar graph)
    (hfinish : grammar.toRules.Avoids (· == .finish))
    (hc : (SyntaxTable.build graph grammar).conflicts = [])
    (h : Candidate grammar graph state symbol action) :
    (SyntaxTable.build graph grammar).action? state symbol = some action := by
  refine action?_of_unfinished hw hf hc h fun target hshift he => ?_
  obtain rfl := hshift
  cases h with
  | shift hedge => exact no_edge_finish hw hf hfinish (he ▸ hedge)

end Table

end IncrementalLR
