import IncrementalLR.Proofs.Automaton.CoreMerging

namespace IncrementalLR

namespace Rules

variable (rules : Rules)

-- The item of a production with its dot behind the whole right side.
def finalItem (production : Nat) : Item := ⟨production, (rules.production production).right.length⟩

-- Of two productions the one of the higher level wins, if both have a precedence and the
-- levels differ. Otherwise the one that was declared first wins.
def stronger (left right : Nat) : Nat :=
  match rules.productionPrecedence left, rules.productionPrecedence right with
  | some first, some second =>
      if second.level < first.level then left
      else if first.level < second.level then right
      else min left right
  | _, _ => min left right

-- The production that is left when each one meets the winner of those before it.
def strongest? : List Nat → Option Nat
  | [] => none
  | first :: rest => some (rest.foldl rules.stronger first)

-- What becomes of a production and an edge over a terminal, by their precedences.
def decided? (terminal production target : Nat) : Option Action :=
  match rules.precedenceOf terminal, rules.productionPrecedence production with
  | some token, some rule =>
      if rule.level < token.level then some (.shift target)
      else if token.level < rule.level then some (.reduce production)
      else
        match token.assoc with
        | .left => some (.reduce production)
        | .right => some (.shift target)
        | .nonassoc => none
  | _, _ => some (.shift target)

end Rules

instance (set : ItemSet) (item : Item) : Decidable (set.HasItem item) :=
  inferInstanceAs (Decidable (item ∈ set.cores))

namespace StateGraph

variable (graph : StateGraph) (grammar : Grammar) (state terminal : Nat)

-- Whether the final item of a production is in a state and has a terminal in its
-- lookahead. Without lookaheads it has every terminal but the wildcards.
def reducesOn (production : Nat) : Bool :=
  match (graph.state state).lookahead? (grammar.finalItem production) with
  | some lookahead =>
      if graph.mode = .lr0 then !(grammar.symbol terminal).isWildcard else decide (terminal ∈ lookahead)
  | none => false

-- The productions by which a state may reduce, in the order of their declaration.
def reductions : List Nat :=
  grammar.productionIds.filter fun production =>
    production != startProduction && graph.reducesOn grammar state terminal production

-- What is to be in the cell of a terminal. Accepting comes before everything else, and
-- an edge meets the one production that is left of all.
def settled? : Option Action :=
  if terminal = finishId ∧ (graph.state state).HasItem (grammar.finalItem startProduction) then some .accept
  else
    match grammar.strongest? (graph.reductions grammar state terminal), graph.follow state terminal with
    | none, target => target.map .shift
    | some production, none => some (.reduce production)
    | some production, some target => grammar.decided? terminal production target

end StateGraph

namespace Conflict

variable {rules : Rules} {state symbol : Nat}

theorem action?_ofReduceReduce (left right : Nat) :
    (ofReduceReduce rules state symbol left right).resolution.action? = some (.reduce (rules.stronger left right)) := by
  unfold ofReduceReduce Rules.stronger
  cases rules.productionPrecedence left with
  | none => rfl
  | some first =>
      cases rules.productionPrecedence right with
      | none => rfl
      | some second =>
          dsimp only
          split
          · rfl
          · split <;> rfl

theorem action?_ofShiftReduce (production target : Nat) :
    (ofShiftReduce rules state symbol production target).resolution.action? =
      rules.decided? symbol production target := by
  unfold ofShiftReduce Rules.decided?
  cases rules.precedenceOf symbol with
  | none => rfl
  | some token =>
      cases rules.productionPrecedence production with
      | none => rfl
      | some rule =>
          dsimp only
          split
          · rfl
          · split
            · rfl
            · cases token.assoc <;> rfl

end Conflict

theorem Rules.stronger_self (rules : Rules) (production : Nat) : rules.stronger production production = production := by
  unfold stronger
  split <;> simp

namespace Filling

variable {rules : Rules} {state symbol : Nat} {actions : List Action} {productions : List Nat}

-- Nothing takes the place of accepting, and accepting takes that of a reduction.
theorem foldl_settle_of_accept : actions.foldl (settle rules state symbol) (some .accept) = some .accept := by
  induction actions with
  | nil => rfl
  | cons first rest ih =>
      have hfirst : settle rules state symbol (some .accept) first = some .accept := by
        cases first <;> rfl
      rw [List.foldl_cons, hfirst, ih]

theorem foldl_settle_accept
    (hactions : ∀ action ∈ actions, action = .accept ∨ ∃ production, action = .reduce production)
    (hmem : .accept ∈ actions) : actions.foldl (settle rules state symbol) none = some .accept := by
  obtain ⟨front, back, rfl⟩ := List.append_of_mem hmem
  have hfront : settle rules state symbol (front.foldl (settle rules state symbol) none) .accept = some .accept := by
    cases hheld : front.foldl (settle rules state symbol) none with
    | none => rfl
    | some action =>
        have haction := (foldl_settle_eq_some hheld).resolve_left nofun
        obtain rfl | ⟨production, rfl⟩ := hactions action (List.mem_append_left _ haction)
        · rfl
        · rfl
  rw [List.foldl_append, List.foldl_cons, hfront, foldl_settle_of_accept]

theorem settle_reduce (left right : Nat) :
    settle rules state symbol (some (.reduce left)) (.reduce right) = some (.reduce (rules.stronger left right)) := by
  unfold settle Conflict.between?
  by_cases he : left = right
  · subst he
    simp [Rules.stronger_self]
  · simp [he, Conflict.action?_ofReduceReduce]

theorem settle_shift (production target : Nat) :
    settle rules state symbol (some (.reduce production)) (.shift target) = rules.decided? symbol production target :=
  Conflict.action?_ofShiftReduce production target

theorem foldl_settle_reduce : (productions.map Action.reduce).foldl (settle rules state symbol) none =
    (rules.strongest? productions).map .reduce := by
  have hfold : ∀ (rest : List Nat) (first : Nat),
      (rest.map Action.reduce).foldl (settle rules state symbol) (some (.reduce first)) =
        some (.reduce (rest.foldl rules.stronger first)) := by
    intro rest
    induction rest with
    | nil => exact fun first => rfl
    | cons next rest ih =>
        intro first
        rw [List.map_cons, List.foldl_cons, settle_reduce, ih, List.foldl_cons]
  cases productions with
  | nil => rfl
  | cons first rest => exact hfold rest first

end Filling

section Candidates

variable {grammar : Grammar} {mode : Mode} {graph : StateGraph} {state symbol terminal production : Nat} {item : Item}
  {action : Action}

theorem StateGraph.reached_build (hw : grammar.toRules.WellFormed) (hid : state < (build grammar mode).size) :
    (build grammar mode).Reached state := by
  have hwalks : ∀ {word : List Nat} {id : Nat}, (build grammar mode).Reached id →
      (build grammar mode).walk id word = some state → (build grammar mode).Reached state := by
    intro word
    induction word with
    | nil => exact fun hr h => Option.some_inj.mp h ▸ hr
    | cons symbol word ih =>
        intro id _ h
        obtain ⟨next, hnext, hrest⟩ := Option.bind_eq_some_iff.mp h
        exact ih (Or.inr ⟨id, symbol, (faithful_build hw mode).follow_eq_some_iff.mp hnext⟩) hrest
  obtain ⟨word, hword⟩ := exists_walk_build hw hid
  exact hwalks (Or.inl rfl) hword

theorem Faithful.mem_allItems (hw : grammar.toRules.WellFormed) (hf : Faithful grammar graph)
    (hreached : graph.Reached state) (hi : (graph.state state).HasItem item) : item ∈ allItems grammar.toRules := by
  obtain ⟨production, dot⟩ := item
  have hdot := hf.dot_le hreached hi
  refine IncrementalLR.mem_allItems.mpr ⟨?_, hdot⟩
  by_contra hge
  have hdefault := Rules.production_of_size_le (Nat.not_lt.mp hge)
  rw [hdefault] at hdot
  obtain rfl : dot = 0 := Nat.le_zero.mp hdot
  have hne : production ≠ startProduction := fun he => hge (he ▸ hw.size_pos)
  obtain ⟨left, -, hleft, -⟩ := hf.edge_of_begun hreached hi hne
  rw [hdefault] at hleft
  cases hleft

-- The states of an automaton hold items of the grammar only.
theorem mem_allItems_build (hw : grammar.toRules.WellFormed)
    (hi : ((StateGraph.build grammar mode).state state).HasItem item) : item ∈ allItems grammar.toRules := by
  refine (faithful_build hw mode).mem_allItems hw (StateGraph.reached_build hw ?_) hi
  by_contra hn
  rw [StateGraph.state_ge (Nat.not_lt.mp hn)] at hi
  exact ItemSet.not_hasItem_empty hi

theorem eq_finalItem (hi : item ∈ allItems grammar.toRules) (hfinal : item.isFinal grammar.toRules = true) :
    item = grammar.finalItem item.production := by
  have hdot := Nat.le_antisymm (mem_allItems.mp hi).2 (of_decide_eq_true hfinal)
  cases item
  simp_all [Rules.finalItem]

theorem isFinal_finalItem (production : Nat) : (grammar.finalItem production).isFinal grammar.toRules = true :=
  decide_eq_true (Nat.le_refl _)

theorem reducesOn_iff (hterminal : terminal ∈ grammar.terminals) :
    graph.reducesOn grammar state terminal production = true ↔
      Admits grammar graph state (grammar.finalItem production) terminal := by
  unfold StateGraph.reducesOn
  cases hlookup : (graph.state state).lookahead? (grammar.finalItem production) with
  | none =>
      have hnone := List.lookup_eq_none_iff.mp hlookup
      refine iff_of_false Bool.false_ne_true fun ha => ?_
      obtain ⟨lookahead, hmem⟩ := ItemSet.hasItem_iff.mp ha.1
      simpa using hnone _ hmem
  | some lookahead =>
      obtain ⟨front, back, hentries, -⟩ := List.lookup_eq_some_iff.mp hlookup
      have hmem : (grammar.finalItem production, lookahead) ∈ (graph.state state).entries := by
        rw [hentries]
        exact List.mem_append_right _ List.mem_cons_self
      rw [admits_iff hmem, SyntaxTable.reduceSymbols]
      by_cases hm : graph.mode = .lr0
      · simp [hm, hterminal]
      · simp [hm, SymbolSet.mem_def]

-- The productions by which a state may reduce are those that are candidates for the cell.
theorem mem_reductions (hitems : ∀ item, (graph.state state).HasItem item → item ∈ allItems grammar.toRules)
    (hterminal : terminal ∈ grammar.terminals) :
    production ∈ graph.reductions grammar state terminal ↔
      Candidate grammar graph state terminal (.reduce production) := by
  unfold StateGraph.reductions
  rw [List.mem_filter, Bool.and_eq_true, bne_iff_ne, reducesOn_iff hterminal]
  constructor
  · rintro ⟨-, hne, ha⟩
    exact .reduce ha (isFinal_finalItem production) hne
  · intro hc
    cases hc with
    | @reduce item _ ha hfinal hne =>
        have hitem := hitems item ha.1
        refine ⟨List.mem_range.mpr (mem_allItems.mp hitem).1, hne, ?_⟩
        rwa [← eq_finalItem hitem hfinal]

-- Whether a final item makes its production a candidate for the cell of a terminal.
def reducesBy (grammar : Grammar) (mode : Mode) (terminal : Nat) (entry : Entry) : Bool :=
  entry.1.isFinal grammar.toRules && entry.1.production != startProduction &&
    decide (terminal ∈ SyntaxTable.reduceSymbols grammar mode entry.2)

theorem nodup_reduceSymbols (lookahead : SymbolSet) : (SyntaxTable.reduceSymbols grammar mode lookahead).Nodup := by
  unfold SyntaxTable.reduceSymbols
  split
  · exact ((List.nodup_range.filter _).filter _)
  · exact lookahead.nodup

theorem actionsOn_map {ids : List Nat} (hnodup : ids.Nodup) :
    Filling.actionsOn symbol (ids.map (·, action)) = if symbol ∈ ids then [action] else [] := by
  have hfilter : ids.filter (· == symbol) = if symbol ∈ ids then [symbol] else [] := by
    rw [List.filter_beq]
    split
    · rename_i hmem
      rw [List.count_eq_one_of_mem hnodup hmem, List.replicate_one]
    · rename_i hmem
      rw [List.count_eq_zero_of_not_mem hmem, List.replicate_zero]
  rw [Filling.actionsOn, List.filter_map, List.map_map]
  change (ids.filter (· == symbol)).map (fun _ => action) = _
  rw [hfilter]
  split <;> rfl

theorem actionsOn_finalCells {entry : Entry}
    (hne : entry.1.isFinal grammar.toRules = true → entry.1.production = startProduction → terminal ≠ finishId) :
    Filling.actionsOn terminal (SyntaxTable.finalCells grammar mode entry) =
      if reducesBy grammar mode terminal entry then [.reduce entry.1.production] else [] := by
  unfold SyntaxTable.finalCells reducesBy
  by_cases hfinal : entry.1.isFinal grammar.toRules = true
  · by_cases hstart : entry.1.production = startProduction
    · have hne : finishId ≠ terminal := (hne hfinal hstart).symm
      simp [hfinal, hstart, Filling.actionsOn, hne]
    · simp [hfinal, hstart, actionsOn_map (nodup_reduceSymbols entry.2)]
  · simp [hfinal, Filling.actionsOn]

theorem actionsOn_finals {entries : List Entry}
    (hne : ∀ entry ∈ entries, entry.1.isFinal grammar.toRules = true → entry.1.production = startProduction →
      terminal ≠ finishId) :
    Filling.actionsOn terminal (entries.flatMap (SyntaxTable.finalCells grammar mode)) =
      ((entries.filter (reducesBy grammar mode terminal)).map (·.1.production)).map .reduce := by
  induction entries with
  | nil => rfl
  | cons entry rest ih =>
      obtain ⟨hentry, hrest⟩ := List.forall_mem_cons.mp hne
      rw [List.flatMap_cons, Filling.actionsOn_append, actionsOn_finalCells hentry, ih hrest, List.filter_cons]
      split <;> rfl

-- The final items of a state come in the order of their productions.
theorem productions_eq_reductions
    (hitems : ∀ item, (graph.state state).HasItem item → item ∈ allItems grammar.toRules)
    (hterminal : terminal ∈ grammar.terminals) :
    ((graph.state state).entries.filter (reducesBy grammar graph.mode terminal)).map (·.1.production) =
      graph.reductions grammar state terminal := by
  have hreduces : ∀ {entry : Entry},
      entry ∈ (graph.state state).entries.filter (reducesBy grammar graph.mode terminal) →
        entry ∈ (graph.state state).entries ∧ entry.1 = grammar.finalItem entry.1.production ∧
          Candidate grammar graph state terminal (.reduce entry.1.production) := by
    intro entry h
    obtain ⟨hmem, hreduces⟩ := List.mem_filter.mp h
    simp only [reducesBy, Bool.and_eq_true, bne_iff_ne, decide_eq_true_eq] at hreduces
    obtain ⟨⟨hfinal, hne⟩, hsymbol⟩ := hreduces
    exact ⟨hmem, eq_finalItem (hitems _ (ItemSet.hasItem_of_mem hmem)) hfinal,
      .reduce ((admits_iff hmem).mpr hsymbol) hfinal hne⟩
  apply eq_of_pairwise_of_mem_iff
  · refine List.pairwise_map.mpr (((graph.state state).sorted.filter _).imp_of_mem fun hl hr hbefore => ?_)
    refine hbefore.resolve_right fun ⟨he, hdot⟩ => ?_
    rw [(hreduces hl).2.1, (hreduces hr).2.1, he] at hdot
    exact Nat.lt_irrefl _ hdot
  · exact List.pairwise_lt_range.filter _
  · intro production
    rw [mem_reductions hitems hterminal, List.mem_map]
    constructor
    · rintro ⟨entry, h, rfl⟩
      exact (hreduces h).2.2
    · intro hc
      cases hc with
      | reduce ha hfinal hne =>
          obtain ⟨lookahead, hmem⟩ := ItemSet.hasItem_iff.mp ha.1
          refine ⟨_, List.mem_filter.mpr ⟨hmem, ?_⟩, rfl⟩
          simp [reducesBy, hfinal, hne, (admits_iff hmem).mp ha]

end Candidates

section Cells

variable {grammar : Grammar} {mode : Mode} {graph : StateGraph} {state symbol terminal : Nat}

theorem action?_terminal (hf : Faithful grammar graph)
    (hitems : ∀ item, (graph.state state).HasItem item → item ∈ allItems grammar.toRules)
    (hterminal : terminal ∈ grammar.terminals) :
    (SyntaxTable.build graph grammar).action? state terminal = graph.settled? grammar state terminal := by
  rw [action?_eq_foldl hf, SyntaxTable.candidates, Filling.actionsOn_append, List.foldl_append, StateGraph.settled?]
  split
  · rename_i haccept
    obtain ⟨rfl, hi⟩ := haccept
    rw [Filling.foldl_settle_accept, Filling.foldl_settle_of_accept]
    · exact fun action h => accept_or_reduce_of_mem (Filling.mem_actionsOn.mp h)
    · obtain ⟨lookahead, hmem⟩ := ItemSet.hasItem_iff.mp hi
      exact Filling.mem_actionsOn.mpr (List.mem_flatMap.mpr
        ⟨_, hmem, mem_finalCells.mpr ⟨isFinal_finalItem startProduction, Or.inl ⟨rfl, rfl, rfl⟩⟩⟩)
  · rename_i haccept
    have hne : ∀ entry ∈ (graph.state state).entries, entry.1.isFinal grammar.toRules = true →
        entry.1.production = startProduction → terminal ≠ finishId := by
      intro entry hmem hfinal hstart he
      have hi := ItemSet.hasItem_of_mem hmem
      refine haccept ⟨he, ?_⟩
      rwa [← hstart, ← eq_finalItem (hitems _ hi) hfinal]
    have hsymbol : (grammar.symbol terminal).isNonterminal = false := by
      simpa [Symbol.isTerminal] using (Rules.mem_terminals.mp hterminal).2.1
    rw [actionsOn_finals hne, productions_eq_reductions hitems hterminal, Filling.foldl_settle_reduce,
      actionsOn_edges hf hsymbol]
    cases grammar.strongest? (graph.reductions grammar state terminal) with
    | none =>
        cases graph.follow state terminal with
        | none => rfl
        | some target => rfl
    | some production =>
        cases graph.follow state terminal with
        | none => rfl
        | some target => exact Filling.settle_shift production target

theorem action?_nonterminal (hw : grammar.toRules.WellFormed) (hf : Faithful grammar graph)
    (hsymbol : (grammar.symbol symbol).isNonterminal = true) :
    (SyntaxTable.build graph grammar).action? state symbol = (graph.follow state symbol).map .goto := by
  have hgoto : ∀ {action}, (SyntaxTable.build graph grammar).action? state symbol = some action →
      ∃ target, action = .goto target ∧ graph.follow state symbol = some target := by
    intro action h
    cases candidate_of_action? h with
    | accept =>
        rw [hw.symbol_finish] at hsymbol
        cases hsymbol
    | reduce ha hfinal hne =>
        rw [Candidate.terminal hw hf (.reduce ha hfinal hne)] at hsymbol
        cases hsymbol
    | shift _ hterminal =>
        rw [hterminal] at hsymbol
        cases hsymbol
    | goto he => exact ⟨_, rfl, hf.follow_eq_some_iff.mpr he⟩
  cases haction : (SyntaxTable.build graph grammar).action? state symbol with
  | some action =>
      obtain ⟨target, rfl, hfollow⟩ := hgoto haction
      rw [hfollow]
      rfl
  | none =>
      cases hfollow : graph.follow state symbol with
      | none => rfl
      | some target =>
          have htarget := goto?_of_edge hw hf (hf.follow_eq_some_iff.mp hfollow) hsymbol
          rw [SyntaxTable.goto?, haction] at htarget
          cases htarget

end Cells

-- Tables whose cells are settled by precedence and by the order of declaration.
structure Grammar.Resolves (grammar : Grammar) (graph : StateGraph) (table : SyntaxTable) : Prop where
  terminal : ∀ state, ∀ terminal ∈ grammar.terminals,
    table.action? state terminal = graph.settled? grammar state terminal
  nonterminal : ∀ state, ∀ nonterminal ∈ grammar.nonterminals,
    table.action? state nonterminal = (graph.follow state nonterminal).map .goto

theorem resolves_of_built {grammar : Grammar} (hb : grammar.Built) (mode : Mode) :
    grammar.Resolves (.build grammar mode) (.ofGrammar grammar mode) := by
  have hw := hb.wellFormed
  have hf := faithful_build hw mode
  constructor
  case terminal => exact fun state terminal => action?_terminal hf fun _ => mem_allItems_build hw
  case nonterminal =>
    intro state nonterminal h
    exact action?_nonterminal hw hf (List.mem_filter.mp h).2

-- Comparisons, sums and powers. Two productions compete for a name.
def Declarations.contested : Declarations := {
  start := none
  rules := [
    ("E", ⟨[.nonterminal "E", .terminal "<", .nonterminal "E"], none, none⟩),
    ("E", ⟨[.nonterminal "E", .terminal "+", .nonterminal "E"], none, none⟩),
    ("E", ⟨[.nonterminal "E", .terminal "^", .nonterminal "E"], none, none⟩),
    ("E", ⟨[.terminal "x"], some "<", none⟩),
    ("E", ⟨[.nonterminal "N"], none, none⟩),
    ("N", ⟨[.terminal "x"], some "+", none⟩)]
  precedences := [(.nonassoc, ["<"]), (.left, ["+"]), (.right, ["^"])] }

def Rules.contested : Rules := {
  symbols := #[.finish, .epsilon, .nonterminal "E", .terminal "<", .terminal "+", .terminal "^", .terminal "x",
    .nonterminal "N"]
  productions := #[⟨none, [2], none, none⟩, ⟨some 2, [2, 3, 2], none, none⟩, ⟨some 2, [2, 4, 2], none, none⟩,
    ⟨some 2, [2, 5, 2], none, none⟩, ⟨some 2, [6], some 3, none⟩, ⟨some 2, [7], none, none⟩,
    ⟨some 7, [6], some 4, none⟩]
  start := 2
  precedences := #[none, none, none, some ⟨1, .nonassoc⟩, some ⟨2, .left⟩, some ⟨3, .right⟩, none, none] }

theorem built_contested : Rules.contested.toGrammar.Built :=
  .declared (show Declarations.contested.build = .ok Rules.contested.toGrammar from rfl)

-- The production that was declared last wins by its level, a sum goes before another one
-- and after a power, and no comparison follows on another.
theorem resolves_contested :
    Rules.contested.toGrammar.Built ∧
      (let graph := StateGraph.build Rules.contested.toGrammar .lr1
      graph.reductions Rules.contested.toGrammar 2 finishId = [4, 6] ∧
        graph.settled? Rules.contested.toGrammar 2 finishId = some (.reduce 6) ∧
        graph.settled? Rules.contested.toGrammar 8 4 = some (.reduce 2) ∧
        graph.settled? Rules.contested.toGrammar 8 5 = some (.shift 6) ∧
        graph.settled? Rules.contested.toGrammar 9 3 = none) ∧
      Rules.contested.toGrammar.Resolves (.build Rules.contested.toGrammar .lr1)
        (.ofGrammar Rules.contested.toGrammar .lr1) :=
  ⟨built_contested, by decide +kernel, resolves_of_built built_contested .lr1⟩

end IncrementalLR
