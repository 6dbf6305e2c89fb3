import IncrementalLR.Proofs.Automaton.Canonical

namespace IncrementalLR

namespace StateGraph

theorem walk_append (graph : StateGraph) (id : Nat) (word rest : List Nat) :
    graph.walk id (word ++ rest) = (graph.walk id word).bind fun target => graph.walk target rest := by
  induction word generalizing id with
  | nil => rfl
  | cons symbol word ih =>
      rw [List.cons_append, walk, walk, Option.bind_assoc]
      exact congrArg _ (funext fun target => ih target)

end StateGraph

section Simulates

variable {grammar : Grammar} {graph : StateGraph} {set : ItemSet} {id symbol target : Nat}

-- Item sets whose items are those of a state, and whose lookaheads are among those
-- of the state.
structure Simulates (grammar : Grammar) (graph : StateGraph) (set : ItemSet) (id : Nat) : Prop where
  bounded : set.Bounded grammar.symbols.size
  items : ∀ item, set.HasItem item ↔ (graph.state id).HasItem item
  sees : ∀ item terminal, set.Sees item terminal → (graph.state id).Sees item terminal

-- A state foresees no more than it sees.
theorem Faithful.sees_of_foresees (hf : Faithful grammar graph) (hmode : graph.mode ≠ .lr0)
    (hitems : ∀ item, set.HasItem item → (graph.state id).HasItem item)
    (hsees : ∀ item terminal, set.Sees item terminal → (graph.state id).Sees item terminal)
    {item : Item} {terminal : Nat} (h : Foresees grammar.toRules set item terminal) :
    (graph.state id).Sees item terminal := by
  have hreaches : ∀ {item}, Reaches grammar.toRules set.HasItem item → (graph.state id).HasItem item := by
    intro item hr
    induction hr with
    | given hi => exact hitems _ hi
    | brought _ hb ih => exact hf.items_closed id _ _ ih hb
  induction h with
  | given h => exact hsees _ _ h
  | begun hr hb hbegins => exact hf.begun_sees hmode id _ _ _ (hreaches hr) hb hbegins
  | passed _ hb hv ih => exact hf.passed_sees hmode id _ _ _ ih hb hv

theorem Simulates.start (hw : grammar.toRules.WellFormed) (hf : Faithful grammar graph)
    (hmode : graph.mode ≠ .lr0) : Simulates grammar graph (grammar.canonical []) 0 := by
  have hitems : ∀ item, (ItemSet.startKernel .lr1).HasItem item ↔ item = .start := fun item =>
    ItemSet.hasItem_startKernel
  have hzero : ∀ item, (grammar.canonical []).HasItem item ↔ (graph.state 0).HasItem item := by
    intro item
    change ((ItemSet.startKernel .lr1).closure grammar .lr1).HasItem item ↔ _
    rw [hf.start_items, ItemSet.hasItem_closure hw (ItemSet.bounded_startKernel hw)]
    exact ⟨.mono fun item => (hitems item).mp, .mono fun item => (hitems item).mpr⟩
  refine ⟨Grammar.bounded_canonical hw [], hzero, fun item terminal h => ?_⟩
  refine hf.sees_of_foresees hmode (fun item hi => ?_) (fun item terminal h => ?_)
    (ItemSet.foresees_of_sees_closure hw h)
  · exact (hzero item).mp (ItemSet.within_closure.hasItem item hi)
  · obtain ⟨rfl, -, rfl⟩ := ItemSet.sees_startKernel.mp h
    exact hf.start_sees hmode

theorem Simulates.goto (hw : grammar.toRules.WellFormed) (hf : Faithful grammar graph)
    (hmode : graph.mode ≠ .lr0) (hs : Simulates grammar graph set id)
    (he : (symbol, target) ∈ graph.edgesFrom id) :
    Simulates grammar graph (set.goto grammar .lr1 symbol) target := by
  have hkernel : ∀ item, (set.gotoKernel grammar symbol).HasItem item ↔
      Successor grammar.toRules (graph.state id).HasItem symbol item := by
    intro item
    rw [ItemSet.hasItem_gotoKernel]
    simp only [Successor, hs.items]
  have hbounded : (set.gotoKernel grammar symbol).Bounded grammar.symbols.size :=
    ItemSet.bounded_gotoKernel hs.bounded
  have htarget : ∀ item, (set.goto grammar .lr1 symbol).HasItem item ↔
      (graph.state target).HasItem item := by
    intro item
    rw [hf.edge_items id symbol target he, ItemSet.goto, ItemSet.hasItem_closure hw hbounded]
    exact ⟨.mono fun item => (hkernel item).mp, .mono fun item => (hkernel item).mpr⟩
  refine ⟨ItemSet.bounded_closure hw hbounded, htarget, fun item terminal h => ?_⟩
  refine hf.sees_of_foresees hmode (fun item hi => ?_) (fun item terminal h => ?_)
    (ItemSet.foresees_of_sees_closure hw h)
  · exact (htarget item).mp (ItemSet.within_closure.hasItem item hi)
  · obtain ⟨source, hsees, hn, rfl⟩ := ItemSet.sees_gotoKernel.mp h
    exact hf.edge_sees id symbol target source terminal he (hs.sees _ _ hsees) hn

-- There is an edge wherever the canonical set goes on.
theorem Simulates.edge_iff (hw : grammar.toRules.WellFormed) (hf : Faithful grammar graph)
    (hs : Simulates grammar graph set id) (symbol : Nat) :
    (∃ target, (symbol, target) ∈ graph.edgesFrom id) ↔
      (set.goto grammar .lr1 symbol).isEmpty = false := by
  have hempty : (set.goto grammar .lr1 symbol).isEmpty = false ↔
      ∃ item, (set.goto grammar .lr1 symbol).HasItem item := by
    rw [← Bool.not_eq_true, ItemSet.isEmpty_iff, not_forall]
    simp only [not_not]
  rw [hempty]
  constructor
  · rintro ⟨target, he⟩
    obtain ⟨item, hi, hn⟩ := hf.edge_next id symbol target he
    exact ⟨item.advance, ItemSet.within_closure.hasItem _
      (ItemSet.hasItem_gotoKernel.mpr ⟨item, (hs.items item).mpr hi, hn, rfl⟩)⟩
  · rintro ⟨item, hi⟩
    have hr := ItemSet.reaches_of_hasItem_closure hw hi
    clear hi
    -- whatever is in a closure, something is in the kernel
    induction hr with
    | given hi =>
        obtain ⟨source, hsource, hn, -⟩ := ItemSet.hasItem_gotoKernel.mp hi
        exact hf.edge_exists id source symbol ((hs.items source).mp hsource) hn
    | brought _ _ ih => exact ih

theorem foldl_goto_of_isEmpty (hw : grammar.toRules.WellFormed)
    (h : set.isEmpty = true) (word : List Nat) :
    (word.foldl (fun set symbol => set.goto grammar .lr1 symbol) set).isEmpty = true := by
  induction word generalizing set with
  | nil => exact h
  | cons symbol word ih =>
      refine ih (ItemSet.isEmpty_iff.mpr fun item hi => ?_)
      have hr := ItemSet.reaches_of_hasItem_closure hw hi
      clear hi
      induction hr with
      | given hi =>
          obtain ⟨source, hsource, -⟩ := ItemSet.hasItem_gotoKernel.mp hi
          exact ItemSet.isEmpty_iff.mp h source hsource
      | brought _ _ ih => exact ih

-- A walk and the canonical sets go on for as long as each other.
theorem Simulates.walk (hw : grammar.toRules.WellFormed) (hf : Faithful grammar graph)
    (hmode : graph.mode ≠ .lr0) (hs : Simulates grammar graph set id) (hne : set.isEmpty = false)
    (word : List Nat) :
    ((∃ target, graph.walk id word = some target) ↔
      (word.foldl (fun set symbol => set.goto grammar .lr1 symbol) set).isEmpty = false) ∧
    ∀ target, graph.walk id word = some target →
      Simulates grammar graph (word.foldl (fun set symbol => set.goto grammar .lr1 symbol) set) target := by
  induction word generalizing set id with
  | nil =>
      refine ⟨iff_of_true ⟨id, rfl⟩ hne, fun target h => ?_⟩
      obtain rfl := Option.some_inj.mp h
      exact hs
  | cons symbol word ih =>
      have hfollow : ∀ target, graph.follow id symbol = some target ↔
          (symbol, target) ∈ graph.edgesFrom id := fun target =>
        lookup_eq_some_iff (hf.edges_sorted id)
      have hedge := hs.edge_iff hw hf symbol
      simp only [List.foldl_cons]
      cases htarget : graph.follow id symbol with
      | none =>
          have hgone : (set.goto grammar .lr1 symbol).isEmpty = true := by
            rw [← Bool.not_eq_false, ← hedge]
            rintro ⟨target, he⟩
            rw [(hfollow target).mpr he] at htarget
            cases htarget
          have hwalk : graph.walk id (symbol :: word) = none := by
            rw [StateGraph.walk, htarget]
            rfl
          rw [hwalk, foldl_goto_of_isEmpty hw hgone]
          simp
      | some target =>
          have he := (hfollow target).mp htarget
          have hwalk : graph.walk id (symbol :: word) = graph.walk target word := by
            rw [StateGraph.walk, htarget]
            rfl
          rw [hwalk]
          exact ih (hs.goto hw hf hmode he) (hedge.mp ⟨target, he⟩)

end Simulates

namespace Construction

variable {grammar : Grammar} {mode : Mode}

-- Every state that is kept lies on a walk from the first.
theorem exists_walk_finishedGraph (hw : grammar.toRules.WellFormed) {id : Nat}
    (hid : id < (finishedGraph grammar mode).size) :
    ∃ word, (finishedGraph grammar mode).walk 0 word = some id := by
  have hfaithful : Faithful grammar (finishedGraph grammar mode) := faithful_finishedGraph hw
  have hedges : ∀ id, (finished grammar mode).edges.getD id [] = (finished grammar mode).edgesOf id :=
    fun _ => rfl
  -- the walk goes through states that are kept, whatever part of them is known yet
  have hwalks : ∀ reached : List Nat, (∀ old ∈ reached, old ∈ kept grammar mode ∧
        ∃ word, (finishedGraph grammar mode).walk 0 word = some ((kept grammar mode).idxOf old)) →
      ∀ old ∈ reachStep (finished grammar mode).edges reached, old ∈ kept grammar mode ∧
        ∃ word, (finishedGraph grammar mode).walk 0 word = some ((kept grammar mode).idxOf old) := by
    intro reached ih old hold
    obtain ⟨hlt, hreached | ⟨source, hsource, ⟨symbol, target⟩, he, rfl⟩⟩ := mem_reachStep.mp hold
    · exact ih old hreached
    · obtain ⟨hkept, word, hword⟩ := ih source hsource
      have htarget := mem_reachable_of_edge (edges_size_pos hw) hkept he hlt
      have hplace : (kept grammar mode)[(kept grammar mode).idxOf source]? = some source := by
        have hlt := List.idxOf_lt_length_of_mem hkept
        rw [List.getElem?_eq_getElem hlt, List.getElem_idxOf hlt]
      have hedge := ((kept_of_getElem? hw hplace).edges symbol _).mpr ⟨target, hedges source ▸ he, rfl⟩
      refine ⟨htarget, word ++ [symbol], ?_⟩
      rw [StateGraph.walk_append, hword, Option.bind_some, StateGraph.walk,
        StateGraph.follow, (lookup_eq_some_iff (hfaithful.edges_sorted _)).mpr hedge]
      rfl
  have hzero : 0 ∈ kept grammar mode := (inOrder_reachable (edges_size_pos hw)).first
  have hfirst : (kept grammar mode).idxOf 0 = 0 := by
    have h : (kept grammar mode)[0]? = some 0 := reachable_first (edges_size_pos hw)
    obtain ⟨rest, hrest⟩ : ∃ rest, kept grammar mode = 0 :: rest := by
      cases hk : kept grammar mode with
      | nil => rw [hk] at hzero; cases hzero
      | cons first rest =>
          rw [hk] at h
          exact ⟨rest, by rw [Option.some_inj.mp h]⟩
    rw [hrest, List.idxOf_cons_self]
  have hall := saturate_induction
    (motive := fun reached => ∀ old ∈ reached, old ∈ kept grammar mode ∧
      ∃ word, (finishedGraph grammar mode).walk 0 word = some ((kept grammar mode).idxOf old))
    (reachStep (finished grammar mode).edges) hwalks (finished grammar mode).edges.size [0] fun old hold => by
      rw [List.mem_singleton.mp hold]
      exact ⟨hzero, [], by rw [StateGraph.walk, hfirst]⟩
  have hlt : id < (kept grammar mode).length := by rwa [← size_finishedGraph]
  obtain ⟨-, word, hword⟩ := hall _ (List.getElem_mem hlt)
  have hnodup : (kept grammar mode).Nodup :=
    (inOrder_reachable (edges_size_pos hw)).sorted.imp fun h => Nat.ne_of_lt h
  rw [hnodup.idxOf_getElem id hlt] at hword
  exact ⟨word, hword⟩

end Construction

-- Graphs that do what the automaton of the canonical item sets does. Walks go on for
-- as long as the canonical sets, and lead to states with their items and at least
-- their lookaheads. Every lookahead is that of some canonical set with the items of
-- its state, and every state lies on a walk.
structure SimulatesCanonical (grammar : Grammar) (graph : StateGraph) : Prop where
  walk_iff : ∀ word, (∃ id, graph.walk 0 word = some id) ↔ (grammar.canonical word).isEmpty = false
  cores : ∀ word id, graph.walk 0 word = some id →
    (graph.state id).cores = (grammar.canonical word).cores
  sees : ∀ word id item symbol, graph.walk 0 word = some id →
    (grammar.canonical word).Sees item symbol → (graph.state id).Sees item symbol
  accounted : ∀ id item symbol, (graph.state id).Sees item symbol →
    ∃ word, (grammar.canonical word).cores = (graph.state id).cores ∧
      (grammar.canonical word).Sees item symbol
  reached : ∀ id, id < graph.size → ∃ word, graph.walk 0 word = some id

theorem simulates_finishedGraph {grammar : Grammar} {mode : Mode} (hw : grammar.toRules.WellFormed)
    (hmode : mode ≠ .lr0) : SimulatesCanonical grammar (Construction.finishedGraph grammar mode) := by
  have hf : Faithful grammar (Construction.finishedGraph grammar mode) := Construction.faithful_finishedGraph hw
  have hne : (grammar.canonical []).isEmpty = false := by
    rw [← Bool.not_eq_true, ItemSet.isEmpty_iff]
    intro h
    exact h .start (ItemSet.within_closure.hasItem _ (ItemSet.hasItem_startKernel.mpr rfl))
  have hwalk := (Simulates.start hw hf hmode).walk hw hf hmode hne
  constructor
  case walk_iff => exact fun word => (hwalk word).1
  case cores =>
    intro word id h
    exact ItemSet.cores_eq fun item => (((hwalk word).2 id h).items item).symm
  case sees => exact fun word id item symbol h hs => ((hwalk word).2 id h).sees item symbol hs
  case accounted =>
    intro id item symbol hs
    obtain ⟨old, hk⟩ := Construction.kept_of_hasItem hw hs.hasItem
    have ha := Construction.accounted_finished hw hmode hk.lt
    rw [hk.state, ItemSet.closure_eq_lr1 hmode] at hs ⊢
    obtain ⟨spelled, hc, hfore⟩ := ha.foresees (ItemSet.foresees_of_sees_closure hw hs)
    have hbounded := Grammar.bounded_canonicalKernel hw spelled
    refine ⟨spelled.reverse, ?_, ?_⟩
    · rw [Grammar.canonical_eq_closure]
      exact ItemSet.cores_closure hw hbounded ha.bounded hc
    · rw [Grammar.canonical_eq_closure]
      exact ItemSet.sees_closure_of_foresees hw hbounded Mode.noConfusion hfore
  case reached => exact fun id hid => Construction.exists_walk_finishedGraph hw hid

-- The merged graph of a grammar simulates its canonical automaton.
theorem simulatesCanonical_build {grammar : Grammar} (hb : grammar.Built) :
    SimulatesCanonical grammar (.build grammar .lr1) := simulates_finishedGraph hb.wellFormed Mode.noConfusion

theorem simulatesCanonical_crossed :
    Rules.crossed.toGrammar.Built ∧
      SimulatesCanonical Rules.crossed.toGrammar (.build Rules.crossed.toGrammar .lr1) :=
  ⟨built_crossed, simulatesCanonical_build built_crossed⟩

end IncrementalLR
