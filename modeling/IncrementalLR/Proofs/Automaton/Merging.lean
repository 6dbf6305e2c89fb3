import IncrementalLR.Proofs.Automaton.Pruning

namespace IncrementalLR

section Folds

variable {states : Nat → ItemSet} {ids : List Nat} {set : ItemSet} {item : Item} {symbol : Nat}

theorem hasItem_foldl_merge :
    (ids.foldl (fun set id => set.merge (states id)) set).HasItem item ↔
      set.HasItem item ∨ ∃ id ∈ ids, (states id).HasItem item := by
  induction ids generalizing set with
  | nil => simp
  | cons first rest ih => simp [ih, or_assoc]

theorem sees_foldl_merge :
    (ids.foldl (fun set id => set.merge (states id)) set).Sees item symbol ↔
      set.Sees item symbol ∨ ∃ id ∈ ids, (states id).Sees item symbol := by
  induction ids generalizing set with
  | nil => simp
  | cons first rest ih => simp [ih, or_assoc]

variable {rename : Nat → Nat} {added edges : Edges}

theorem pairwise_foldl_setEdge (hs : edges.Pairwise fun left right => left.1 < right.1) :
    (added.foldl (fun edges edge => Construction.setEdge edge.1 (rename edge.2) edges) edges).Pairwise
      fun left right => left.1 < right.1 := by
  induction added generalizing edges with
  | nil => exact hs
  | cons first rest ih => exact ih (Construction.pairwise_setEdge hs)

theorem mem_foldl_setEdge {edge : Nat × Nat}
    (hmem : edge ∈ added.foldl
      (fun edges edge => Construction.setEdge edge.1 (rename edge.2) edges) edges) :
    edge ∈ edges ∨ ∃ target, (edge.1, target) ∈ added ∧ edge.2 = rename target := by
  induction added generalizing edges with
  | nil => exact Or.inl hmem
  | cons first rest ih =>
      rcases ih hmem with h | ⟨target, h, he⟩
      · rcases Construction.mem_of_mem_setEdge h with rfl | h
        · exact Or.inr ⟨first.2, by simp, rfl⟩
        · exact Or.inl h
      · exact Or.inr ⟨target, by simp [h], he⟩

theorem exists_mem_foldl_setEdge (hs : edges.Pairwise fun left right => left.1 < right.1)
    (hex : (∃ target, (symbol, target) ∈ edges) ∨ ∃ target, (symbol, target) ∈ added) :
    ∃ target, (symbol, target) ∈ added.foldl
      (fun edges edge => Construction.setEdge edge.1 (rename edge.2) edges) edges := by
  induction added generalizing edges with
  | nil => exact hex.resolve_right (by simp)
  | cons first rest ih =>
      refine ih (Construction.pairwise_setEdge hs) ?_
      rcases hex with ⟨target, h⟩ | ⟨target, h⟩
      · refine Or.inl ?_
        by_cases he : symbol = first.1
        · exact ⟨rename first.2, (Construction.mem_setEdge hs).mpr (Or.inl (Prod.ext he rfl))⟩
        · exact ⟨target, (Construction.mem_setEdge hs).mpr (Or.inr ⟨he, h⟩)⟩
      · rcases List.mem_cons.mp h with rfl | h
        · exact Or.inl ⟨rename target, (Construction.mem_setEdge hs).mpr (Or.inl rfl)⟩
        · exact Or.inr ⟨target, h⟩

end Folds

-- Whether a state is the first one, or an edge leads to it.
def StateGraph.Reached (graph : StateGraph) (state : Nat) : Prop :=
  state = 0 ∨ ∃ source symbol, (symbol, state) ∈ graph.edgesFrom source

namespace Faithful

variable {grammar : Grammar} {graph : StateGraph}

theorem size_pos (hf : Faithful grammar graph) : 0 < graph.size := by
  have hstart := (hf.start_items .start).mpr (.given rfl)
  by_contra hn
  have hzero : graph.states.size ≤ 0 := Nat.not_lt.mp hn
  rw [StateGraph.state, Array.getD_eq_getD_getElem?, Array.getElem?_eq_none hzero] at hstart
  exact ItemSet.not_hasItem_empty hstart

theorem dot_of_start (hf : Faithful grammar graph) {item : Item}
    (hi : (graph.state 0).HasItem item) : item.dot = 0 := by
  cases (hf.start_items item).mp hi with
  | given h =>
      rw [h]
      rfl
  | brought _ hb =>
      obtain ⟨-, -, -, hzero⟩ := hb
      exact hzero

-- Along an edge an item comes from the one whose dot has moved over the symbol.
theorem source (hf : Faithful grammar graph) {symbol target state production dot : Nat}
    (he : (symbol, target) ∈ graph.edgesFrom state) (hi : (graph.state target).HasItem ⟨production, dot + 1⟩) :
    (graph.state state).HasItem ⟨production, dot⟩ ∧ (grammar.production production).right[dot]? = some symbol := by
  cases (hf.edge_items _ _ _ he _).mp hi with
  | given h =>
      obtain ⟨⟨other, place⟩, hs, hn, hadvance⟩ := h
      obtain ⟨rfl, rfl⟩ : production = other ∧ dot = place := by
        simpa [Item.advance] using hadvance
      exact ⟨hs, hn⟩
  | brought _ hb =>
      obtain ⟨-, -, -, hzero⟩ := hb
      cases hzero

theorem dot_le (hf : Faithful grammar graph) {state production dot : Nat} (hreached : graph.Reached state)
    (hi : (graph.state state).HasItem ⟨production, dot⟩) : dot ≤ (grammar.production production).right.length := by
  cases dot with
  | zero => exact Nat.zero_le _
  | succ dot =>
      rcases hreached with rfl | ⟨source, symbol, he⟩
      · cases hf.dot_of_start hi
      · exact (List.getElem?_eq_some_iff.mp (hf.source he hi).2).1

-- A production that begins in a state stands for a nonterminal over which the state
-- has an edge.
theorem edge_of_begun (hf : Faithful grammar graph) {state production : Nat} (hreached : graph.Reached state)
    (hi : (graph.state state).HasItem ⟨production, 0⟩) (hne : production ≠ startProduction) :
    ∃ left target, (grammar.production production).left = some left ∧ (left, target) ∈ graph.edgesFrom state := by
  obtain ⟨item, hitem, next, hnext, hbrought, -⟩ :
      ∃ item, (graph.state state).HasItem item ∧ item.Brings grammar.toRules ⟨production, 0⟩ := by
    rcases hreached with rfl | ⟨source, symbol, he⟩
    · cases (hf.start_items _).mp hi with
      | given h => exact absurd (congrArg Item.production h) hne
      | brought hr hb => exact ⟨_, (hf.start_items _).mpr hr, hb⟩
    · cases (hf.edge_items _ _ _ he _).mp hi with
      | given h =>
          obtain ⟨other, -, -, hadvance⟩ := h
          cases congrArg Item.dot hadvance
      | brought hr hb => exact ⟨_, (hf.edge_items _ _ _ he _).mpr hr, hb⟩
  obtain ⟨target, he⟩ := hf.edge_exists _ _ _ hitem hnext
  exact ⟨next, target, hbrought, he⟩

-- What an edge goes over is a symbol of some right side.
theorem terminal_of_edge (hf : Faithful grammar graph) (hw : grammar.toRules.WellFormed) {state symbol target : Nat}
    (he : (symbol, target) ∈ graph.edgesFrom state) (hn : (grammar.symbol symbol).isNonterminal = false) :
    symbol ∈ grammar.terminals := by
  obtain ⟨item, -, hnext⟩ := hf.edge_next _ _ _ he
  obtain ⟨hlt, hne⟩ := hw.right _ _ (Item.next?_mem hnext)
  exact Rules.mem_terminals.mpr ⟨hlt, by simp [Symbol.isTerminal, hn], hne⟩

-- The start item is in the first state alone.
theorem not_hasItem_start (hf : Faithful grammar graph) (hw : grammar.toRules.WellFormed)
    {state symbol target : Nat} (he : (symbol, target) ∈ graph.edgesFrom state) :
    ¬ (graph.state target).HasItem .start := by
  intro hi
  cases (hf.edge_items state symbol target he .start).mp hi with
  | given h =>
      obtain ⟨source, -, -, he⟩ := h
      exact Nat.noConfusion (congrArg Item.dot he)
  | brought _ hb =>
      obtain ⟨next, -, hleft, -⟩ := hb
      rw [show (Item.start.production) = startProduction from rfl, hw.start_left] at hleft
      cases hleft

end Faithful

namespace StateGraph

variable {grammar : Grammar} {graph : StateGraph}

theorem state_ge {id : Nat} (hid : graph.size ≤ id) : graph.state id = ∅ := by
  have hid : graph.states.size ≤ id := hid
  simp [state, hid]

-- The states with the items of a core.
def members (graph : StateGraph) (cores : List Item) : List Nat :=
  (List.range graph.size).filter fun id => (graph.state id).cores == cores

def classOf (graph : StateGraph) (id : Nat) : Nat := graph.coreSets.idxOf (graph.state id).cores

theorem mem_members {cores : List Item} {id : Nat} :
    id ∈ graph.members cores ↔ id < graph.size ∧ (graph.state id).cores = cores := by
  simp [members]

theorem mem_coreSets {cores : List Item} :
    cores ∈ graph.coreSets ↔ ∃ id, id < graph.size ∧ (graph.state id).cores = cores := by
  unfold coreSets
  rw [List.mem_eraseDups, List.mem_map]
  simp only [Array.mem_toList_iff, Array.mem_iff_getElem]
  constructor
  · rintro ⟨set, ⟨id, hid, rfl⟩, rfl⟩
    exact ⟨id, hid, by simp [state, hid]⟩
  · rintro ⟨id, hid, rfl⟩
    have hid : id < graph.states.size := hid
    exact ⟨_, ⟨id, hid, rfl⟩, by simp [state, hid]⟩

theorem state_mergeCores {id : Nat} :
    graph.mergeCores.state id =
      match graph.coreSets[id]? with
      | some cores => (graph.members cores).foldl (fun set id => set.merge (graph.state id)) ∅
      | none => ∅ := by
  unfold mergeCores state
  simp only [Array.getD_eq_getD_getElem?, List.getElem?_toArray, List.getElem?_map]
  cases graph.coreSets[id]? with
  | none => rfl
  | some cores =>
      simp only [Option.map_some, Option.getD_some, members, state, Array.getD_eq_getD_getElem?]

theorem edgesFrom_mergeCores {id : Nat} :
    graph.mergeCores.edgesFrom id =
      match graph.coreSets[id]? with
      | some cores => ((graph.members cores).flatMap graph.edgesFrom).foldl
          (fun edges edge => Construction.setEdge edge.1 (graph.classOf edge.2) edges) []
      | none => [] := by
  unfold mergeCores edgesFrom
  simp only [Array.getD_eq_getD_getElem?, List.getElem?_toArray, List.getElem?_map]
  cases graph.coreSets[id]? <;> rfl

theorem size_mergeCores : graph.mergeCores.size = graph.coreSets.length := by
  simp [mergeCores, size]

theorem coreSets_classOf {id : Nat} (hid : id < graph.size) :
    graph.coreSets[graph.classOf id]? = some (graph.state id).cores := by
  have hlt := List.idxOf_lt_length_of_mem (mem_coreSets.mpr ⟨id, hid, rfl⟩)
  rw [classOf, List.getElem?_eq_getElem hlt, List.getElem_idxOf hlt]

-- The first state stays the first.
theorem classOf_zero (hpos : 0 < graph.size) : graph.classOf 0 = 0 := by
  have hpos : 0 < graph.states.size := hpos
  obtain ⟨rest, hstates⟩ : ∃ rest, graph.states.toList = graph.state 0 :: rest := by
    cases h : graph.states.toList with
    | nil =>
        rw [Array.toList_eq_nil_iff.mp h] at hpos
        cases hpos
    | cons first rest =>
        have hget : graph.states[0]? = some first := by
          rw [← Array.getElem?_toList, h]
          rfl
        refine ⟨rest, ?_⟩
        rw [state, Array.getD_eq_getD_getElem?, hget]
        rfl
  rw [classOf, coreSets, hstates, List.map_cons, List.eraseDups_cons, List.idxOf_cons_self]

theorem mem_of_getElem?_coreSets {id : Nat} {cores : List Item}
    (h : graph.coreSets[id]? = some cores) : ∃ member, member ∈ graph.members cores := by
  obtain ⟨member, hlt, he⟩ := mem_coreSets.mp (List.mem_of_getElem? h)
  exact ⟨member, mem_members.mpr ⟨hlt, he⟩⟩

end StateGraph

-- A merged state with the states that it is made of.
structure Merged (graph : StateGraph) (id : Nat) (cores : List Item) : Prop where
  state : graph.mergeCores.state id =
    (graph.members cores).foldl (fun set id => set.merge (graph.state id)) ∅
  edges : graph.mergeCores.edgesFrom id = ((graph.members cores).flatMap graph.edgesFrom).foldl
    (fun edges edge => Construction.setEdge edge.1 (graph.classOf edge.2) edges) []
  inhabited : ∃ member, member ∈ graph.members cores

namespace Merged

variable {grammar : Grammar} {graph : StateGraph} {id : Nat} {cores : List Item} {item : Item}

theorem of_getElem? (h : graph.coreSets[id]? = some cores) : Merged graph id cores :=
  ⟨by rw [StateGraph.state_mergeCores, h], by rw [StateGraph.edgesFrom_mergeCores, h],
    StateGraph.mem_of_getElem?_coreSets h⟩

theorem of_hasItem (hi : (graph.mergeCores.state id).HasItem item) :
    ∃ cores, Merged graph id cores := by
  cases h : graph.coreSets[id]? with
  | none =>
      rw [StateGraph.state_mergeCores, h] at hi
      exact absurd hi ItemSet.not_hasItem_empty
  | some cores => exact ⟨cores, of_getElem? h⟩

theorem of_edge {edge : Nat × Nat} (he : edge ∈ graph.mergeCores.edgesFrom id) :
    ∃ cores, Merged graph id cores := by
  cases h : graph.coreSets[id]? with
  | none =>
      rw [StateGraph.edgesFrom_mergeCores, h] at he
      cases he
  | some cores => exact ⟨cores, of_getElem? h⟩

-- Its items are those of each of its members.
theorem hasItem (hm : Merged graph id cores) {member : Nat} (hmember : member ∈ graph.members cores)
    (item : Item) :
    (graph.mergeCores.state id).HasItem item ↔ (graph.state member).HasItem item := by
  rw [hm.state, hasItem_foldl_merge, or_iff_right ItemSet.not_hasItem_empty]
  refine ⟨fun ⟨other, ho, hi⟩ => ?_, fun hi => ⟨member, hmember, hi⟩⟩
  rw [ItemSet.HasItem, (StateGraph.mem_members.mp ho).2, ← (StateGraph.mem_members.mp hmember).2] at hi
  exact hi

theorem sees (hm : Merged graph id cores) (item : Item) (terminal : Nat) :
    (graph.mergeCores.state id).Sees item terminal ↔
      ∃ member ∈ graph.members cores, (graph.state member).Sees item terminal := by
  rw [hm.state, sees_foldl_merge, or_iff_right ItemSet.not_sees_empty]

-- States with the same items lead to states with the same items.
theorem classOf_eq (hf : Faithful grammar graph) {left right symbol target other : Nat}
    (hl : left ∈ graph.members cores) (hr : right ∈ graph.members cores)
    (ht : (symbol, target) ∈ graph.edgesFrom left) (ho : (symbol, other) ∈ graph.edgesFrom right) :
    graph.classOf target = graph.classOf other := by
  have hsame : (graph.state left).HasItem = (graph.state right).HasItem := by
    funext item
    rw [ItemSet.HasItem, ItemSet.HasItem, (StateGraph.mem_members.mp hl).2,
      (StateGraph.mem_members.mp hr).2]
  have hcores : (graph.state target).cores = (graph.state other).cores := by
    refine ItemSet.cores_eq fun item => ?_
    rw [hf.edge_items left symbol target ht, hf.edge_items right symbol other ho, hsame]
  rw [StateGraph.classOf, StateGraph.classOf, hcores]

theorem mem_edges (hm : Merged graph id cores) {symbol target : Nat}
    (he : (symbol, target) ∈ graph.mergeCores.edgesFrom id) :
    ∃ member ∈ graph.members cores, ∃ old, (symbol, old) ∈ graph.edgesFrom member ∧
      target = graph.classOf old := by
  rw [hm.edges] at he
  obtain ⟨old, hmem, rfl⟩ := (mem_foldl_setEdge he).resolve_left List.not_mem_nil
  obtain ⟨member, hmember, hedge⟩ := List.mem_flatMap.mp hmem
  exact ⟨member, hmember, old, hedge, rfl⟩

end Merged

theorem faithful_mergeCores {grammar : Grammar} {graph : StateGraph} (hw : grammar.toRules.WellFormed)
    (hf : Faithful grammar graph) (hmode : graph.mode ≠ .lr0) : Faithful grammar graph.mergeCores := by
  have hzero := StateGraph.classOf_zero hf.size_pos
  have hfirst : Merged graph 0 (graph.state 0).cores := by
    have h := StateGraph.coreSets_classOf hf.size_pos
    rw [hzero] at h
    exact .of_getElem? h
  have hmember : 0 ∈ graph.members (graph.state 0).cores :=
    StateGraph.mem_members.mpr ⟨hf.size_pos, rfl⟩
  constructor
  case start_items => exact fun item => (hfirst.hasItem hmember item).trans (hf.start_items item)
  case items_closed =>
    intro state item other hi hb
    obtain ⟨cores, hm⟩ := Merged.of_hasItem hi
    obtain ⟨member, hmember⟩ := hm.inhabited
    exact (hm.hasItem hmember other).mpr
      (hf.items_closed member item other ((hm.hasItem hmember item).mp hi) hb)
  case edges_sorted =>
    intro state
    rw [StateGraph.edgesFrom_mergeCores]
    split
    · exact pairwise_foldl_setEdge .nil
    · exact .nil
  case edge_target =>
    intro state symbol target he
    obtain ⟨cores, hm⟩ := Merged.of_edge he
    obtain ⟨member, hmember, old, hedge, rfl⟩ := hm.mem_edges he
    have hclass := StateGraph.coreSets_classOf (hf.edge_target member symbol old hedge).2
    refine ⟨Nat.pos_of_ne_zero fun hz => ?_, ?_⟩
    · rw [hz, ← hzero, StateGraph.coreSets_classOf hf.size_pos, Option.some_inj] at hclass
      refine hf.not_hasItem_start hw hedge ?_
      rw [ItemSet.HasItem, ← hclass]
      exact (hf.start_items .start).mpr (.given rfl)
    · rw [StateGraph.size_mergeCores]
      exact (List.getElem?_eq_some_iff.mp hclass).1
  case edge_next =>
    intro state symbol target he
    obtain ⟨cores, hm⟩ := Merged.of_edge he
    obtain ⟨member, hmember, old, hedge, -⟩ := hm.mem_edges he
    obtain ⟨item, hi, hn⟩ := hf.edge_next member symbol old hedge
    exact ⟨item, (hm.hasItem hmember item).mpr hi, hn⟩
  case edge_items =>
    intro state symbol target he item
    obtain ⟨cores, hm⟩ := Merged.of_edge he
    obtain ⟨member, hmember, old, hedge, rfl⟩ := hm.mem_edges he
    have hlt := (hf.edge_target member symbol old hedge).2
    have htarget : Merged graph (graph.classOf old) (graph.state old).cores :=
      .of_getElem? (StateGraph.coreSets_classOf hlt)
    rw [htarget.hasItem (StateGraph.mem_members.mpr ⟨hlt, rfl⟩), hf.edge_items member symbol old hedge,
      funext fun item => propext (hm.hasItem hmember item)]
  case edge_exists =>
    intro state item symbol hi hn
    obtain ⟨cores, hm⟩ := Merged.of_hasItem hi
    obtain ⟨member, hmember⟩ := hm.inhabited
    obtain ⟨old, hedge⟩ := hf.edge_exists member item symbol ((hm.hasItem hmember item).mp hi) hn
    rw [hm.edges]
    exact exists_mem_foldl_setEdge .nil (Or.inr ⟨old, List.mem_flatMap.mpr ⟨member, hmember, hedge⟩⟩)
  case start_sees => exact fun _ => (hfirst.sees _ _).mpr ⟨0, hmember, hf.start_sees hmode⟩
  case begun_sees =>
    intro _ state item other terminal hi hb hbegins
    obtain ⟨cores, hm⟩ := Merged.of_hasItem hi
    obtain ⟨member, hmember⟩ := hm.inhabited
    exact (hm.sees _ _).mpr ⟨member, hmember,
      hf.begun_sees hmode member item other terminal ((hm.hasItem hmember item).mp hi) hb hbegins⟩
  case passed_sees =>
    intro _ state item other terminal hsee hb hv
    obtain ⟨cores, hm⟩ := Merged.of_hasItem hsee.hasItem
    obtain ⟨member, hmember, hsee⟩ := (hm.sees _ _).mp hsee
    exact (hm.sees _ _).mpr
      ⟨member, hmember, hf.passed_sees hmode member item other terminal hsee hb hv⟩
  case edge_sees =>
    intro state symbol target item terminal he hsee hn
    obtain ⟨cores, hm⟩ := Merged.of_edge he
    obtain ⟨member, hmember, old, hedge, rfl⟩ := hm.mem_edges he
    obtain ⟨seer, hseer, hsee⟩ := (hm.sees _ _).mp hsee
    obtain ⟨other, hother⟩ := hf.edge_exists seer item symbol hsee.hasItem hn
    rw [Merged.classOf_eq hf hmember hseer hedge hother]
    have hlt := (hf.edge_target seer symbol other hother).2
    have htarget : Merged graph (graph.classOf other) (graph.state other).cores :=
      .of_getElem? (StateGraph.coreSets_classOf hlt)
    exact (htarget.sees _ _).mpr ⟨other, StateGraph.mem_members.mpr ⟨hlt, rfl⟩,
      hf.edge_sees seer symbol other item terminal hother hsee hn⟩
  case stems =>
    intro state item terminal hsee
    obtain ⟨cores, hm⟩ := Merged.of_hasItem hsee.hasItem
    obtain ⟨member, hmember, hsee⟩ := (hm.sees _ _).mp hsee
    exact (hf.stems member item terminal hsee).mono
      ⟨fun other => (hm.hasItem hmember other).mpr,
        fun other symbol h => (hm.sees other symbol).mpr ⟨member, hmember, h⟩⟩
  case justified =>
    intro state item terminal hsee
    obtain ⟨cores, hm⟩ := Merged.of_hasItem hsee.hasItem
    obtain ⟨member, -, hsee⟩ := (hm.sees _ _).mp hsee
    exact hf.justified member item terminal hsee

-- The graph that is built in a mode is the automaton of the grammar.
theorem faithful_build {grammar : Grammar} (hw : grammar.toRules.WellFormed) (mode : Mode) :
    Faithful grammar (.build grammar mode) := by
  have hfinished : Faithful grammar (Construction.finishedGraph grammar mode) :=
    Construction.faithful_finishedGraph hw
  unfold StateGraph.build
  split
  · rename_i hm
    refine faithful_mergeCores hw hfinished ?_
    change mode ≠ .lr0
    rw [hm]
    exact Mode.noConfusion
  · exact hfinished

theorem mode_build (grammar : Grammar) (mode : Mode) : (StateGraph.build grammar mode).mode = mode := by
  cases mode <;> rfl

end IncrementalLR
