import IncrementalLR.Proofs.Automaton.Termination
import IncrementalLR.Proofs.Saturation

namespace IncrementalLR

namespace Construction

section Reachable

variable {edges : Array Edges} {reached : List Nat}

theorem mem_reachStep {id : Nat} :
    id ∈ reachStep edges reached ↔ id < edges.size ∧
      (id ∈ reached ∨ ∃ source ∈ reached, ∃ edge ∈ edges.getD source [], edge.2 = id) := by
  simp [reachStep]

-- Lists of states in order.
structure InOrder (edges : Array Edges) (reached : List Nat) : Prop where
  sorted : reached.Pairwise (· < ·)
  lt : ∀ id ∈ reached, id < edges.size
  first : 0 ∈ reached

theorem inOrder_reachStep (hr : InOrder edges reached) : InOrder edges (reachStep edges reached) :=
  ⟨List.pairwise_lt_range.filter _, fun _ h => (mem_reachStep.mp h).1,
    mem_reachStep.mpr ⟨hr.lt 0 hr.first, Or.inl hr.first⟩⟩

theorem inOrder_first (hpos : 0 < edges.size) : InOrder edges [0] :=
  ⟨List.pairwise_singleton _ _, fun id h => by rwa [List.mem_singleton.mp h], by simp⟩

theorem inOrder_reachable (hpos : 0 < edges.size) : InOrder edges (reachable edges) :=
  saturate_induction (motive := InOrder edges) _ (fun _ => inOrder_reachStep) _ _
    (inOrder_first hpos)

theorem reachStep_reachable (hpos : 0 < edges.size) :
    reachStep edges (reachable edges) = reachable edges := by
  refine step_saturate (motive := InOrder edges) _ List.length edges.size
    (fun _ => inOrder_reachStep) (fun reached hr hne => ?_) (fun reached hr => ?_) _ _
    (inOrder_first hpos) (by simp)
  · have hstep := inOrder_reachStep hr
    let before : SymbolSet := ⟨reached, hr.sorted⟩
    let after : SymbolSet := ⟨_, hstep.sorted⟩
    have hsub : ∀ id ∈ before, id ∈ after :=
      fun id hid => mem_reachStep.mpr ⟨hr.lt id hid, Or.inl hid⟩
    exact SymbolSet.size_lt hsub fun he => hne (congrArg SymbolSet.toList he)
  · let before : SymbolSet := ⟨reached, hr.sorted⟩
    have hlt : ∀ id ∈ before, id < edges.size := hr.lt
    exact SymbolSet.size_le_of_lt hlt

theorem mem_reachable_of_edge (hpos : 0 < edges.size) {source : Nat} {edge : Nat × Nat}
    (hs : source ∈ reachable edges) (he : edge ∈ edges.getD source []) (hlt : edge.2 < edges.size) :
    edge.2 ∈ reachable edges := by
  rw [← reachStep_reachable hpos]
  exact mem_reachStep.mpr ⟨hlt, Or.inr ⟨source, hs, edge, he, rfl⟩⟩

-- The first state stays the first.
theorem reachable_first (hpos : 0 < edges.size) : (reachable edges)[0]? = some 0 := by
  have ho := inOrder_reachable hpos
  cases hr : reachable edges with
  | nil => exact absurd (hr ▸ ho.first) List.not_mem_nil
  | cons first rest =>
      have hs := hr ▸ ho.sorted
      have hmem : 0 ∈ first :: rest := hr ▸ ho.first
      rcases List.mem_cons.mp hmem with rfl | hmem
      · rfl
      · exact absurd ((List.pairwise_cons.mp hs).1 0 hmem) (Nat.not_lt_zero _)

end Reachable

section Finish

variable {grammar : Grammar} {mode : Mode}

-- The states that are kept.
def kept (grammar : Grammar) (mode : Mode) : List Nat := reachable (finished grammar mode).edges

def finishedGraph (grammar : Grammar) (mode : Mode) : StateGraph :=
  (finished grammar mode).finish grammar mode

theorem edges_size_pos (hw : grammar.toRules.WellFormed) : 0 < (finished grammar mode).edges.size := by
  have hs := (finished_sound hw mode).shaped
  exact hs.edges.symm ▸ hs.pos

theorem state_finishedGraph {id : Nat} :
    (finishedGraph grammar mode).state id =
      match (kept grammar mode)[id]? with
      | some old => ((finished grammar mode).kernel old).closure grammar mode
      | none => ∅ := by
  unfold finishedGraph finish StateGraph.state
  simp only [Array.getD_eq_getD_getElem?, List.getElem?_toArray, List.getElem?_map]
  change (Option.map _ (kept grammar mode)[id]?).getD ∅ = _
  cases (kept grammar mode)[id]? <;> rfl

theorem edgesFrom_finishedGraph {id : Nat} :
    (finishedGraph grammar mode).edgesFrom id =
      match (kept grammar mode)[id]? with
      | some old => ((finished grammar mode).edgesOf old).map fun edge =>
          (edge.1, (kept grammar mode).idxOf edge.2)
      | none => [] := by
  unfold finishedGraph finish StateGraph.edgesFrom
  simp only [Array.getD_eq_getD_getElem?, List.getElem?_toArray, List.getElem?_map]
  change (Option.map _ (kept grammar mode)[id]?).getD [] = _
  cases (kept grammar mode)[id]? with
  | none => rfl
  | some old => simp only [edgesOf, Array.getD_eq_getD_getElem?, kept, Option.map_some, Option.getD_some]

theorem size_finishedGraph : (finishedGraph grammar mode).size = (kept grammar mode).length := by
  simp [finishedGraph, finish, StateGraph.size, kept]

-- A state that is kept, with its items and edges.
structure Kept (grammar : Grammar) (mode : Mode) (id old : Nat) : Prop where
  mem : old ∈ kept grammar mode
  lt : old < (finished grammar mode).size
  state : (finishedGraph grammar mode).state id =
    ((finished grammar mode).kernel old).closure grammar mode
  edges : ∀ symbol target, (symbol, target) ∈ (finishedGraph grammar mode).edgesFrom id ↔
    ∃ old', (symbol, old') ∈ (finished grammar mode).edgesOf old ∧
      target = (kept grammar mode).idxOf old'

theorem kept_of_getElem? (hw : grammar.toRules.WellFormed) {id old : Nat}
    (h : (kept grammar mode)[id]? = some old) : Kept grammar mode id old := by
  have hs := (finished_sound hw mode).shaped
  have hmem : old ∈ kept grammar mode := List.mem_of_getElem? h
  refine ⟨hmem, ?_, by rw [state_finishedGraph, h], fun symbol target => ?_⟩
  · rw [← hs.edges]
    exact (inOrder_reachable (edges_size_pos hw)).lt old hmem
  · rw [edgesFrom_finishedGraph, h]
    simp only [List.mem_map, Prod.mk.injEq]
    constructor
    · rintro ⟨⟨symbol, old'⟩, hedge, rfl, rfl⟩
      exact ⟨old', hedge, rfl⟩
    · rintro ⟨old', hedge, rfl⟩
      exact ⟨(symbol, old'), hedge, rfl, rfl⟩

theorem kept_of_hasItem (hw : grammar.toRules.WellFormed) {id : Nat} {item : Item}
    (hi : ((finishedGraph grammar mode).state id).HasItem item) :
    ∃ old, Kept grammar mode id old := by
  rw [state_finishedGraph] at hi
  cases h : (kept grammar mode)[id]? with
  | none =>
      rw [h] at hi
      exact absurd hi ItemSet.not_hasItem_empty
  | some old => exact ⟨old, kept_of_getElem? hw h⟩

theorem kept_of_edge (hw : grammar.toRules.WellFormed) {id : Nat} {edge : Nat × Nat}
    (he : edge ∈ (finishedGraph grammar mode).edgesFrom id) : ∃ old, Kept grammar mode id old := by
  rw [edgesFrom_finishedGraph] at he
  cases h : (kept grammar mode)[id]? with
  | none =>
      rw [h] at he
      cases he
  | some old => exact ⟨old, kept_of_getElem? hw h⟩

theorem kept_zero (hw : grammar.toRules.WellFormed) : Kept grammar mode 0 0 :=
  kept_of_getElem? hw (reachable_first (edges_size_pos hw))

-- An edge of the graph leads to the place of a state that is kept.
theorem Kept.target (hw : grammar.toRules.WellFormed) {id old symbol old' : Nat}
    (hk : Kept grammar mode id old) (he : (symbol, old') ∈ (finished grammar mode).edgesOf old) :
    (kept grammar mode)[(kept grammar mode).idxOf old']? = some old' := by
  have hs := finished_sound hw mode
  have hmem : old' ∈ kept grammar mode :=
    mem_reachable_of_edge (edges_size_pos hw) hk.mem he
      (hs.shaped.edges.symm ▸ (hs.edge_target old symbol old' he).2)
  have hlt := List.idxOf_lt_length_of_mem hmem
  rw [List.getElem?_eq_getElem hlt, List.getElem_idxOf hlt]

theorem faithful_finishedGraph (hw : grammar.toRules.WellFormed) :
    Faithful grammar (finishedGraph grammar mode) := by
  have hs := finished_sound hw mode
  have hitems : ∀ {id old}, Kept grammar mode id old → ∀ item,
      ((finishedGraph grammar mode).state id).HasItem item ↔
        Reaches grammar.toRules ((finished grammar mode).kernel old).HasItem item := by
    intro id old hk item
    rw [hk.state]
    exact ItemSet.hasItem_closure hw (hs.bounded old)
  have hsees : ∀ {id old}, Kept grammar mode id old → mode ≠ .lr0 → ∀ item terminal,
      ((finishedGraph grammar mode).state id).Sees item terminal ↔
        Foresees grammar.toRules ((finished grammar mode).kernel old) item terminal := by
    intro id old hk hm item terminal
    rw [hk.state]
    exact ItemSet.sees_closure hw (hs.bounded old) hm
  constructor
  case start_items =>
    intro item
    rw [hitems (kept_zero hw)]
    exact ⟨.mono fun other => (hs.start other).mp, .mono fun other => (hs.start other).mpr⟩
  case items_closed =>
    intro state item other hi hb
    obtain ⟨old, hk⟩ := kept_of_hasItem hw hi
    exact (hitems hk other).mpr (.brought ((hitems hk item).mp hi) hb)
  case edges_sorted =>
    intro state
    rw [edgesFrom_finishedGraph]
    split
    · exact List.pairwise_map.mpr (hs.edges_sorted _)
    · exact .nil
  case edge_target =>
    intro state symbol target hmem
    obtain ⟨old, hk⟩ := kept_of_edge hw hmem
    obtain ⟨old', hedge, rfl⟩ := (hk.edges symbol target).mp hmem
    have htarget := hk.target hw hedge
    refine ⟨Nat.pos_of_ne_zero fun he => ?_, ?_⟩
    · rw [he] at htarget
      have hfirst := (reachable_first (edges_size_pos hw)).symm.trans htarget
      have hpos := (hs.edge_target old symbol old' hedge).1
      rw [← Option.some_inj.mp hfirst] at hpos
      exact Nat.lt_irrefl _ hpos
    · rw [size_finishedGraph]
      exact (List.getElem?_eq_some_iff.mp htarget).1
  case edge_next =>
    intro state symbol target hmem
    obtain ⟨old, hk⟩ := kept_of_edge hw hmem
    obtain ⟨old', hedge, rfl⟩ := (hk.edges symbol target).mp hmem
    obtain ⟨item, hr, hn⟩ := hs.edge_next old symbol old' hedge
    exact ⟨item, (hitems hk item).mpr hr, hn⟩
  case edge_items =>
    intro state symbol target hmem item
    obtain ⟨old, hk⟩ := kept_of_edge hw hmem
    obtain ⟨old', hedge, rfl⟩ := (hk.edges symbol target).mp hmem
    have hsuccessor : ∀ item, ((finished grammar mode).kernel old').HasItem item ↔
        Successor grammar.toRules ((finishedGraph grammar mode).state state).HasItem symbol item := by
      intro item
      rw [hs.edge_items old symbol old' hedge]
      simp only [Successor, hitems hk]
    rw [hitems (kept_of_getElem? hw (hk.target hw hedge))]
    exact ⟨.mono fun other => (hsuccessor other).mp, .mono fun other => (hsuccessor other).mpr⟩
  case edge_exists =>
    intro state item symbol hi hn
    obtain ⟨old, hk⟩ := kept_of_hasItem hw hi
    rw [hk.state] at hi
    obtain ⟨old', hedge, -⟩ := finished_served hw hk.lt symbol (ItemSet.mem_nextSymbols.mpr ⟨item, hi, hn⟩)
    exact ⟨_, (hk.edges symbol _).mpr ⟨old', hedge, rfl⟩⟩
  case start_sees =>
    intro hm
    exact (hsees (kept_zero hw) hm _ _).mpr (.given (hs.start_sees hm))
  case begun_sees =>
    intro hm state item other terminal hi hb hbegins
    obtain ⟨old, hk⟩ := kept_of_hasItem hw hi
    exact (hsees hk hm other terminal).mpr (.begun ((hitems hk item).mp hi) hb hbegins)
  case passed_sees =>
    intro hm state item other terminal hsee hb hv
    obtain ⟨old, hk⟩ := kept_of_hasItem hw hsee.hasItem
    exact (hsees hk hm other terminal).mpr (.passed ((hsees hk hm item terminal).mp hsee) hb hv)
  case edge_sees =>
    intro state symbol target item terminal hmem hsee hn
    obtain ⟨old, hk⟩ := kept_of_edge hw hmem
    obtain ⟨old', hedge, rfl⟩ := (hk.edges symbol target).mp hmem
    rw [hk.state] at hsee
    obtain ⟨served, hserved, hwithin⟩ := finished_served hw hk.lt symbol
      (ItemSet.mem_nextSymbols.mpr ⟨item, hsee.hasItem, hn⟩)
    have hsame := target_unique (hs.edges_sorted old) hserved hedge
    subst hsame
    rw [(kept_of_getElem? hw (hk.target hw hedge)).state]
    exact ItemSet.within_closure.sees _ _
      (hwithin.sees _ _ (ItemSet.sees_gotoKernel.mpr ⟨item, hsee, hn, rfl⟩))
  case stems =>
    intro state item terminal hsee
    obtain ⟨old, hk⟩ := kept_of_hasItem hw hsee.hasItem
    rw [hk.state] at hsee ⊢
    have hf := ItemSet.foresees_of_sees_closure hw hsee
    clear hsee
    induction hf with
    | given h => exact .kernel (ItemSet.within_closure.sees _ _ h) (hs.moved old _ h.hasItem)
    | begun hr hb hbegins =>
        exact .begun ((ItemSet.hasItem_closure hw (hs.bounded old)).mpr hr) hb hbegins
    | passed _ hb hv ih => exact .passed ih hb hv
  case justified =>
    intro state item terminal hsee
    obtain ⟨old, hk⟩ := kept_of_hasItem hw hsee.hasItem
    rw [hk.state] at hsee
    exact valid_of_foresees (hs.spelled old) (hs.justified old)
      (ItemSet.foresees_of_sees_closure hw hsee)

end Finish

end Construction

end IncrementalLR
