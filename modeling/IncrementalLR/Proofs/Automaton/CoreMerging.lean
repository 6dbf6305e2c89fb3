import IncrementalLR.Proofs.Automaton.WeakCompatibility
import Mathlib.Data.Set.Function

namespace IncrementalLR

namespace StateGraph

-- Whether a graph becomes another one when its states are given other ids.
structure Renames (graph other : StateGraph) (rename : Nat → Nat) : Prop where
  bijective : Set.BijOn rename {id | id < graph.size} {id | id < other.size}
  first : rename 0 = 0
  cores : ∀ id, id < graph.size → (other.state (rename id)).cores = (graph.state id).cores
  edges : ∀ id, id < graph.size →
    other.edgesFrom (rename id) = (graph.edgesFrom id).map fun edge => (edge.1, rename edge.2)

-- Graphs in which no two states have the same cores.
def Apart (graph : StateGraph) : Prop :=
  ∀ id other, id < graph.size → other < graph.size → (graph.state id).cores = (graph.state other).cores → id = other

-- Graphs whose states differ in their items, and all lie on walks from the first.
structure Distinct (graph : StateGraph) : Prop where
  apart : graph.Apart
  reached : ∀ id, id < graph.size → ∃ word, graph.walk 0 word = some id

end StateGraph

section Renaming

variable {grammar : Grammar} {graph other : StateGraph} {id place symbol target : Nat} {word : List Nat}

namespace Faithful

-- States with the same items have edges over the same symbols, to states with the same items.
theorem edge_agrees (hf : Faithful grammar graph) (ho : Faithful grammar other)
    (hc : (graph.state id).cores = (other.state place).cores) (he : (symbol, target) ∈ graph.edgesFrom id) :
    ∃ target', (symbol, target') ∈ other.edgesFrom place ∧
      (graph.state target).cores = (other.state target').cores := by
  obtain ⟨item, hi, hn⟩ := hf.edge_next id symbol target he
  obtain ⟨target', he'⟩ := ho.edge_exists place item symbol ((ItemSet.hasItem_congr hc item).mp hi) hn
  refine ⟨target', he', ItemSet.cores_eq fun item => ?_⟩
  rw [hf.edge_items id symbol target he, ho.edge_items place symbol target' he',
    funext fun item => propext (ItemSet.hasItem_congr hc item)]

theorem cores_zero (hf : Faithful grammar graph) (ho : Faithful grammar other) :
    (graph.state 0).cores = (other.state 0).cores :=
  ItemSet.cores_eq fun item => (hf.start_items item).trans (ho.start_items item).symm

theorem follow_eq_some_iff (hf : Faithful grammar graph) :
    graph.follow id symbol = some target ↔ (symbol, target) ∈ graph.edgesFrom id :=
  lookup_eq_some_iff (hf.edges_sorted id)

theorem walk_lt (hf : Faithful grammar graph) (hid : id < graph.size) (h : graph.walk id word = some target) :
    target < graph.size := by
  induction word generalizing id with
  | nil => exact Option.some_inj.mp h ▸ hid
  | cons symbol word ih =>
      obtain ⟨next, hnext, hrest⟩ := Option.bind_eq_some_iff.mp h
      exact ih (hf.edge_target id symbol next (hf.follow_eq_some_iff.mp hnext)).2 hrest

-- Something is in each state on a walk.
theorem exists_hasItem_of_walk (hf : Faithful grammar graph) (h : graph.walk 0 word = some target) :
    ∃ item, (graph.state target).HasItem item := by
  have hwalk : ∀ {id : Nat}, (∃ item, (graph.state id).HasItem item) → graph.walk id word = some target →
      ∃ item, (graph.state target).HasItem item := by
    clear h
    induction word with
    | nil => exact fun hi h => Option.some_inj.mp h ▸ hi
    | cons symbol word ih =>
        intro id _ h
        obtain ⟨next, hnext, hrest⟩ := Option.bind_eq_some_iff.mp h
        have he := hf.follow_eq_some_iff.mp hnext
        obtain ⟨item, hi, hn⟩ := hf.edge_next id symbol next he
        exact ih ⟨item.advance, (hf.edge_items id symbol next he _).mpr (.given ⟨item, hi, hn, rfl⟩)⟩ hrest
  exact hwalk ⟨.start, (hf.start_items .start).mpr (.given rfl)⟩ h

theorem walk_agrees (hf : Faithful grammar graph) (ho : Faithful grammar other)
    (hc : (graph.state id).cores = (other.state place).cores) (h : graph.walk id word = some target) :
    ∃ target', other.walk place word = some target' ∧
      (graph.state target).cores = (other.state target').cores := by
  induction word generalizing id place with
  | nil =>
      obtain rfl := Option.some_inj.mp h
      exact ⟨place, rfl, hc⟩
  | cons symbol word ih =>
      obtain ⟨next, hnext, hrest⟩ := Option.bind_eq_some_iff.mp h
      obtain ⟨next', he, hcores⟩ := hf.edge_agrees ho hc (hf.follow_eq_some_iff.mp hnext)
      obtain ⟨target', hwalk, hlast⟩ := ih hcores hrest
      refine ⟨target', ?_, hlast⟩
      rw [StateGraph.walk, ho.follow_eq_some_iff.mpr he, Option.bind_some, hwalk]

theorem exists_same_cores (hf : Faithful grammar graph) (ho : Faithful grammar other)
    (hreached : ∃ word, graph.walk 0 word = some id) :
    ∃ place, place < other.size ∧ (other.state place).cores = (graph.state id).cores := by
  obtain ⟨word, hwalk⟩ := hreached
  obtain ⟨place, hother, hcores⟩ := hf.walk_agrees ho (hf.cores_zero ho) hwalk
  exact ⟨place, ho.walk_lt ho.size_pos hother, hcores.symm⟩

-- Automata of one grammar are the same up to the ids of their states, if the items tell
-- these apart.
theorem exists_renames (hf : Faithful grammar graph) (ho : Faithful grammar other) (hd : graph.Distinct)
    (hd' : other.Distinct) : ∃ rename, graph.Renames other rename := by
  have hsame : ∀ id, id < graph.size →
      ∃ place, place < other.size ∧ (other.state place).cores = (graph.state id).cores := fun id hid =>
    hf.exists_same_cores ho (hd.reached id hid)
  choose! rename hlt hcores using hsame
  have hunique : ∀ {id place}, id < graph.size → place < other.size →
      (graph.state id).cores = (other.state place).cores → rename id = place := fun hid hplace hc =>
    hd'.apart _ _ (hlt _ hid) hplace ((hcores _ hid).trans hc)
  refine ⟨rename, ⟨hlt, ?_, ?_⟩, hunique hf.size_pos ho.size_pos (hf.cores_zero ho), hcores, fun id hid => ?_⟩
  · intro left hl right hr he
    apply hd.apart left right hl hr
    rw [← hcores left hl, he, hcores right hr]
  · intro place hplace
    obtain ⟨id, hid, hc⟩ := ho.exists_same_cores hf (hd'.reached place hplace)
    exact ⟨id, hid, hunique hid hplace hc⟩
  · apply edges_ext (ho.edges_sorted _)
    · exact List.pairwise_map.mpr (hf.edges_sorted id)
    rintro ⟨symbol, target⟩
    rw [List.mem_map]
    constructor
    · intro he
      obtain ⟨old, hold, hc⟩ := ho.edge_agrees hf (hcores id hid) he
      refine ⟨(symbol, old), hold, ?_⟩
      rw [hunique (hf.edge_target id symbol old hold).2 (ho.edge_target _ symbol target he).2 hc.symm]
    · rintro ⟨⟨symbol, old⟩, hold, he⟩
      obtain ⟨rfl, rfl⟩ := Prod.mk.inj he
      obtain ⟨place, hplace, hc⟩ := hf.edge_agrees ho (hcores id hid).symm hold
      rw [hunique (hf.edge_target id symbol old hold).2 (ho.edge_target _ symbol place hplace).2 hc]
      exact hplace

end Faithful

end Renaming

namespace StateGraph

variable {grammar : Grammar} {graph : StateGraph} {id target symbol : Nat}

theorem coreSets_mergeCores (hid : id < graph.mergeCores.size) :
    graph.coreSets[id]? = some (graph.mergeCores.state id).cores := by
  rw [size_mergeCores] at hid
  have hget := List.getElem?_eq_getElem hid
  have hm := Merged.of_getElem? hget
  obtain ⟨member, hmember⟩ := hm.inhabited
  rw [hget, ← (mem_members.mp hmember).2, ItemSet.cores_eq (hm.hasItem hmember)]

theorem nodup_coreSets (graph : StateGraph) : graph.coreSets.Nodup := Declarations.nodup_eraseDups _

theorem classOf_eq_iff {left right : Nat} (hl : left < graph.size) (hr : right < graph.size) :
    graph.classOf left = graph.classOf right ↔ (graph.state left).cores = (graph.state right).cores := by
  constructor
  · intro he
    have hleft := coreSets_classOf hl
    rw [he, coreSets_classOf hr, Option.some_inj] at hleft
    exact hleft.symm
  · intro he
    rw [classOf, classOf, he]

-- Each merged state is the class of some state.
theorem exists_classOf (hid : id < graph.mergeCores.size) : ∃ old, old < graph.size ∧ graph.classOf old = id := by
  have hget := coreSets_mergeCores hid
  obtain ⟨old, hold, hc⟩ := mem_coreSets.mp (List.mem_of_getElem? hget)
  refine ⟨old, hold, ?_⟩
  rw [size_mergeCores] at hid
  exact ((List.getElem?_inj hid graph.nodup_coreSets).mp (hget.trans (hc ▸ (coreSets_classOf hold).symm))).symm

-- The edges of a state lead from its class to the classes of their targets, and the
-- class has no others.
theorem edge_mergeCores_iff (hf : Faithful grammar graph) (hid : id < graph.size) :
    (symbol, target) ∈ graph.mergeCores.edgesFrom (graph.classOf id) ↔
      ∃ old, (symbol, old) ∈ graph.edgesFrom id ∧ target = graph.classOf old := by
  have hm := Merged.of_getElem? (coreSets_classOf hid)
  have hmember : id ∈ graph.members (graph.state id).cores := mem_members.mpr ⟨hid, rfl⟩
  constructor
  · intro he
    obtain ⟨member, hmember', old, hold, rfl⟩ := hm.mem_edges he
    obtain ⟨old', hold', -⟩ := hf.edge_agrees hf (mem_members.mp hmember').2 hold
    exact ⟨old', hold', Merged.classOf_eq hf hmember' hmember hold hold'⟩
  · rintro ⟨old, hold, rfl⟩
    obtain ⟨target, he⟩ : ∃ target, (symbol, target) ∈ graph.mergeCores.edgesFrom (graph.classOf id) := by
      rw [hm.edges]
      exact exists_mem_foldl_setEdge .nil (Or.inr ⟨old, List.mem_flatMap.mpr ⟨id, hmember, hold⟩⟩)
    obtain ⟨member, hmember', old', hold', rfl⟩ := hm.mem_edges he
    rw [Merged.classOf_eq hf hmember hmember' hold hold']
    exact he

theorem walk_mergeCores (hf : Faithful grammar graph) (hm : Faithful grammar graph.mergeCores) (hid : id < graph.size)
    {word : List Nat} (h : graph.walk id word = some target) :
    graph.mergeCores.walk (graph.classOf id) word = some (graph.classOf target) := by
  induction word generalizing id with
  | nil =>
      obtain rfl := Option.some_inj.mp h
      rfl
  | cons symbol word ih =>
      obtain ⟨next, hnext, hrest⟩ := Option.bind_eq_some_iff.mp h
      have he := hf.follow_eq_some_iff.mp hnext
      have hmerged := hm.follow_eq_some_iff.mpr ((edge_mergeCores_iff hf hid).mpr ⟨next, he, rfl⟩)
      rw [walk, hmerged, Option.bind_some]
      exact ih (hf.edge_target id symbol next he).2 hrest

theorem apart_mergeCores (graph : StateGraph) : graph.mergeCores.Apart := by
  intro id other hid ho hc
  have hget := (coreSets_mergeCores hid).trans (hc ▸ (coreSets_mergeCores ho).symm)
  exact (List.getElem?_inj (size_mergeCores ▸ hid) graph.nodup_coreSets).mp hget

theorem distinct_mergeCores (hf : Faithful grammar graph) (hm : Faithful grammar graph.mergeCores)
    (hreached : ∀ id, id < graph.size → ∃ word, graph.walk 0 word = some id) : graph.mergeCores.Distinct := by
  constructor
  case apart => exact graph.apart_mergeCores
  case reached =>
    intro id hid
    obtain ⟨old, hold, rfl⟩ := exists_classOf hid
    obtain ⟨word, hword⟩ := hreached old hold
    have hwalk := walk_mergeCores hf hm hf.size_pos hword
    rw [classOf_zero hf.size_pos] at hwalk
    exact ⟨word, hwalk⟩

end StateGraph

namespace Construction

variable {grammar : Grammar} {mode : Mode} {building : Construction} {id other : Nat} {item : Item}

-- The kernel of a state can be told from what its closure has brought in.
theorem hasItem_kernel (hw : grammar.toRules.WellFormed) (hs : Sound grammar mode building) :
    (building.kernel id).HasItem item ↔
      ((building.kernel id).closure grammar mode).HasItem item ∧ (0 < item.dot ∨ item = .start) := by
  refine ⟨fun hi => ⟨ItemSet.within_closure.hasItem item hi, hs.moved id item hi⟩, fun ⟨hi, hmoved⟩ => ?_⟩
  cases ItemSet.reaches_of_hasItem_closure hw hi with
  | given hi => exact hi
  | brought _ hb =>
      obtain ⟨next, -, hleft, hzero⟩ := hb
      rcases hmoved with hpos | rfl
      · omega
      · rw [show Item.start.production = startProduction from rfl, hw.start_left] at hleft
        cases hleft

-- Item sets without lookaheads.
def Blind (set : ItemSet) : Prop := ∀ item symbol, ¬ set.Sees item symbol

theorem blind_kernel (hid : id < (finished grammar .lr0).size) : Blind ((finished grammar .lr0).kernel id) := by
  apply @kernel_induction grammar .lr0 (fun _ => Blind) _ _ _ id hid
  · intro item symbol hs
    exact (ItemSet.sees_startKernel.mp hs).2.1 rfl
  · intro _ set other hs ho _ item symbol h
    exact (ItemSet.sees_merge.mp h).elim (hs item symbol) (ho item symbol)
  · intro _ set symbol hs item terminal h
    obtain ⟨source, hsource, -, -⟩ := ItemSet.sees_gotoKernel.mp h
    refine saturate_induction (motive := Blind) _ (fun set ih item symbol hs => ?_) _ set hs source terminal hsource
    obtain ⟨entry, -, -, hbrought⟩ := (ItemSet.sees_closeStep.mp hs).resolve_left (ih item symbol)
    exact SymbolSet.not_mem_empty symbol hbrought

-- Item sets that are reached over some symbol, over which all of their items have moved.
def MovedOver (rules : Rules) (origin : Option Nat) (set : ItemSet) : Prop :=
  ∀ symbol, origin = some symbol → ∀ item, set.HasItem item →
    ∃ source : Item, source.next? rules = some symbol ∧ item = source.advance

theorem movedOver_kernel (hid : id < (finished grammar mode).size) :
    MovedOver grammar.toRules ((finished grammar mode).origin id) ((finished grammar mode).kernel id) := by
  apply kernel_induction _ _ _ hid
  · exact nofun
  · intro origin set other hs ho _ symbol he item hi
    exact (ItemSet.hasItem_merge.mp hi).elim (hs symbol he item) (ho symbol he item)
  · intro _ set symbol _ symbol' he item hi
    obtain rfl := Option.some_inj.mp he
    obtain ⟨source, -, hn, rfl⟩ := ItemSet.hasItem_gotoKernel.mp hi
    exact ⟨source, hn, rfl⟩

-- Sets with an item in common are reached over the same symbol.
theorem MovedOver.unique {rules : Rules} {set other : ItemSet} {symbol symbol' : Nat}
    (hs : MovedOver rules (some symbol) set) (ho : MovedOver rules (some symbol') other)
    (hi : set.HasItem item) (hi' : other.HasItem item) : symbol = symbol' := by
  obtain ⟨source, hn, rfl⟩ := hs symbol rfl item hi
  obtain ⟨source', hn', he⟩ := ho symbol' rfl _ hi'
  obtain rfl : source = source' := by
    cases source
    cases source'
    simpa [Item.advance] using he
  exact Option.some_inj.mp (hn.symm.trans hn')

-- The start item has not moved.
theorem not_hasItem_start_kernel (hw : grammar.toRules.WellFormed) (hpos : 0 < id)
    (hid : id < (finished grammar mode).size) : ¬ ((finished grammar mode).kernel id).HasItem .start := by
  intro hi
  obtain ⟨seeds, hseeds⟩ := finished_seeded hw mode
  obtain ⟨symbol, horigin, -⟩ := hseeds.origin id hpos hid
  obtain ⟨source, -, he⟩ := movedOver_kernel hid symbol horigin .start hi
  exact Nat.noConfusion (congrArg Item.dot he)

-- Without lookaheads a kernel is created once.
theorem created_once_lr0 (hw : grammar.toRules.WellFormed) (hpos : 0 < id)
    (hlt : id < (finished grammar .lr0).size) (hpos' : 0 < other) (hlt' : other < (finished grammar .lr0).size)
    (hc : ((finished grammar .lr0).kernel id).cores = ((finished grammar .lr0).kernel other).cores)
    (hi : ((finished grammar .lr0).kernel id).HasItem item) : id = other := by
  obtain ⟨seeds, hseeds⟩ := finished_seeded hw .lr0
  obtain ⟨symbol, horigin, -⟩ := hseeds.origin id hpos hlt
  obtain ⟨symbol', horigin', -⟩ := hseeds.origin other hpos' hlt'
  have hsame : symbol = symbol' :=
    (horigin ▸ movedOver_kernel hlt).unique (horigin' ▸ movedOver_kernel hlt') hi
      ((ItemSet.hasItem_congr hc item).mp hi)
  have hblind : ∀ {id}, 0 < id → id < (finished grammar .lr0).size → Blind (seeds id) :=
    fun hpos hlt item symbol h => blind_kernel hlt item symbol ((hseeds.within _ hpos hlt).sees item symbol h)
  have hseed : seeds id = seeds other := by
    apply ItemSet.ext
    · intro item
      apply ItemSet.hasItem_congr
      rw [hseeds.cores id hpos hlt, hseeds.cores other hpos' hlt', hc]
    · intro item symbol
      exact iff_of_false (hblind hpos hlt item symbol) (hblind hpos' hlt' item symbol)
  rcases Nat.lt_trichotomy id other with h | h | h
  · exact absurd hseed (hseeds.distinct id other hpos h hlt' (by rw [horigin, horigin', hsame]))
  · exact h
  · exact absurd hseed.symm (hseeds.distinct other id hpos' h hlt (by rw [horigin, horigin', hsame]))

theorem kernel_lr0_injective (hw : grammar.toRules.WellFormed) (hlt : id < (finished grammar .lr0).size)
    (hlt' : other < (finished grammar .lr0).size)
    (hc : ((finished grammar .lr0).kernel id).cores = ((finished grammar .lr0).kernel other).cores)
    (hi : ((finished grammar .lr0).kernel id).HasItem item) : id = other := by
  have hstart := ((finished_sound hw .lr0).start .start).mpr rfl
  rcases Nat.eq_zero_or_pos id with rfl | hpos
  · by_contra hne
    exact not_hasItem_start_kernel hw (by omega) hlt' ((ItemSet.hasItem_congr hc _).mp hstart)
  · rcases Nat.eq_zero_or_pos other with rfl | hpos'
    · exact absurd ((ItemSet.hasItem_congr hc _).mpr hstart) (not_hasItem_start_kernel hw hpos hlt)
    · exact created_once_lr0 hw hpos hlt hpos' hlt' hc hi

theorem distinct_lr0 (hw : grammar.toRules.WellFormed) : (finishedGraph grammar .lr0).Distinct := by
  have hsound := finished_sound hw .lr0
  have hfaithful : Faithful grammar (finishedGraph grammar .lr0) := faithful_finishedGraph hw
  refine ⟨fun id other hid ho hc => ?_, fun id hid => exists_walk_finishedGraph hw hid⟩
  obtain ⟨word, hwalk⟩ := exists_walk_finishedGraph hw hid
  obtain ⟨item, hi⟩ := hfaithful.exists_hasItem_of_walk hwalk
  rw [size_finishedGraph] at hid ho
  have hk := kept_of_getElem? hw (List.getElem?_eq_getElem hid)
  have hk' := kept_of_getElem? hw (List.getElem?_eq_getElem ho)
  have hkernel : ((finished grammar .lr0).kernel (kept grammar .lr0)[id]).cores =
      ((finished grammar .lr0).kernel (kept grammar .lr0)[other]).cores := by
    refine ItemSet.cores_eq fun item => ?_
    rw [hasItem_kernel hw hsound, hasItem_kernel hw hsound, ← hk.state, ← hk'.state, ItemSet.hasItem_congr hc]
  rw [hk.state] at hi
  obtain ⟨given, hgiven⟩ := (ItemSet.reaches_of_hasItem_closure hw hi).exists_given
  have hnodup : (kept grammar .lr0).Nodup :=
    (inOrder_reachable (edges_size_pos hw)).sorted.imp fun h => Nat.ne_of_lt h
  exact hnodup.getElem_inj_iff.mp (kernel_lr0_injective hw hk.lt hk'.lt hkernel hgiven)

end Construction

-- Every state of an automaton lies on a walk from the first.
theorem StateGraph.exists_walk_build {grammar : Grammar} {mode : Mode} (hw : grammar.toRules.WellFormed) {id : Nat}
    (hid : id < (build grammar mode).size) : ∃ word, (build grammar mode).walk 0 word = some id := by
  have hf : Faithful grammar (Construction.finishedGraph grammar mode) := Construction.faithful_finishedGraph hw
  unfold StateGraph.build at hid ⊢
  dsimp only at hid ⊢
  split at hid
  · rename_i hmode
    rw [if_pos hmode]
    have hm : Faithful grammar (Construction.finishedGraph grammar mode).mergeCores :=
      faithful_mergeCores hw hf (by change mode ≠ .lr0; rw [hmode]; exact Mode.noConfusion)
    exact (distinct_mergeCores hf hm fun id => Construction.exists_walk_finishedGraph hw).reached _ hid
  · rename_i hmode
    rw [if_neg hmode]
    exact Construction.exists_walk_finishedGraph hw hid

-- What the merging of all states of equal cores comes to: the automaton without
-- lookaheads, in which an item sees what it sees in the canonical sets of the same
-- cores. Edges that fall together have fallen together at their targets as well.
structure Grammar.MergesCores (grammar : Grammar) (graph merged : StateGraph) : Prop where
  apart : ∀ id other, id < merged.size → other < merged.size →
    (merged.state id).cores = (merged.state other).cores → id = other
  renames : ∃ rename, merged.Renames (.build grammar .lr0) rename
  sees : ∀ id, id < merged.size → ∀ item symbol, (merged.state id).Sees item symbol ↔
    ∃ word, (grammar.canonical word).cores = (merged.state id).cores ∧ (grammar.canonical word).Sees item symbol
  repoints : ∀ left right symbol target other, left < graph.size → right < graph.size →
    graph.classOf left = graph.classOf right → (symbol, target) ∈ graph.edgesFrom left →
    (symbol, other) ∈ graph.edgesFrom right →
    graph.classOf target = graph.classOf other ∧
      merged.follow (graph.classOf left) symbol = some (graph.classOf target)

-- The merged graph sees the unions of the canonical lookaheads.
theorem SimulatesCanonical.sees_mergeCores {grammar : Grammar} {graph : StateGraph}
    (hs : SimulatesCanonical grammar graph) {id : Nat} (hid : id < graph.mergeCores.size) (item : Item)
    (symbol : Nat) :
    (graph.mergeCores.state id).Sees item symbol ↔
      ∃ word, (grammar.canonical word).cores = (graph.mergeCores.state id).cores ∧
        (grammar.canonical word).Sees item symbol := by
  have hm := Merged.of_getElem? (StateGraph.coreSets_mergeCores hid)
  rw [hm.sees]
  constructor
  · rintro ⟨member, hmember, hsees⟩
    obtain ⟨word, hc, hcanonical⟩ := hs.accounted member item symbol hsees
    exact ⟨word, hc.trans (StateGraph.mem_members.mp hmember).2, hcanonical⟩
  · rintro ⟨word, hc, hsees⟩
    have hne : (grammar.canonical word).isEmpty = false := by
      rw [← Bool.not_eq_true, ItemSet.isEmpty_iff]
      exact fun h => h item hsees.hasItem
    obtain ⟨member, hwalk⟩ := (hs.walk_iff word).mpr hne
    have hstate := hs.sees word member item symbol hwalk hsees
    refine ⟨member, StateGraph.mem_members.mpr ⟨?_, (hs.cores word member hwalk).trans hc⟩, hstate⟩
    by_contra hlt
    rw [StateGraph.state_ge (Nat.not_lt.mp hlt)] at hstate
    exact ItemSet.not_sees_empty hstate

-- The merged graph of a grammar is its textbook automaton.
theorem mergesCores_build {grammar : Grammar} (hb : grammar.Built) :
    grammar.MergesCores (Construction.finishedGraph grammar .lalr) (.build grammar .lalr) := by
  have hw := hb.wellFormed
  have hf : Faithful grammar (Construction.finishedGraph grammar .lalr) := Construction.faithful_finishedGraph hw
  have hm : Faithful grammar (Construction.finishedGraph grammar .lalr).mergeCores := faithful_build hw .lalr
  have hd := StateGraph.distinct_mergeCores hf hm fun id hid => Construction.exists_walk_finishedGraph hw hid
  constructor
  case apart => exact hd.apart
  case renames => exact hm.exists_renames (faithful_build hw .lr0) hd (Construction.distinct_lr0 hw)
  case sees => exact fun id hid => (simulates_finishedGraph hw Mode.noConfusion).sees_mergeCores hid
  case repoints =>
    intro left right symbol target other hl hr hclass ht ho
    rw [StateGraph.classOf_eq_iff hl hr] at hclass
    have hleft := StateGraph.mem_members.mpr ⟨hl, hclass⟩
    have hright := StateGraph.mem_members.mpr ⟨hr, rfl⟩
    refine ⟨Merged.classOf_eq hf hleft hright ht ho, ?_⟩
    exact hm.follow_eq_some_iff.mpr ((StateGraph.edge_mergeCores_iff hf hl).mpr ⟨target, ht, rfl⟩)

theorem mergesCores_crossed :
    Rules.crossed.toGrammar.Built ∧
      (StateGraph.build Rules.crossed.toGrammar .lalr).size < (StateGraph.build Rules.crossed.toGrammar .lr1).size ∧
      Rules.crossed.toGrammar.MergesCores (Construction.finishedGraph Rules.crossed.toGrammar .lalr)
        (.build Rules.crossed.toGrammar .lalr) :=
  ⟨built_crossed, by decide +kernel, mergesCores_build built_crossed⟩

section Conflicts

variable {grammar : Grammar} {graph : StateGraph} {id symbol : Nat} {action : Action}

-- An action without the state that it leads to.
def Action.kind : Action → Action
  | shift _ => shift 0
  | goto _ => goto 0
  | reduce production => reduce production
  | accept => accept

-- Where an action leads does not decide on a conflict.
theorem between?_eq_none_congr {rules : Rules} {state place : Nat} {left right left' right' : Action}
    (hl : left.kind = left'.kind) (hr : right.kind = right'.kind)
    (h : Conflict.between? rules place symbol left' right' = none) :
    Conflict.between? rules state symbol left right = none := by
  cases left <;> cases left' <;> simp only [Action.kind, reduceCtorEq, Action.reduce.injEq] at hl <;>
    cases right <;> cases right' <;> simp_all [Action.kind, Conflict.between?]

-- Merging all states of equal cores only adds to what a state may do.
theorem exists_candidate_lalr (hw : grammar.toRules.WellFormed) (hid : id < (StateGraph.build grammar .lr1).size) :
    ∃ place, ∀ symbol action, Candidate grammar (.build grammar .lr1) id symbol action →
      ∃ action', Candidate grammar (.build grammar .lalr) place symbol action' ∧ action'.kind = action.kind := by
  have hf : Faithful grammar (.build grammar .lr1) := faithful_build hw .lr1
  have ho : Faithful grammar (.build grammar .lalr) := faithful_build hw .lalr
  have hs : SimulatesCanonical grammar (.build grammar .lr1) := simulates_finishedGraph hw Mode.noConfusion
  obtain ⟨place, hplace, hc⟩ := hf.exists_same_cores ho (hs.reached id hid)
  have hadmits : ∀ {item terminal}, Admits grammar (.build grammar .lr1) id item terminal →
      Admits grammar (.build grammar .lalr) place item terminal := by
    intro item terminal ha
    refine ⟨(ItemSet.hasItem_congr hc item).mpr ha.1, Or.inr ⟨Mode.noConfusion, ?_⟩⟩
    obtain ⟨word, hcores, hsees⟩ := hs.accounted id item terminal (ha.2.resolve_left fun h => Mode.noConfusion h.1).2
    exact ((simulates_finishedGraph hw Mode.noConfusion).sees_mergeCores hplace item terminal).mpr
      ⟨word, hcores.trans hc.symm, hsees⟩
  refine ⟨place, fun symbol action h => ?_⟩
  cases h with
  | accept hi hfinal hstart => exact ⟨_, .accept ((ItemSet.hasItem_congr hc _).mpr hi) hfinal hstart, rfl⟩
  | reduce ha hfinal hstart => exact ⟨_, .reduce (hadmits ha) hfinal hstart, rfl⟩
  | shift he hn =>
      obtain ⟨target, ht, -⟩ := hf.edge_agrees ho hc.symm he
      exact ⟨_, .shift ht hn, rfl⟩
  | goto he hn =>
      obtain ⟨target, ht, -⟩ := hf.edge_agrees ho hc.symm he
      exact ⟨_, .goto ht hn, rfl⟩

-- Merging all states of equal cores takes no conflict away.
theorem conflicts_lr1_eq_nil (hw : grammar.toRules.WellFormed) (hfinish : grammar.toRules.Avoids (· == .finish))
    (hc : (SyntaxTable.ofGrammar grammar .lalr).conflicts = []) :
    (SyntaxTable.ofGrammar grammar .lr1).conflicts = [] := by
  refine conflicts_build_eq_nil fun id symbol left right hl hr => ?_
  replace hl := mem_candidates.mp hl
  replace hr := mem_candidates.mp hr
  obtain ⟨place, hwider⟩ := exists_candidate_lalr hw (hl.lt_size (faithful_build hw .lr1))
  obtain ⟨left', hleft, hkind⟩ := hwider symbol left hl
  obtain ⟨right', hright, hkind'⟩ := hwider symbol right hr
  -- one cell has room for one of them only
  have hcell := action?_of_candidate hw (faithful_build hw .lalr) hfinish hc hleft
  rw [action?_of_candidate hw (faithful_build hw .lalr) hfinish hc hright, Option.some_inj] at hcell
  subst hcell
  exact between?_eq_none_congr hkind.symm hkind'.symm (@Conflict.between?_self grammar.toRules place symbol right')

end Conflicts

end IncrementalLR
