import IncrementalLR.Automaton.Cache
import IncrementalLR.Proofs.Automaton.CoreMerging

namespace IncrementalLR

theorem eraseDups_of_nodup {α : Type} [BEq α] [LawfulBEq α] {values : List α} (h : values.Nodup) :
    values.eraseDups = values := by
  induction values with
  | nil => rfl
  | cons first rest ih =>
      obtain ⟨hfirst, hrest⟩ := List.nodup_cons.mp h
      have hkept : (rest.filter fun other => !other == first) = rest := by
        refine List.filter_eq_self.mpr fun other ho => ?_
        rw [Bool.not_eq_true', beq_eq_false_iff_ne]
        rintro rfl
        exact hfirst ho
      rw [List.eraseDups_cons, hkept, ih hrest]

namespace StateGraph

variable {grammar : Grammar} {graph other : StateGraph} {id : Nat}

theorem getElem_states (h : id < graph.states.size) : graph.states[id] = graph.state id := by simp [state, h]

theorem getElem_edges (h : id < graph.edges.size) : graph.edges[id] = graph.edgesFrom id := by simp [edgesFrom, h]

theorem ext_states (hmode : graph.mode = other.mode) (hfingerprint : graph.fingerprint = other.fingerprint)
    (hstats : graph.stats = other.stats) (hsize : graph.size = other.size)
    (hedges : graph.edges.size = other.edges.size) (hstate : ∀ id, id < graph.size → graph.state id = other.state id)
    (hfrom : ∀ id, id < graph.edges.size → graph.edgesFrom id = other.edgesFrom id) : graph = other := by
  have hstates : graph.states = other.states := Array.ext hsize fun id hl hr => by
    rw [getElem_states hl, getElem_states hr, hstate id hl]
  have hlists : graph.edges = other.edges := Array.ext hedges fun id hl hr => by
    rw [getElem_edges hl, getElem_edges hr, hfrom id hl]
  cases graph
  cases other
  cases hmode
  cases hfingerprint
  cases hstats
  cases hstates
  cases hlists
  rfl

theorem Apart.coreSets_eq (ha : graph.Apart) : graph.coreSets = graph.states.toList.map ItemSet.cores := by
  refine eraseDups_of_nodup ?_
  rw [List.Nodup, List.pairwise_map, List.pairwise_iff_getElem]
  intro left right hl hr hlt hc
  rw [Array.getElem_toList, Array.getElem_toList, getElem_states, getElem_states] at hc
  exact Nat.ne_of_lt hlt (ha left right hl hr hc)

theorem Apart.classOf_eq (ha : graph.Apart) (hid : id < graph.size) : graph.classOf id = id := by
  have hlt : graph.classOf id < graph.size := by
    have hlt := List.idxOf_lt_length_of_mem (mem_coreSets.mpr ⟨id, hid, rfl⟩)
    rw [ha.coreSets_eq, List.length_map, Array.length_toList] at hlt
    rwa [classOf, ha.coreSets_eq]
  have hget := coreSets_classOf hid
  rw [ha.coreSets_eq, List.getElem?_map, Array.getElem?_toList, Array.getElem?_eq_getElem hlt, getElem_states hlt,
    Option.map_some, Option.some_inj] at hget
  exact ha _ _ hlt hid hget

-- Where no two states have the same cores there is nothing to merge.
theorem Apart.mergeCores_eq (ha : graph.Apart) (hf : Faithful grammar graph) (hmode : graph.mode ≠ .lr1)
    (hedges : graph.edges.size = graph.size) : graph.mergeCores = graph := by
  have hlength : graph.coreSets.length = graph.size := by
    rw [ha.coreSets_eq, List.length_map, Array.length_toList, size]
  have hmerged : ∀ {id}, id < graph.size → Merged graph id (graph.state id).cores := by
    intro id hid
    have hget := coreSets_classOf hid
    rw [ha.classOf_eq hid] at hget
    exact Merged.of_getElem? hget
  have hmember : ∀ {id}, id < graph.size → ∀ other, other ∈ graph.members (graph.state id).cores ↔ other = id := by
    intro id hid other
    rw [mem_members]
    refine ⟨fun h => ha other id h.1 hid h.2, ?_⟩
    rintro rfl
    exact ⟨hid, rfl⟩
  refine ext_states (if_neg hmode) rfl ?_ (size_mergeCores.trans hlength) ?_ (fun id hid => ?_) fun id hid => ?_
  · simp [mergeCores, hlength]
  · simp [mergeCores, hlength, hedges]
  · rw [size_mergeCores, hlength] at hid
    refine ItemSet.ext ((hmerged hid).hasItem ((hmember hid id).mpr rfl)) fun item symbol => ?_
    rw [(hmerged hid).sees]
    simp only [hmember hid, exists_eq_left]
  · have hid : id < graph.size := by simpa [mergeCores, hlength] using hid
    refine edges_ext ?_ (hf.edges_sorted id) ?_
    · rw [(hmerged hid).edges]
      exact pairwise_foldl_setEdge .nil
    · rintro ⟨symbol, target⟩
      have he : (symbol, target) ∈ graph.mergeCores.edgesFrom id ↔ _ := ha.classOf_eq hid ▸ edge_mergeCores_iff hf hid
      rw [he]
      constructor
      · rintro ⟨old, hold, rfl⟩
        rwa [ha.classOf_eq (hf.edge_target id symbol old hold).2]
      · exact fun h => ⟨target, h, (ha.classOf_eq (hf.edge_target id symbol target h).2).symm⟩

theorem run_lalr (grammar : Grammar) (fuel : Nat) (building : Construction) :
    Construction.run grammar .lalr fuel building = Construction.run grammar .lr1 fuel building := by
  induction fuel generalizing building with
  | zero => rfl
  | succ fuel ih =>
      unfold Construction.run
      cases building.pending with
      | nil => rfl
      | cons id rest => exact ih _

-- One graph serves both modes, and merging what is merged changes nothing.
theorem mergeCores_build_lr1 (grammar : Grammar) :
    (StateGraph.build grammar .lr1).mergeCores = .build grammar .lalr := by
  unfold StateGraph.build
  simp only [run_lalr]
  rfl

theorem mergeCores_build_lalr (hb : grammar.Built) :
    (StateGraph.build grammar .lalr).mergeCores = .build grammar .lalr := by
  refine Apart.mergeCores_eq ?_ (faithful_build hb.wellFormed .lalr) Mode.noConfusion ?_
  · exact mergeCores_build_lr1 grammar ▸ apart_mergeCores _
  · rw [← mergeCores_build_lr1, size_mergeCores, mergeCores, List.size_toArray, List.length_map]

theorem fingerprint_build (grammar : Grammar) (mode : Mode) :
    (StateGraph.build grammar mode).fingerprint = grammar.fingerprint := by
  cases mode <;> rfl

end StateGraph

theorem GrammarSource.built_of_parse {text : String} {whitespace : Bool} {source : GrammarSource}
    (h : GrammarSource.parse text whitespace = .ok source) : source.grammar.Built := by
  simp only [GrammarSource.parse, bind, Except.bind, pure, Except.pure] at h
  repeat' split at h
  all_goals cases h
  exact .declared ‹_›

-- What others may leave in the slot of a text: a graph of another grammar at best.
def CacheEntry.Useless (key : CacheKey) (entry : CacheEntry) : Prop :=
  ∀ source graph, GrammarSource.parse key.text key.whitespace = .ok source → entry = .graph graph →
    graph.fingerprint ≠ source.grammar.fingerprint

namespace Cache

-- What happens to a cache. Whatever is damaged may have been empty before.
inductive Call where
  | store (key : CacheKey) (mode : Mode)
  | load (key : CacheKey) (mode : Mode)
  | loadOrBuild (key : CacheKey) (mode : Mode)
  | damage (key : CacheKey) (mode : Mode) (entry : CacheEntry)

def after (cache : Cache) : Call → Cache
  | .store key mode =>
      match GrammarSource.parse key.text key.whitespace with
      | .ok source => cache.store key (.build source.grammar mode)
      | .error _ => cache
  | .load _ _ => cache
  | .loadOrBuild key mode =>
      match cache.loadOrBuild key mode with
      | .ok (cache, _) => cache
      | .error _ => cache
  | .damage key mode entry => cache.overwrite key mode entry

-- Calls that store graphs of some modes only, which may differ from text to text, and
-- damage that shows.
def Call.Within (admitted : CacheKey → Mode → Prop) : Call → Prop
  | store key mode => admitted key mode
  | load _ _ => True
  | loadOrBuild _ _ => True
  | damage key _ entry => entry.Useless key

-- All graphs that a load accepts were built for the grammar, in an admitted mode.
def Valid (admitted : CacheKey → Mode → Prop) (cache : Cache) : Prop :=
  ∀ key slot graph source, ((key, slot), .graph graph) ∈ cache.slots →
    GrammarSource.parse key.text key.whitespace = .ok source →
    graph.fingerprint = source.grammar.fingerprint →
    ∃ mode, admitted key mode ∧ mode.base = slot ∧ graph = .build source.grammar mode

variable {admitted : CacheKey → Mode → Prop} {cache : Cache} {key : CacheKey} {mode : Mode} {source : GrammarSource}

theorem valid_empty : Valid admitted empty := fun _ _ _ _ h => nomatch h

section Parsed

variable (hp : GrammarSource.parse key.text key.whitespace = .ok source)

include hp

theorem after_store : cache.after (.store key mode) = cache.store key (.build source.grammar mode) := by
  simp only [Cache.after, hp]

theorem loadOrBuild_eq : cache.loadOrBuild key mode =
    .ok ((cache.baseGraph key source.grammar mode).1, source, .build (if mode = .lalr then
      (cache.baseGraph key source.grammar mode).2.mergeCores else (cache.baseGraph key source.grammar mode).2)
        source.grammar) := by
  rw [Cache.loadOrBuild, hp]
  rfl

theorem after_loadOrBuild : cache.after (.loadOrBuild key mode) = (cache.baseGraph key source.grammar mode).1 := by
  simp only [Cache.after, loadOrBuild_eq hp]

end Parsed

-- A text that cannot be read leaves the cache as it is.
theorem after_of_error {error : GrammarError} (hp : GrammarSource.parse key.text key.whitespace = .error error) :
    cache.after (.store key mode) = cache ∧ cache.after (.loadOrBuild key mode) = cache := by
  have he : cache.loadOrBuild key mode = .error error := by
    rw [Cache.loadOrBuild, hp]
    rfl
  exact ⟨by simp only [Cache.after, hp], by simp only [Cache.after, he]⟩

theorem Valid.overwrite (hv : cache.Valid admitted) {entry : CacheEntry}
    (he : ∀ source graph, GrammarSource.parse key.text key.whitespace = .ok source → entry = .graph graph →
      graph.fingerprint = source.grammar.fingerprint →
      ∃ stored, admitted key stored ∧ stored.base = mode.base ∧ graph = .build source.grammar stored) :
    (cache.overwrite key mode entry).Valid admitted := by
  intro other slot graph source hmem hp hsame
  rcases List.mem_cons.mp hmem with hnew | hold
  · obtain ⟨hslot, hentry⟩ := Prod.mk.inj hnew
    obtain ⟨rfl, rfl⟩ := Prod.mk.inj hslot
    exact he source graph hp hentry.symm hsame
  · exact hv other slot graph source (List.mem_filter.mp hold).1 hp hsame

theorem Valid.store (hv : cache.Valid admitted) (hm : admitted key mode)
    (hp : GrammarSource.parse key.text key.whitespace = .ok source) :
    (cache.store key (.build source.grammar mode)).Valid admitted := by
  unfold Cache.store
  split
  · exact hv
  · refine hv.overwrite fun other graph ho he _ => ?_
    obtain rfl : source = other := Except.ok.inj (hp.symm.trans ho)
    cases he
    exact ⟨mode, hm, by rw [mode_build], rfl⟩

-- What is loaded was built in an admitted mode that shares the slot.
theorem Valid.load (hv : cache.Valid admitted) (hp : GrammarSource.parse key.text key.whitespace = .ok source)
    {graph : StateGraph} (h : cache.load key source.grammar mode = .ok (some graph)) :
    ∃ stored, admitted key stored ∧ stored.base = mode.base ∧ graph = .build source.grammar stored := by
  unfold Cache.load at h
  split at h
  · cases h
  · cases h
  · cases h
  · rename_i found hfound
    split at h
    · rename_i hsame
      cases h
      obtain ⟨first, last, hslots, -⟩ := List.lookup_eq_some_iff.mp hfound
      exact hv key mode.base graph source (by simp [hslots]) hp hsame
    · cases h

theorem base_base (mode : Mode) : mode.base.base = mode.base := by cases mode <;> rfl

theorem Valid.baseGraph (hv : cache.Valid admitted) (hm : admitted key mode.base)
    (hp : GrammarSource.parse key.text key.whitespace = .ok source) :
    (cache.baseGraph key source.grammar mode).1.Valid admitted ∧
      ∃ stored, admitted key stored ∧ stored.base = mode.base ∧
        (cache.baseGraph key source.grammar mode).2 = .build source.grammar stored := by
  unfold Cache.baseGraph
  split
  · rename_i graph hload
    obtain ⟨stored, hs, hbase, hgraph⟩ := hv.load hp hload
    exact ⟨hv, stored, hs, hbase.trans (base_base mode), hgraph⟩
  · exact ⟨hv.store hm hp, mode.base, hm, base_base mode, rfl⟩

-- The table comes from a graph of an admitted mode, merged if that is asked for.
theorem Valid.loadOrBuild (hv : cache.Valid admitted) (hm : admitted key mode.base)
    (hp : GrammarSource.parse key.text key.whitespace = .ok source) :
    ∃ next stored, admitted key stored ∧ stored.base = mode.base ∧
      cache.loadOrBuild key mode = .ok (next, source, .build (if mode = .lalr then
        (StateGraph.build source.grammar stored).mergeCores else .build source.grammar stored) source.grammar) := by
  obtain ⟨-, stored, hs, hbase, hgraph⟩ := hv.baseGraph hm hp
  exact ⟨_, stored, hs, hbase, hgraph ▸ loadOrBuild_eq hp⟩

theorem Valid.after (hv : cache.Valid admitted) (hm : ∀ key mode, admitted key (Mode.base mode)) {call : Call}
    (hc : call.Within admitted) : (cache.after call).Valid admitted := by
  cases call with
  | store key mode =>
      cases hp : GrammarSource.parse key.text key.whitespace with
      | error => exact (after_of_error hp).1 ▸ hv
      | ok source => exact after_store hp ▸ hv.store hc hp
  | load => exact hv
  | loadOrBuild key mode =>
      cases hp : GrammarSource.parse key.text key.whitespace with
      | error => exact (after_of_error hp).2 ▸ hv
      | ok source => exact after_loadOrBuild hp ▸ (hv.baseGraph (hm key mode) hp).1
  | damage key mode entry =>
      exact hv.overwrite fun source graph hp he hsame => absurd hsame (hc source graph hp he)

theorem Valid.foldl (hv : cache.Valid admitted) (hm : ∀ key mode, admitted key (Mode.base mode)) {calls : List Call}
    (hc : ∀ call ∈ calls, call.Within admitted) : (calls.foldl Cache.after cache).Valid admitted := by
  induction calls generalizing cache with
  | nil => exact hv
  | cons call rest ih =>
      exact ih (hv.after hm (hc call (List.mem_cons_self ..))) fun other ho => hc other (List.mem_cons_of_mem _ ho)

-- A graph with merged cores takes the place of the one that it would be derived from,
-- so that the table of the LR(1) mode is from then on that of the LALR mode.
theorem loadOrBuild_lr1_of_store_lalr (hp : GrammarSource.parse key.text key.whitespace = .ok source) :
    (∃ next, (empty.after (.store key .lalr)).loadOrBuild key .lr1 =
      .ok (next, source, .ofGrammar source.grammar .lalr)) ∧
      SyntaxTable.ofGrammar source.grammar .lalr ≠ .ofGrammar source.grammar .lr1 := by
  constructor
  · have hslot : (empty.after (.store key .lalr)).load key source.grammar .lr1 =
        .ok (some (.build source.grammar .lalr)) := by
      simp only [after_store hp, Cache.store, Cache.load, Cache.slot?, Cache.overwrite, empty, mode_build,
        List.lookup_nil, List.lookup_cons_self, StateGraph.fingerprint_build, Mode.base, if_pos]
    have hbase : (empty.after (.store key .lalr)).baseGraph key source.grammar .lr1 =
        (empty.after (.store key .lalr), .build source.grammar .lalr) := by
      unfold Cache.baseGraph
      rw [show Mode.lr1.base = .lr1 from rfl, hslot]
    refine ⟨empty.after (.store key .lalr), ?_⟩
    rw [loadOrBuild_eq hp, hbase]
    rfl
  · intro he
    have hmode := congrArg (fun table => table.graph.mode) he
    simp only [SyntaxTable.ofGrammar, SyntaxTable.build, mode_build] at hmode
    cases hmode

section Slots

variable {slots : List ((CacheKey × Mode) × CacheEntry)} {slot other : CacheKey × Mode} {entry : CacheEntry}

theorem lookup_filter_ne (hne : slot ≠ other) :
    (slots.filter (·.1 != other)).lookup slot = slots.lookup slot := by
  induction slots with
  | nil => rfl
  | cons first rest ih =>
      rw [List.filter_cons]
      split
      · rw [List.lookup_cons, List.lookup_cons, ih]
      · rename_i hfirst
        have hfirst : first.1 = other := by simpa using hfirst
        rw [ih, List.lookup_cons, beq_eq_false_iff_ne.mpr (hfirst ▸ hne)]

theorem slot?_overwrite_of_ne {key' : CacheKey} {mode' : Mode} (hne : (key, mode.base) ≠ (key', mode'.base)) :
    (cache.overwrite key' mode' entry).slot? key mode = cache.slot? key mode := by
  rw [slot?, overwrite, List.lookup_cons, beq_eq_false_iff_ne.mpr hne]
  exact lookup_filter_ne hne

theorem slot?_store {key' : CacheKey} {graph : StateGraph} (h : cache.slot? key mode = some entry) :
    (cache.store key' graph).slot? key mode = some entry := by
  unfold Cache.store
  split
  · exact h
  · rename_i hnone
    rw [slot?_overwrite_of_ne, h]
    intro he
    rw [slot?, ← he] at hnone
    exact Option.some_ne_none _ (h.symm.trans hnone)

-- A slot that is taken keeps what it holds, whether or not it is of any use.
theorem slot?_after {call : Call} (hc : ∀ key mode entry, call ≠ .damage key mode entry)
    (h : cache.slot? key mode = some entry) : (cache.after call).slot? key mode = some entry := by
  cases call with
  | store key' mode' =>
      cases hp : GrammarSource.parse key'.text key'.whitespace with
      | error => exact (after_of_error hp).1 ▸ h
      | ok source => exact after_store hp ▸ slot?_store h
  | load => exact h
  | loadOrBuild key' mode' =>
      cases hp : GrammarSource.parse key'.text key'.whitespace with
      | error => exact (after_of_error hp).2 ▸ h
      | ok source =>
          rw [after_loadOrBuild hp]
          unfold Cache.baseGraph
          split
          · exact h
          · exact slot?_store h
  | damage key' mode' entry' => exact absurd rfl (hc key' mode' entry')

end Slots

-- The table is the one that is built afresh, whatever happened to the cache, unless the
-- mode is LR(1) and a graph with merged cores was stored for the same text.
theorem loadOrBuild_after_calls {calls : List Call}
    (hdamage : ∀ key mode entry, .damage key mode entry ∈ calls → entry.Useless key)
    (hlalr : mode = .lr1 → .store key .lalr ∉ calls)
    (hp : GrammarSource.parse key.text key.whitespace = .ok source) :
    (∃ next, (calls.foldl Cache.after empty).loadOrBuild key mode =
      .ok (next, source, .ofGrammar source.grammar mode)) ∧
    ∀ call, (∀ key mode entry, call ≠ .damage key mode entry) → ∀ key mode entry,
      (calls.foldl Cache.after empty).slot? key mode = some entry →
        ((calls.foldl Cache.after empty).after call).slot? key mode = some entry := by
  refine ⟨?_, fun call hcall key mode entry => slot?_after hcall⟩
  have hbases : ∀ other stored, mode = .lr1 → other = key → Mode.base stored ≠ .lalr := fun _ stored _ _ => by
    cases stored <;> exact Mode.noConfusion
  have hwithin : ∀ call ∈ calls, call.Within fun other stored => mode = .lr1 → other = key → stored ≠ .lalr := by
    intro call hcall
    cases call with
    | store other stored =>
        rintro hmode rfl rfl
        exact hlalr hmode hcall
    | load => trivial
    | loadOrBuild => trivial
    | damage other slot entry => exact hdamage other slot entry hcall
  obtain ⟨next, stored, hstored, hbase, he⟩ := (valid_empty.foldl hbases hwithin).loadOrBuild (hbases key mode) hp
  refine ⟨next, ?_⟩
  rw [he, SyntaxTable.ofGrammar]
  -- The base of the mode tells which graph is in the slot, up to the merging of its cores.
  cases mode with
  | lr0 => cases stored with
    | lr0 => rfl
    | lr1 => cases hbase
    | lalr => cases hbase
  | lr1 => cases stored with
    | lr0 => cases hbase
    | lr1 => rfl
    | lalr => exact absurd rfl (hstored rfl rfl)
  | lalr => cases stored with
    | lr0 => cases hbase
    | lr1 => rw [if_pos rfl, StateGraph.mergeCores_build_lr1]
    | lalr => rw [if_pos rfl, StateGraph.mergeCores_build_lalr (GrammarSource.built_of_parse hp)]

-- The graph of another text is stored with merged cores, a slot is damaged, and the slot
-- of the LR(1) graph is filled by a call that asks for merged cores.
theorem loadOrBuild_after_calls_shared :
    let key : CacheKey := ⟨"S ::= \"a\"", false⟩
    let calls := [.store ⟨"S ::= \"b\"", false⟩ .lalr, .damage key .lr0 .garbage, .loadOrBuild key .lalr]
    ∃ source, GrammarSource.parse key.text key.whitespace = .ok source ∧
      (∃ next, (calls.foldl Cache.after empty).loadOrBuild key .lr1 =
        .ok (next, source, .ofGrammar source.grammar .lr1)) ∧
      ∀ call, (∀ key mode entry, call ≠ .damage key mode entry) → ∀ key mode entry,
        (calls.foldl Cache.after empty).slot? key mode = some entry →
          ((calls.foldl Cache.after empty).after call).slot? key mode = some entry := by
  intro key calls
  have hparse : (GrammarSource.parse key.text key.whitespace).toOption.isSome = true := by decide +kernel
  obtain ⟨source, hp⟩ : ∃ source, GrammarSource.parse key.text key.whitespace = .ok source := by
    cases hresult : GrammarSource.parse key.text key.whitespace with
    | error => rw [hresult] at hparse; cases hparse
    | ok source => exact ⟨source, rfl⟩
  have hdamage : ∀ key mode entry, Call.damage key mode entry ∈ calls → entry.Useless key := by
    intro other mode entry hcall source graph _ he
    simp only [calls, List.mem_cons, reduceCtorEq, Call.damage.injEq, List.not_mem_nil, or_false, false_or] at hcall
    obtain ⟨-, -, rfl⟩ := hcall
    cases he
  exact ⟨source, hp, loadOrBuild_after_calls hdamage (fun _ => by simp [calls, key]) hp⟩

end Cache

end IncrementalLR
