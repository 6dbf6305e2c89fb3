import IncrementalLR.Proofs.Parse.Completeness

namespace IncrementalLR

section

variable {slots : List Slot} {count : Nat}

-- There is no taking off more symbols than the slots spell.
theorem Piled.pop_eq_none {graph : StateGraph} {stack : List Slot} {sequence : List Nat}
    (hp : Piled graph stack sequence slots) (hlt : sequence.length < count) (taken : List Snapshot) :
    Slot.pop taken count slots = none := by
  obtain ⟨count, rfl⟩ := Nat.exists_eq_add_of_lt hlt
  clear hlt
  induction hp generalizing taken with
  | nil => rfl
  | @symbol sequence slots symbol target copy _ _ ih =>
      rw [List.length_append, List.length_singleton,
        show sequence.length + 1 + count + 1 = (sequence.length + count + 1) + 1 by omega, Slot.pop,
        Option.isSome_some, if_pos rfl]
      exact ih _
  | passed _ _ ih =>
      rw [Slot.pop, Option.isSome_none, if_neg Bool.false_ne_true]
      exact ih _

end

-- The action on a final item that admits the lookahead.
def finalAction (item : Item) : Action :=
  if item.production = startProduction then .accept else .reduce item.production

-- An item behind whose dot all can vanish.
structure Ends (grammar : Grammar) (graph : StateGraph) (state : Nat) (item : Item) (terminal : Nat) :
    Prop where
  admits : Admits grammar graph state item terminal
  vanishes : Vanishes grammar.toRules ((grammar.production item.production).right.drop item.dot)
  dot_le : item.dot ≤ (grammar.production item.production).right.length
  moved : 0 < item.dot
  finish : item.production = startProduction → terminal = finishId

namespace ConflictFree

variable {grammar : Grammar} {graph : StateGraph} {stack slots : List Slot} {item : Item}
  {sequence rest : List Nat} {leaf : Leaf} {terminal : Nat}

-- The symbols of a sequence that vanishes are reduced to on top of the stack.
theorem climbs_vanishes (hc : ConflictFree grammar graph) (hv : Vanishes grammar.toRules sequence)
    (hs : leaf.symbol = some terminal)
    (hi : (graph.state (Slot.top (slots ++ stack))).HasItem item)
    (hrest : (grammar.production item.production).right.drop item.dot = sequence ++ rest)
    (ha : Awaits grammar graph (Slot.top (slots ++ stack)) item rest terminal) :
    ∃ others, Piled graph (slots ++ stack) sequence others ∧
      Machine.Climbs (.build graph grammar) stack leaf slots (others ++ slots) := by
  induction hv generalizing slots item rest with
  | nil => exact ⟨[], .nil, .refl⟩
  | @cons production left sequence hleft hbelow hv ihbelow ih =>
      have hnext : item.next? grammar.toRules = some left := Item.next?_of_drop hrest
      have hbrings : item.Brings grammar.toRules ⟨production, 0⟩ := ⟨left, hnext, hleft, rfl⟩
      obtain ⟨target, he⟩ := hc.faithful.edge_exists _ item left hi hnext
      have hadvanced := Item.drop_advance hrest
      have hremaining : item.remaining grammar.toRules = sequence ++ rest := hadvanced
      have hawaits : Awaits grammar graph (Slot.top (slots ++ stack)) item (sequence ++ rest) terminal :=
        ha.imp hv.begins_append fun h => ⟨hv.append h.1, h.2⟩
      have hadmits := hc.deterministic.admits_brought hi hbrings (hremaining ▸ hawaits)
      have hright : (grammar.production production).right.drop 0 =
        (grammar.production production).right ++ [] := by simp
      obtain ⟨inner, hinner, hclimbs⟩ := @ihbelow slots ⟨production, 0⟩ []
        (hc.faithful.items_closed _ item _ hi hbrings) hright (Or.inr ⟨.nil, hadmits⟩)
      have hfinal := hc.deterministic.admits_piled hinner hright hadmits
      rw [Nat.zero_add] at hfinal
      have hclimb := hc.deterministic.climb_reduce hs hinner hfinal hleft he
      obtain ⟨others, ho, hrestclimbs⟩ := @ih (⟨target, some left, _⟩ :: slots) item.advance rest
        ((hc.faithful.edge_items _ left target he _).mpr (.given ⟨item, hi, hnext, rfl⟩)) hadvanced
        (ha.imp_right (And.imp_right fun ha => hc.deterministic.admits_advance ha he hnext))
      refine ⟨others ++ [_], (Piled.symbol .nil he).append ho, ?_⟩
      rw [List.append_assoc]
      exact hclimbs.trans (.head hclimb hrestclimbs)

-- The machine climbs to a shift of any terminal that an item may begin with.
theorem climbs_begins (hc : ConflictFree grammar graph) (hb : Begins grammar.toRules sequence terminal)
    (hs : leaf.symbol = some terminal)
    (hi : (graph.state (Slot.top (slots ++ stack))).HasItem item)
    (hrest : (grammar.production item.production).right.drop item.dot = sequence ++ rest) :
    ∃ after target, Machine.Climbs (.build graph grammar) stack leaf slots after ∧
      (terminal, target) ∈ graph.edgesFrom (Slot.top (after ++ stack)) := by
  induction hb generalizing slots item rest with
  | here _ =>
      obtain ⟨target, he⟩ := hc.faithful.edge_exists _ item _ hi (Item.next?_of_drop hrest)
      exact ⟨slots, target, .refl, he⟩
  | @inside production left terminal sequence hleft _ ih =>
      have hbrings : item.Brings grammar.toRules ⟨production, 0⟩ :=
        ⟨left, Item.next?_of_drop hrest, hleft, rfl⟩
      have hright : (grammar.production production).right.drop 0 =
        (grammar.production production).right ++ [] := by simp
      exact ih hs (hc.faithful.items_closed _ item _ hi hbrings) hright
  | @after symbol terminal sequence hv hb ih =>
      rw [← List.singleton_append, List.append_assoc] at hrest
      obtain ⟨others, hp, hclimbs⟩ := hc.climbs_vanishes hv hs hi hrest (Or.inl (hb.append rest))
      have hi' := hc.deterministic.hasItem_piled hp hrest hi
      rw [← List.append_assoc] at hi'
      have hrest' : (grammar.production item.production).right.drop (item.dot + [symbol].length) =
          sequence ++ rest := by
        rw [← List.drop_drop, hrest]
        rfl
      obtain ⟨after, target, hmore, he⟩ := ih hs hi' hrest'
      exact ⟨after, target, hclimbs.trans hmore, he⟩

theorem climb_eq_none_of_edge (hc : ConflictFree grammar graph) {target : Nat}
    (hs : leaf.symbol = some terminal) (ht : terminal ∈ grammar.terminals)
    (he : (terminal, target) ∈ graph.edgesFrom (Slot.top (slots ++ stack))) :
    Machine.climb (.build graph grammar) stack leaf slots = none := by
  rw [Machine.climb, Machine.action?, hs, Option.bind_some,
    hc.deterministic.shift he ht (Or.inl hc.finish)]

-- The machine climbs to the final item, and no further unless it takes off what
-- the item has moved over.
theorem climbs_ends (hc : ConflictFree grammar graph) (hs : leaf.symbol = some terminal)
    (he : Ends grammar graph (Slot.top stack) item terminal) :
    ∃ slots, Piled graph stack ((grammar.production item.production).right.drop item.dot) slots ∧
      Machine.Climbs (.build graph grammar) stack leaf [] slots ∧
      Machine.action? (.build graph grammar) (slots ++ stack) leaf = some (finalAction item) ∧
      Machine.climb (.build graph grammar) stack leaf slots = none := by
  have hright : (grammar.production item.production).right.drop item.dot =
      (grammar.production item.production).right.drop item.dot ++ [] := by simp
  obtain ⟨slots, hp, hclimbs⟩ := @climbs_vanishes grammar graph stack [] item _ [] leaf terminal hc
    he.vanishes hs he.admits.1 hright (Or.inr ⟨.nil, he.admits⟩)
  have hadmits := hc.deterministic.admits_piled hp hright he.admits
  rw [List.length_drop, Nat.add_sub_cancel' he.dot_le] at hadmits
  rw [List.append_nil] at hclimbs
  have haction : Machine.action? (.build graph grammar) (slots ++ stack) leaf =
      some (finalAction item) := by
    rw [Machine.action?, hs, Option.bind_some]
    refine hc.action? ?_
    unfold finalAction
    split
    · rename_i hstart
      rw [he.finish hstart]
      exact .accept hadmits.1 (by simp [Item.isFinal]) hstart
    · rename_i hstart
      exact @Candidate.reduce grammar graph _
        ⟨item.production, (grammar.production item.production).right.length⟩ terminal hadmits
        (by simp [Item.isFinal]) hstart
  refine ⟨slots, hp, hclimbs, haction, ?_⟩
  by_cases hproduction : item.production = startProduction
  · rw [Machine.climb, haction, finalAction, if_pos hproduction]
  · rw [finalAction, if_neg hproduction] at haction
    have hmoved := he.moved
    have hdot := he.dot_le
    have hpop : Slot.pop [] (grammar.production item.production).right.length slots = none :=
      hp.pop_eq_none (by rw [List.length_drop]; omega) []
    exact Machine.climb_of_pop_none haction hpop

-- No two items of a state have the machine do different things on a terminal.
theorem ends_unique (hc : ConflictFree grammar graph) (hs : leaf.symbol = some terminal)
    {state : Nat} {other : Item} (he : Ends grammar graph state item terminal)
    (ho : Ends grammar graph state other terminal) : item = other := by
  obtain ⟨slots, hp, hclimbs, haction, hnone⟩ :=
    @climbs_ends grammar graph [⟨state, none, default⟩] item leaf terminal hc hs he
  obtain ⟨others, hp', hclimbs', haction', hnone'⟩ :=
    @climbs_ends grammar graph [⟨state, none, default⟩] other leaf terminal hc hs ho
  obtain rfl := hclimbs.unique hclimbs' hnone hnone'
  rw [haction, Option.some_inj] at haction'
  have hproduction : item.production = other.production := by
    unfold finalAction at haction'
    split at haction'
    · split at haction'
      · simp_all
      · cases haction'
    · split at haction'
      · cases haction'
      · exact Action.reduce.inj haction'
  have hlength := hp.sequence_length.trans hp'.sequence_length.symm
  have hle := he.dot_le
  have hle' := ho.dot_le
  rw [List.length_drop, List.length_drop, ← hproduction] at hlength
  rw [← hproduction] at hle'
  cases item
  cases other
  simp only [Item.mk.injEq] at hproduction ⊢
  simp only at hlength hle hle'
  exact ⟨hproduction, by omega⟩

theorem not_ends_of_begins (hc : ConflictFree grammar graph) (hs : leaf.symbol = some terminal)
    {state : Nat} {other : Item} (he : Ends grammar graph state item terminal)
    (hi : (graph.state state).HasItem other)
    (hb : Begins grammar.toRules ((grammar.production other.production).right.drop other.dot) terminal) :
    False := by
  obtain ⟨slots, -, hclimbs, haction, hnone⟩ :=
    @climbs_ends grammar graph [⟨state, none, default⟩] item leaf terminal hc hs he
  obtain ⟨after, target, hclimbs', hedge⟩ :=
    @climbs_begins grammar graph [⟨state, none, default⟩] [] other _ [] leaf terminal hc hb hs hi
      (by simp)
  have hterminal := hb.mem_terminals
  obtain rfl := hclimbs.unique hclimbs' hnone (hc.climb_eq_none_of_edge hs hterminal hedge)
  rw [Machine.action?, hs, Option.bind_some, hc.deterministic.shift hedge hterminal (Or.inl hc.finish),
    Option.some_inj] at haction
  unfold finalAction at haction
  split at haction <;> cases haction

end ConflictFree

end IncrementalLR
