import IncrementalLR.Proofs.Parse.Machine

namespace IncrementalLR

-- Grammars without wildcards, with an automaton of theirs whose table has no
-- conflicts.
structure ConflictFree (grammar : Grammar) (graph : StateGraph) : Prop where
  wellFormed : grammar.toRules.WellFormed
  faithful : Faithful grammar graph
  finish : grammar.toRules.Avoids (· == .finish)
  wildcards : grammar.toRules.Avoids Symbol.isWildcard
  conflicts : (SyntaxTable.build graph grammar).conflicts = []

-- The same, whether or not the end of input stands in a right side.
structure Deterministic (grammar : Grammar) (graph : StateGraph) : Prop where
  wellFormed : grammar.toRules.WellFormed
  faithful : Faithful grammar graph
  wildcards : grammar.toRules.Avoids Symbol.isWildcard
  conflicts : (SyntaxTable.build graph grammar).conflicts = []

-- Whether a terminal may come behind an item once a sequence has been derived.
def Awaits (grammar : Grammar) (graph : StateGraph) (state : Nat) (item : Item)
    (sequence : List Nat) (terminal : Nat) : Prop :=
  Begins grammar.toRules sequence terminal ∨
    Vanishes grammar.toRules sequence ∧ Admits grammar graph state item terminal

namespace ConflictFree

variable {grammar : Grammar} {graph : StateGraph} {state target symbol terminal : Nat}
  {item other : Item}

theorem deterministic (hc : ConflictFree grammar graph) : Deterministic grammar graph :=
  ⟨hc.wellFormed, hc.faithful, hc.wildcards, hc.conflicts⟩

theorem action? (hc : ConflictFree grammar graph) {action : Action}
    (h : Candidate grammar graph state symbol action) :
    (SyntaxTable.build graph grammar).action? state symbol = some action :=
  action?_of_candidate hc.wellFormed hc.faithful hc.finish hc.conflicts h

end ConflictFree

namespace Deterministic

variable {grammar : Grammar} {graph : StateGraph} {state target symbol terminal : Nat}
  {item other : Item}

theorem action? (hc : Deterministic grammar graph) {action : Action}
    (h : Candidate grammar graph state symbol action) (hshift : ∀ target, action = .shift target → symbol ≠ finishId) :
    (SyntaxTable.build graph grammar).action? state symbol = some action :=
  action?_of_unfinished hc.wellFormed hc.faithful hc.conflicts h hshift

theorem goto? (hc : Deterministic grammar graph) (he : (symbol, target) ∈ graph.edgesFrom state)
    (hn : (grammar.symbol symbol).isNonterminal = true) :
    (SyntaxTable.build graph grammar).goto? state symbol = some target := by
  rw [SyntaxTable.goto?, hc.action? (.goto he hn) fun _ h => by cases h]

-- A terminal is shifted along its edge, unless that is the end of input.
theorem shift (hc : Deterministic grammar graph) (he : (symbol, target) ∈ graph.edgesFrom state)
    (ht : symbol ∈ grammar.terminals) (hne : grammar.toRules.Avoids (· == .finish) ∨ symbol ≠ finishId) :
    (SyntaxTable.build graph grammar).action? state symbol = some (.shift target) := by
  refine hc.action? (.shift he ?_) fun _ _ => ?_
  · simpa [Symbol.isTerminal] using (Rules.mem_terminals.mp ht).2.1
  · rcases hne with hfinish | hne
    · rintro rfl
      exact no_edge_finish hc.wellFormed hc.faithful hfinish he
    · exact hne

theorem admits_start (hc : Deterministic grammar graph) : Admits grammar graph 0 .start finishId := by
  refine ⟨(hc.faithful.start_items .start).mpr (.given rfl), ?_⟩
  by_cases hm : graph.mode = .lr0
  · refine Or.inl ⟨hm, Valid.start.terminal hc.wellFormed, ?_⟩
    rw [hc.wellFormed.symbol_finish]
    rfl
  · exact Or.inr ⟨hm, hc.faithful.start_sees hm⟩

theorem admits_advance (hc : Deterministic grammar graph) (ha : Admits grammar graph state item terminal)
    (he : (symbol, target) ∈ graph.edgesFrom state) (hn : item.next? grammar.toRules = some symbol) :
    Admits grammar graph target item.advance terminal := by
  have hi : (graph.state target).HasItem item.advance :=
    (hc.faithful.edge_items state symbol target he _).mpr (.given ⟨item, ha.1, hn, rfl⟩)
  refine ⟨hi, ha.2.imp_right fun h => ⟨h.1, ?_⟩⟩
  exact hc.faithful.edge_sees state symbol target item terminal he h.2 hn

theorem admits_brought (hc : Deterministic grammar graph) (hi : (graph.state state).HasItem item)
    (hb : item.Brings grammar.toRules other)
    (ha : Awaits grammar graph state item (item.remaining grammar.toRules) terminal) :
    Admits grammar graph state other terminal := by
  refine ⟨hc.faithful.items_closed state item other hi hb, ?_⟩
  by_cases hm : graph.mode = .lr0
  · refine Or.inl ⟨hm, ?_⟩
    rcases ha with hbegins | ⟨-, ha⟩
    · refine ⟨hbegins.mem_terminals, hbegins.avoids hc.wildcards fun symbol hs => ?_⟩
      exact hc.wildcards item.production symbol (List.mem_of_mem_drop hs)
    · rcases ha.2 with ⟨-, h⟩ | ⟨h, -⟩
      · exact h
      · exact absurd hm h
  · refine Or.inr ⟨hm, ?_⟩
    rcases ha with hbegins | ⟨hv, ha⟩
    · exact hc.faithful.begun_sees hm state item other terminal hi hb hbegins
    · rcases ha.2 with ⟨h, -⟩ | ⟨-, h⟩
      · exact absurd h hm
      · exact hc.faithful.passed_sees hm state item other terminal h hb hv

end Deterministic

-- Slots that spell a sequence of symbols on top of a stack, along the edges of
-- the graph. What is passed through lies above the first of the symbols.
inductive Piled (graph : StateGraph) (stack : List Slot) : List Nat → List Slot → Prop where
  | nil : Piled graph stack [] []
  | symbol {sequence : List Nat} {slots : List Slot} {symbol target : Nat} {copy : Snapshot} :
      Piled graph stack sequence slots →
      (symbol, target) ∈ graph.edgesFrom (Slot.top (slots ++ stack)) →
      Piled graph stack (sequence ++ [symbol]) (⟨target, some symbol, copy⟩ :: slots)
  | passed {sequence : List Nat} {slots : List Slot} {copy : Snapshot} :
      Piled graph stack sequence slots → slots ≠ [] →
      Piled graph stack sequence (⟨Slot.top (slots ++ stack), none, copy⟩ :: slots)

namespace Piled

variable {grammar : Grammar} {graph : StateGraph} {stack slots : List Slot} {sequence : List Nat}

theorem append {others : List Slot} {second : List Nat} (hp : Piled graph stack sequence slots)
    (ho : Piled graph (slots ++ stack) second others) :
    Piled graph stack (sequence ++ second) (others ++ slots) := by
  induction ho with
  | nil => simpa using hp
  | symbol _ he ih =>
      rw [← List.append_assoc] at he ⊢
      exact .symbol ih he
  | passed _ hne ih =>
      rw [List.cons_append, ← List.append_assoc]
      exact .passed ih (by simp [hne])

theorem sequence_ne_nil (hp : Piled graph stack sequence slots) (hne : slots ≠ []) :
    sequence ≠ [] := by
  induction hp with
  | nil => exact absurd rfl hne
  | symbol _ _ _ => simp
  | passed _ hslots ih => exact ih hslots

theorem sequence_length (hp : Piled graph stack sequence slots) :
    sequence.length = (slots.filter (·.symbol.isSome)).length := by
  induction hp with
  | nil => rfl
  | symbol _ _ ih => simp [ih]
  | passed _ _ ih => simp [ih]

-- All of the slots are taken off again before any below them.
theorem pop_add (hp : Piled graph stack sequence slots) (taken : List Snapshot) (count : Nat)
    (below : List Slot) :
    Slot.pop taken (sequence.length + count) (slots ++ below) =
      Slot.pop ((slots.map Slot.copy).reverse ++ taken) count below := by
  induction hp generalizing taken with
  | nil => simp
  | symbol _ _ ih =>
      rw [List.length_append, List.length_singleton, Nat.add_right_comm, List.cons_append, Slot.pop,
        Option.isSome_some, if_pos rfl, ih]
      simp
  | passed hp hne ih =>
      obtain ⟨length, hlength⟩ := Nat.exists_eq_succ_of_ne_zero
        (mt List.length_eq_zero_iff.mp (hp.sequence_ne_nil hne))
      rw [hlength, Nat.succ_add] at ih ⊢
      rw [List.cons_append, Slot.pop, Option.isSome_none, if_neg Bool.false_ne_true, ih]
      simp

theorem pop (hp : Piled graph stack sequence slots) (taken : List Snapshot) (below : List Slot) :
    Slot.pop taken sequence.length (slots ++ below) =
      some ((slots.map Slot.copy).reverse ++ taken, below) := by
  rw [← Nat.add_zero sequence.length, hp.pop_add, Slot.pop]

-- What holds of an item before a sequence is spelled holds of it afterwards.
theorem item_induction {motive : Nat → Item → Prop}
    (hstep : ∀ state symbol target item, (symbol, target) ∈ graph.edgesFrom state →
      item.next? grammar.toRules = some symbol → motive state item → motive target item.advance)
    {item : Item} {rest : List Nat}
    (hrest : (grammar.production item.production).right.drop item.dot = sequence ++ rest)
    (hp : Piled graph stack sequence slots) (hm : motive (Slot.top stack) item) :
    motive (Slot.top (slots ++ stack)) ⟨item.production, item.dot + sequence.length⟩ := by
  induction hp generalizing rest with
  | nil => exact hm
  | @symbol sequence slots symbol target copy hp he ih =>
      rw [List.append_assoc, List.singleton_append] at hrest
      have hnext : (⟨item.production, item.dot + sequence.length⟩ : Item).next? grammar.toRules =
          some symbol := by
        have h := congrArg (fun right => right[sequence.length]?) hrest
        simpa [Item.next?] using h
      have h := hstep _ symbol target _ he hnext (ih hrest)
      rw [List.length_append, List.length_singleton, ← Nat.add_assoc]
      exact h
  | passed _ _ ih => exact ih hrest

end Piled

namespace Deterministic

variable {grammar : Grammar} {graph : StateGraph}

theorem hasItem_piled (hc : Deterministic grammar graph) {stack slots : List Slot}
    {sequence rest : List Nat} {item : Item} (hp : Piled graph stack sequence slots)
    (hrest : (grammar.production item.production).right.drop item.dot = sequence ++ rest)
    (hi : (graph.state (Slot.top stack)).HasItem item) :
    (graph.state (Slot.top (slots ++ stack))).HasItem
      ⟨item.production, item.dot + sequence.length⟩ :=
  hp.item_induction (motive := fun state item => (graph.state state).HasItem item)
    (fun state symbol target item he hn hi =>
      (hc.faithful.edge_items state symbol target he _).mpr (.given ⟨item, hi, hn, rfl⟩)) hrest hi

theorem admits_piled (hc : Deterministic grammar graph) {stack slots : List Slot}
    {sequence rest : List Nat} {item : Item} {terminal : Nat} (hp : Piled graph stack sequence slots)
    (hrest : (grammar.production item.production).right.drop item.dot = sequence ++ rest)
    (ha : Admits grammar graph (Slot.top stack) item terminal) :
    Admits grammar graph (Slot.top (slots ++ stack))
      ⟨item.production, item.dot + sequence.length⟩ terminal :=
  hp.item_induction (motive := fun state item => Admits grammar graph state item terminal)
    (fun _ _ _ _ he hn ha => hc.admits_advance ha he hn) hrest ha

theorem steps_shift (hc : Deterministic grammar graph) {slots : List Slot} {leaf : Leaf}
    (rest : List Leaf) {terminal target : Nat} (hs : leaf.symbol = some terminal)
    (ht : terminal ∈ grammar.terminals) (he : (terminal, target) ∈ graph.edgesFrom (Slot.top slots))
    (hne : grammar.toRules.Avoids (· == .finish) ∨ terminal ≠ finishId) :
    Machine.Steps (.build graph grammar) ⟨slots, leaf :: rest⟩
      ⟨⟨target, some terminal, leaf.copy⟩ :: slots, rest⟩ := by
  refine .single ?_
  simp [Machine.next, Machine.action?, hs, hc.shift he ht hne]

-- A final item is reduced where it admits the lookahead.
theorem climb_reduce (hc : Deterministic grammar graph) {stack slots inner : List Slot} {leaf : Leaf}
    {production left target terminal : Nat} (hs : leaf.symbol = some terminal)
    (hp : Piled graph (slots ++ stack) (grammar.production production).right inner)
    (ha : Admits grammar graph (Slot.top (inner ++ (slots ++ stack)))
      ⟨production, (grammar.production production).right.length⟩ terminal)
    (hleft : (grammar.production production).left = some left)
    (he : (left, target) ∈ graph.edgesFrom (Slot.top (slots ++ stack))) :
    Machine.climb (.build graph grammar) stack leaf (inner ++ slots) =
      some (⟨target, some left, .node (grammar.symbol left) "" (inner.map Slot.copy).reverse⟩ :: slots) := by
  have hne : production ≠ startProduction := by
    rintro rfl
    rw [hc.wellFormed.start_left] at hleft
    cases hleft
  have hcell := hc.action? (.reduce ha (by simp [Item.isFinal]) hne) fun _ h => by cases h
  have hgoto := hc.goto? he (hc.wellFormed.left_spec hleft).2
  have haction : Machine.action? (.build graph grammar) (inner ++ slots ++ stack) leaf =
      some (.reduce production) := by
    rw [Machine.action?, hs, Option.bind_some, List.append_assoc, hcell]
  have hpop := hp.pop [] slots
  rw [List.append_nil] at hpop
  exact Machine.climb_of_pop haction hpop hleft hgoto

theorem steps_passed (table : SyntaxTable) {stack slots : List Slot} {sequence : List Nat}
    {behind : List Leaf} (rest : List Leaf) (hb : ∀ leaf ∈ behind, leaf.Passed)
    (hp : Piled graph stack sequence slots) (hne : slots ≠ []) :
    ∃ others, Piled graph stack sequence others ∧ others ≠ [] ∧
      others.map Slot.copy = (behind.map Leaf.copy).reverse ++ slots.map Slot.copy ∧
      Slot.top (others ++ stack) = Slot.top (slots ++ stack) ∧
      Machine.Steps table ⟨slots ++ stack, behind ++ rest⟩ ⟨others ++ stack, rest⟩ := by
  induction behind generalizing slots with
  | nil => exact ⟨slots, hp, hne, rfl, rfl, .refl⟩
  | cons leaf behind ih =>
      have ⟨hpasses, hs⟩ := hb leaf (by simp)
      have hfirst : Piled graph stack sequence (⟨Slot.top (slots ++ stack), none, leaf.copy⟩ :: slots) :=
        .passed hp hne
      obtain ⟨others, hothers, hne', hcopies, htop, hsteps⟩ :=
        ih (fun other ho => hb other (by simp [ho])) hfirst (by simp)
      refine ⟨others, hothers, hne', ?_, htop, .head ?_ hsteps⟩
      · rw [hcopies]
        simp
      · simp [Machine.next, Machine.action?, hs, hpasses]

-- What comes first of a derivation and the leaf behind it may come first.
theorem awaits_next {state : Nat} {item : Item} {sequence rest : List Nat} {leaf : Leaf}
    {leaves : List Leaf} (more : List Leaf) {trees : List Snapshot} {terminal : Nat}
    (hs : leaf.symbol = some terminal)
    (hd : Derives grammar.toRules Leaf.Passed sequence leaves trees)
    (ha : Awaits grammar graph state item rest terminal) :
    ∃ first others symbol, leaves ++ leaf :: more = first :: others ∧ first.symbol = some symbol ∧
      Awaits grammar graph state item (sequence ++ rest) symbol := by
  rcases hd.head with ⟨rfl, hv⟩ | ⟨first, behind, symbol, rfl, hsymbol, hb⟩
  · refine ⟨leaf, more, terminal, rfl, hs, ?_⟩
    exact ha.imp hv.begins_append fun h => ⟨hv.append h.1, h.2⟩
  · exact ⟨first, behind ++ leaf :: more, symbol, rfl, hsymbol, Or.inl (hb.append rest)⟩

-- The machine builds the trees of a derivation on its stack, if the leaf behind
-- it may come there and the end of input is not one of the leaves.
theorem steps_derives (hc : Deterministic grammar graph) {sequence : List Nat} {leaves : List Leaf}
    {trees : List Snapshot} (hd : Derives grammar.toRules Leaf.Passed sequence leaves trees)
    {stack : List Slot} {item : Item} {rest : List Nat} {leaf : Leaf} {more : List Leaf}
    {terminal : Nat} (hi : (graph.state (Slot.top stack)).HasItem item)
    (hrest : (grammar.production item.production).right.drop item.dot = sequence ++ rest)
    (hs : leaf.symbol = some terminal)
    (ha : Awaits grammar graph (Slot.top stack) item rest terminal)
    (hleaves : grammar.toRules.Avoids (· == .finish) ∨ ∀ leaf ∈ leaves, leaf.symbol ≠ some finishId) :
    ∃ slots, Piled graph stack sequence slots ∧ (slots.map Slot.copy).reverse = trees ∧
      Machine.Steps (.build graph grammar) ⟨stack, leaves ++ leaf :: more⟩
        ⟨slots ++ stack, leaf :: more⟩ := by
  induction hd generalizing stack item rest leaf more terminal with
  | nil => exact ⟨[], .nil, rfl, .refl⟩
  | @leaf symbol sequence token behind leaves trees htoken hterminal hbehind _ ih =>
      have hnext : item.next? grammar.toRules = some symbol := Item.next?_of_drop hrest
      obtain ⟨target, he⟩ := hc.faithful.edge_exists _ item symbol hi hnext
      have hne : grammar.toRules.Avoids (· == .finish) ∨ symbol ≠ finishId :=
        hleaves.imp_right fun h he => h token List.mem_cons_self (he ▸ htoken)
      have hshift := hc.steps_shift (behind ++ (leaves ++ leaf :: more)) htoken hterminal he hne
      have hfirst : Piled graph stack [symbol] [⟨target, some symbol, token.copy⟩] :=
        .symbol .nil he
      obtain ⟨slots, hp, hne, hcopies, htop, hpassed⟩ :=
        steps_passed (.build graph grammar) (leaves ++ leaf :: more) hbehind hfirst (by simp)
      have hadvanced := Item.drop_advance hrest
      obtain ⟨others, ho, rfl, hsteps⟩ := @ih (slots ++ stack) item.advance rest leaf more terminal
        (htop ▸ (hc.faithful.edge_items _ symbol target he _).mpr (.given ⟨item, hi, hnext, rfl⟩))
        hadvanced hs (htop ▸ ha.imp_right (And.imp_right fun ha => hc.admits_advance ha he hnext))
        (hleaves.imp_right fun h other ho => h other (List.mem_cons_of_mem _ (List.mem_append_right _ ho)))
      refine ⟨others ++ slots, hp.append ho, ?_, ?_⟩
      · simp [hcopies]
      · rw [List.append_assoc]
        refine .trans ?_ hsteps
        simpa using hshift.trans hpassed
  | @node production left sequence below leaves children trees hleft _ hd ihbelow ih =>
      have hnext : item.next? grammar.toRules = some left := Item.next?_of_drop hrest
      have hbrings : item.Brings grammar.toRules ⟨production, 0⟩ := ⟨left, hnext, hleft, rfl⟩
      obtain ⟨target, he⟩ := hc.faithful.edge_exists _ item left hi hnext
      have hadvanced := Item.drop_advance hrest
      obtain ⟨first, others, symbol, hfirst, hsymbol, hawaits⟩ := awaits_next more hs hd ha
      have hremaining : item.remaining grammar.toRules = sequence ++ rest := hadvanced
      -- the children are built and reduced first
      have hadmits := hc.admits_brought hi hbrings (hremaining ▸ hawaits)
      have hright : (grammar.production production).right.drop 0 =
        (grammar.production production).right ++ [] := by simp
      obtain ⟨inner, hinner, rfl, hbelow⟩ := @ihbelow stack ⟨production, 0⟩ [] first others symbol
        (hc.faithful.items_closed _ item _ hi hbrings) hright hsymbol (Or.inr ⟨.nil, hadmits⟩)
        (hleaves.imp_right fun h other ho => h other (List.mem_append_left _ ho))
      have hfinal := hc.admits_piled hinner hright hadmits
      rw [Nat.zero_add] at hfinal
      have hclimb : Machine.climb (.build graph grammar) stack first (inner ++ []) =
          some (⟨target, some left, _⟩ :: []) := hc.climb_reduce hsymbol hinner hfinal hleft he
      have hreduce := Machine.Climbs.steps (.single hclimb) others
      obtain ⟨slots, hp, rfl, hsteps⟩ := @ih
        (⟨target, some left, .node (grammar.symbol left) "" (inner.map Slot.copy).reverse⟩ :: stack)
        item.advance rest leaf more terminal
        ((hc.faithful.edge_items _ left target he _).mpr (.given ⟨item, hi, hnext, rfl⟩))
        hadvanced hs (ha.imp_right (And.imp_right fun ha => hc.admits_advance ha he hnext))
        (hleaves.imp_right fun h other ho => h other (List.mem_append_right _ ho))
      refine ⟨slots ++ [_], (Piled.symbol .nil he).append hp, by simp, ?_⟩
      rw [List.append_assoc, List.append_assoc, hfirst]
      rw [List.append_nil] at hreduce
      refine hbelow.trans (hreduce.trans ?_)
      rw [← hfirst]
      exact hsteps

end Deterministic

end IncrementalLR
