import IncrementalLR.Proofs.Parse.Acceptance
import IncrementalLR.Proofs.Parse.Agreement
import IncrementalLR.Proofs.Parse.Halting

namespace IncrementalLR

section Prefixes

variable {rules : Rules} {grammar : Grammar} {graph : StateGraph} {spelled : List Nat} {slots : List Slot}
  {item : Item} {symbol terminal : Nat}

-- The items on top of a stack are those that its symbols lead to, whatever lookaheads
-- they have.
theorem Path.spells (hf : Faithful grammar graph) (hp : Path graph spelled slots)
    (hi : (graph.state (Slot.top slots)).HasItem item) : Spells grammar.toRules spelled item := by
  induction hp generalizing item with
  | nil =>
      refine ((hf.start_items item).mp hi).spells fun other h => ?_
      obtain rfl : other = .start := h
      exact .start
  | symbol _ he ih =>
      refine ((hf.edge_items _ _ _ he item).mp hi).spells fun other h => ?_
      obtain ⟨source, hs, hn, rfl⟩ := h
      exact .advanced (ih hs) hn
  | passed _ ih => exact ih hi

-- What begins behind an item began behind the last symbol of the prefix.
theorem Spells.begins_source (hs : Spells rules (symbol :: spelled) item)
    (hb : Begins rules ((rules.production item.production).right.drop item.dot) terminal) :
    ∃ source, Spells rules spelled source ∧ source.next? rules = some symbol ∧
      Begins rules (source.remaining rules) terminal := by
  generalize hwhole : symbol :: spelled = whole at hs
  induction hs with
  | start => cases hwhole
  | advanced hs hn _ =>
      obtain ⟨rfl, rfl⟩ := List.cons.inj hwhole
      exact ⟨_, hs, hn, hb⟩
  | brought _ hbrings ih =>
      obtain ⟨left, hn, hleft, hzero⟩ := hbrings
      refine ih ?_ hwhole
      rw [Item.next?_eq_some hn]
      rw [hzero, List.drop_zero] at hb
      exact .inside hleft hb

end Prefixes

-- A stack along the edges of a graph with what has been read onto it: the symbols from
-- the top to the bottom, and the leaves that are derived from them. Nothing has been
-- passed through.
inductive Reads (grammar : Grammar) (graph : StateGraph) : List Nat → List Leaf → List Slot → Prop where
  | nil : Reads grammar graph [] [] []
  | symbol {spelled : List Nat} {read leaves : List Leaf} {slots : List Slot} {symbol target : Nat} {copy : Snapshot} :
      Reads grammar graph spelled read slots → (symbol, target) ∈ graph.edgesFrom (Slot.top slots) →
      Derives grammar.toRules Leaf.Passed [symbol] leaves [copy] →
      Reads grammar graph (symbol :: spelled) (read ++ leaves) (⟨target, some symbol, copy⟩ :: slots)

namespace Reads

variable {grammar : Grammar} {graph other : StateGraph} {spelled : List Nat} {read : List Leaf} {slots : List Slot}
  {item : Item} {leaf : Leaf} {terminal : Nat}

theorem path (hr : Reads grammar graph spelled read slots) : Path graph spelled slots := by
  induction hr with
  | nil => exact .nil
  | symbol _ he _ ih => exact .symbol ih he

-- What an item has moved over lies on top of the stack, with the trees that make up its
-- right side so far.
theorem pop (hf : Faithful grammar graph) (hr : Reads grammar graph spelled read slots) {production dot : Nat}
    (hi : (graph.state (Slot.top slots)).HasItem ⟨production, dot⟩) (taken : List Snapshot) :
    ∃ children below rest before inside, Slot.pop taken dot slots = some (children ++ taken, below) ∧
      Reads grammar graph rest before below ∧ (graph.state (Slot.top below)).HasItem ⟨production, 0⟩ ∧
      read = before ++ inside ∧ spelled = ((grammar.production production).right.take dot).reverse ++ rest ∧
      Derives grammar.toRules Leaf.Passed ((grammar.production production).right.take dot) inside children := by
  induction hr generalizing dot taken with
  | nil =>
      obtain rfl : dot = 0 := hf.dot_of_start hi
      exact ⟨[], [], [], [], [], by simp [Slot.pop], .nil, hi, rfl, rfl, .nil⟩
  | @symbol spelled read leaves slots symbol target copy hr he hd ih =>
      cases dot with
      | zero => exact ⟨[], _, _, _, [], by simp [Slot.pop], .symbol hr he hd, hi, by simp, by simp, .nil⟩
      | succ dot =>
          obtain ⟨hsource, hn⟩ := hf.source he hi
          obtain ⟨children, below, rest, before, inside, hpop, hbelow, hbegin, rfl, rfl, hderives⟩ :=
            ih hsource (copy :: taken)
          refine ⟨children ++ [copy], below, rest, before, inside ++ leaves, ?_, hbelow, hbegin, ?_, ?_, ?_⟩
          · rw [Slot.pop, Option.isSome_some, if_pos rfl, hpop, List.append_assoc, List.singleton_append]
          · rw [List.append_assoc]
          · rw [List.take_add_one, hn]
            simp
          · rw [List.take_add_one, hn]
            exact hderives.append hd

-- A final item on top has its production on the stack.
theorem pop_final (hf : Faithful grammar graph) (hr : Reads grammar graph spelled read slots)
    (hi : (graph.state (Slot.top slots)).HasItem item) (hfinal : item.isFinal grammar.toRules = true) :
    ∃ children below rest before inside,
      Slot.pop [] (grammar.production item.production).right.length slots = some (children, below) ∧
      Reads grammar graph rest before below ∧ (graph.state (Slot.top below)).HasItem ⟨item.production, 0⟩ ∧
      read = before ++ inside ∧ spelled = (grammar.production item.production).right.reverse ++ rest ∧
      Derives grammar.toRules Leaf.Passed (grammar.production item.production).right inside children := by
  obtain ⟨production, dot⟩ := item
  have hle : (grammar.production production).right.length ≤ dot := by
    simpa [Item.isFinal] using hfinal
  obtain rfl : dot = (grammar.production production).right.length :=
    Nat.le_antisymm (hr.path.dot_le hf hi) hle
  have hpop := hr.pop hf hi []
  simpa only [List.take_length, List.append_nil] using hpop

-- The start item lies below all symbols.
theorem bottom (hw : grammar.toRules.WellFormed) (hf : Faithful grammar graph)
    (hr : Reads grammar graph spelled read slots) (hi : (graph.state (Slot.top slots)).HasItem .start) :
    spelled = [] ∧ read = [] ∧ slots = [] := by
  cases hr with
  | nil => exact ⟨rfl, rfl, rfl⟩
  | symbol _ he _ => exact absurd hi (hf.not_hasItem_start hw he)

-- What has been read onto a stack is read by any table without conflicts, up to where
-- the next leaf may follow.
theorem steps (hc : ConflictFree grammar other) (hr : Reads grammar graph spelled read slots) {more : List Leaf}
    (hs : Spells grammar.toRules spelled item) (hleaf : leaf.symbol = some terminal)
    (hb : Begins grammar.toRules ((grammar.production item.production).right.drop item.dot) terminal) :
    ∃ others, Reads grammar other spelled read others ∧ others.map Slot.copy = slots.map Slot.copy ∧
      Machine.Steps (.build other grammar) ⟨[], read ++ leaf :: more⟩ ⟨others, leaf :: more⟩ := by
  induction hr generalizing item leaf terminal more with
  | nil => exact ⟨[], .nil, rfl, .refl⟩
  | @symbol spelled read leaves slots symbol target copy hr _ hd ih =>
      obtain ⟨source, hsource, hn, hrest⟩ := hs.begins_source hb
      have hright := Item.next?_eq_some hn
      -- the leaf that comes first of the symbol and what is behind it
      obtain ⟨first, behind, next, hfirst, hknown, hbefore⟩ : ∃ first behind next,
          leaves ++ leaf :: more = first :: behind ∧ first.symbol = some next ∧
            Begins grammar.toRules (symbol :: source.remaining grammar.toRules) next := by
        rcases hd.head with ⟨rfl, hv⟩ | ⟨first, behind, next, rfl, hknown, hb⟩
        · exact ⟨leaf, more, terminal, rfl, hleaf, hv.begins_append hrest⟩
        · exact ⟨first, behind ++ leaf :: more, next, rfl, hknown, hb.append _⟩
      obtain ⟨others, hothers, hcopies, hsteps⟩ := @ih source first next behind hsource hknown (hright ▸ hbefore)
      obtain ⟨piled, hpiled, htrees, hon⟩ := @Deterministic.steps_derives _ _ hc.deterministic _ _ _ hd others
        source _ leaf more terminal (hothers.path.hasItem hc.faithful hsource) hright hleaf (Or.inl hrest) (Or.inl hc.finish)
      obtain ⟨after, he, rfl⟩ := hpiled.single htrees
      refine ⟨_, .symbol hothers he hd, congrArg (copy :: ·) hcopies, ?_⟩
      rw [List.append_assoc, hfirst]
      rw [hfirst] at hon
      exact hsteps.trans hon

-- One symbol takes one slot.
theorem lone {symbol : Nat} (hr : Reads grammar graph [symbol] read slots) :
    ∃ target copy, slots = [⟨target, some symbol, copy⟩] ∧ Derives grammar.toRules Leaf.Passed [symbol] read [copy] := by
  cases hr with
  | symbol hr _ hd =>
      cases hr
      exact ⟨_, _, rfl, hd⟩

end Reads

namespace Machine

variable {table : SyntaxTable} {grammar : Grammar} {left right : StateGraph} {input : List Leaf}
  {machine after last other : Machine}

-- What one step makes of a machine.
inductive Takes (table : SyntaxTable) : Machine → Machine → Prop where
  | shift {slots : List Slot} {leaf : Leaf} {rest : List Leaf} {state : Nat} :
      action? table slots leaf = some (.shift state) →
      Takes table ⟨slots, leaf :: rest⟩ ⟨⟨state, leaf.symbol, leaf.copy⟩ :: slots, rest⟩
  | reduce {slots others : List Slot} {leaf : Leaf} {rest : List Leaf} {production : Nat} :
      action? table slots leaf = some (.reduce production) → reduce table production slots = some others →
      Takes table ⟨slots, leaf :: rest⟩ ⟨others, leaf :: rest⟩
  | pass {slots : List Slot} {leaf : Leaf} {rest : List Leaf} : leaf.passes = true →
      Takes table ⟨slots, leaf :: rest⟩ ⟨⟨Slot.top slots, none, leaf.copy⟩ :: slots, rest⟩

theorem takes_of_next (h : machine.next table = some after) : Takes table machine after := by
  obtain ⟨slots, leaves⟩ := machine
  cases leaves with
  | nil => cases h
  | cons leaf rest =>
      have hpass : (if leaf.passes then some (⟨⟨Slot.top slots, none, leaf.copy⟩ :: slots, rest⟩ : Machine)
          else none) = some after → Takes table ⟨slots, leaf :: rest⟩ after := by
        intro h
        by_cases hp : leaf.passes = true
        · rw [if_pos hp, Option.some_inj] at h
          exact h ▸ .pass hp
        · rw [if_neg hp] at h
          cases h
      rw [next] at h
      dsimp only at h
      split at h
      · rename_i state haction
        exact Option.some_inj.mp h ▸ .shift haction
      · rename_i production haction
        obtain ⟨others, hreduce, rfl⟩ := Option.map_eq_some_iff.mp h
        exact .reduce haction hreduce
      · cases h
      · exact hpass h
      · exact hpass h

theorem Steps.leaves (hs : Steps table machine after) : after.leaves <:+ machine.leaves := by
  induction hs with
  | refl => exact List.suffix_refl _
  | tail _ h ih =>
      cases takes_of_next h with
      | shift _ => exact (List.suffix_cons _ _).trans ih
      | reduce _ _ => exact ih
      | pass _ => exact (List.suffix_cons _ _).trans ih

-- Whether the stack of a machine has been read from the input.
def HasRead (grammar : Grammar) (graph : StateGraph) (input : List Leaf) (machine : Machine) : Prop :=
  ∃ spelled read, Reads grammar graph spelled read machine.slots ∧ read ++ machine.leaves = input

theorem HasRead.next (hw : grammar.toRules.WellFormed) (hf : Faithful grammar left)
    (hplain : ∀ leaf ∈ input, leaf.passes = false) (hr : HasRead grammar left input machine)
    (h : machine.next (.build left grammar) = some after) : HasRead grammar left input after := by
  obtain ⟨spelled, read, hreads, rfl⟩ := hr
  cases takes_of_next h with
  | @shift slots leaf rest state haction =>
      obtain ⟨terminal, hsymbol, haction⟩ := Option.bind_eq_some_iff.mp haction
      cases candidate_of_action? haction with
      | shift he hn =>
          have hd : Derives grammar.toRules Leaf.Passed [terminal] [leaf] [leaf.copy] :=
            @Derives.leaf _ _ _ _ leaf [] _ _ hsymbol (hf.terminal_of_edge hw he hn) nofun .nil
          refine ⟨terminal :: spelled, read ++ [leaf], ?_, by simp⟩
          rw [hsymbol]
          exact .symbol hreads he hd
  | @reduce slots others leaf rest production haction hreduce =>
      obtain ⟨terminal, hsymbol, haction⟩ := Option.bind_eq_some_iff.mp haction
      obtain ⟨children, below, symbol, state, hpop, hleft, hgoto, rfl⟩ := reduce_eq_some hreduce
      generalize hsame : Action.reduce production = action at haction
      cases candidate_of_action? haction with
      | accept => cases hsame
      | shift => cases hsame
      | goto => cases hsame
      | @reduce item terminal ha hfinal _ =>
          obtain rfl := Action.reduce.inj hsame
          obtain ⟨children', below', rest', before, inside, hpop', hbelow, -, rfl, -, hd⟩ :=
            hreads.pop_final hf ha.1 hfinal
          obtain ⟨rfl, rfl⟩ := Prod.mk.inj (Option.some_inj.mp (hpop.symm.trans hpop'))
          have hnode := Derives.node hleft hd .nil
          rw [List.append_nil] at hnode
          exact ⟨_, _, .symbol hbelow (edge_of_goto? hgoto) hnode, rfl⟩
  | @pass slots leaf rest hp =>
      rw [hplain leaf (List.mem_append_right _ List.mem_cons_self)] at hp
      cases hp

theorem HasRead.steps (hw : grammar.toRules.WellFormed) (hf : Faithful grammar left)
    (hplain : ∀ leaf ∈ input, leaf.passes = false) (hs : Steps (.build left grammar) ⟨[], input⟩ machine) :
    HasRead grammar left input machine := by
  induction hs with
  | refl => exact ⟨[], [], .nil, rfl⟩
  | tail _ h ih => exact ih.next hw hf hplain h

-- A leaf that one table without conflicts shifts is shifted by all others.
theorem Steps.follows (hl : ConflictFree grammar left) (hr : ConflictFree grammar right)
    (hplain : ∀ leaf ∈ input, leaf.passes = false) (hs : Steps (.build left grammar) ⟨[], input⟩ machine) :
    ∃ others, Steps (.build right grammar) ⟨[], input⟩ ⟨others, machine.leaves⟩ := by
  induction hs with
  | refl => exact ⟨[], .refl⟩
  | tail hs h ih =>
      obtain ⟨spelled, read, hreads, hinput⟩ := HasRead.steps hl.wellFormed hl.faithful hplain hs
      cases takes_of_next h with
      | @shift slots leaf rest state haction =>
          obtain ⟨terminal, hsymbol, haction⟩ := Option.bind_eq_some_iff.mp haction
          cases candidate_of_action? haction with
          | shift he hn =>
              have ht := hl.faithful.terminal_of_edge hl.wellFormed he hn
              obtain ⟨item, hi, hnext⟩ := hl.faithful.edge_next _ _ _ he
              have hspells := hreads.path.spells hl.faithful hi
              obtain ⟨others, hothers, -, hsteps⟩ := @Reads.steps _ _ _ _ _ _ _ leaf _ hr hreads rest hspells hsymbol
                (Item.next?_eq_some hnext ▸ .here ht)
              obtain ⟨target, he'⟩ :=
                hr.faithful.edge_exists _ _ _ (hothers.path.hasItem hr.faithful hspells) hnext
              rw [hinput] at hsteps
              exact ⟨_, hsteps.trans (hr.deterministic.steps_shift rest hsymbol ht he' (Or.inl hr.finish))⟩
      | reduce _ _ => exact ih
      | @pass slots leaf rest hp =>
          rw [hplain leaf (hinput ▸ List.mem_append_right _ List.mem_cons_self)] at hp
          cases hp

-- Tables without conflicts halt before the same leaf.
theorem leaves_eq_of_halted (hl : ConflictFree grammar left) (hr : ConflictFree grammar right)
    (hplain : ∀ leaf ∈ input, leaf.passes = false) (hs : Steps (.build left grammar) ⟨[], input⟩ machine)
    (ho : Steps (.build right grammar) ⟨[], input⟩ other) (hhalts : machine.next (.build left grammar) = none)
    (hhalts' : other.next (.build right grammar) = none) : machine.leaves = other.leaves := by
  obtain ⟨others, hothers⟩ := hs.follows hl hr hplain
  obtain ⟨slots, hslots⟩ := ho.follows hr hl hplain
  have hsuffix := (hs.to_last hslots hhalts).leaves
  have hsuffix' := (ho.to_last hothers hhalts').leaves
  exact hsuffix.eq_of_length_le hsuffix'.length_le

-- Where one table without conflicts accepts, so do all others, with the same tree.
theorem Accepts.follows (hl : ConflictFree grammar left) (hr : ConflictFree grammar right)
    (hplain : ∀ leaf ∈ input, leaf.passes = false) (hs : Steps (.build left grammar) ⟨[], input⟩ machine)
    (ha : Accepts (.build left grammar) machine) :
    ∃ slots, Steps (.build right grammar) ⟨[], input⟩ ⟨slots, machine.leaves⟩ ∧
      Accepts (.build right grammar) ⟨slots, machine.leaves⟩ ∧ slots.map Slot.copy = machine.slots.map Slot.copy := by
  obtain ⟨spelled, read, hreads, hinput⟩ := HasRead.steps hl.wellFormed hl.faithful hplain hs
  obtain ⟨slots, leaves⟩ := machine
  obtain ⟨leaf, rest, rfl, haction⟩ := ha
  obtain ⟨terminal, hsymbol, haction⟩ := Option.bind_eq_some_iff.mp haction
  cases candidate_of_action? haction with
  | accept hi hfinal hstart =>
      obtain ⟨children, below, bottom, before, inside, -, hbelow, hi', -, rfl, -⟩ :=
        hreads.pop_final hl.faithful hi hfinal
      rw [hstart] at hi' hreads
      obtain ⟨rfl, -, -⟩ := hbelow.bottom hl.wellFormed hl.faithful hi'
      rw [hl.wellFormed.start_right] at hreads
      obtain ⟨target, copy, rfl, hd⟩ := hreads.lone
      obtain ⟨others, hcopies, hsteps, haccepts⟩ :=
        @Deterministic.accepts_derives _ _ hr.deterministic [] _ rest leaf _ nofun hd hsymbol (Or.inl hr.finish)
      rw [List.nil_append, hinput] at hsteps
      refine ⟨others, hsteps, haccepts, ?_⟩
      rw [← List.reverse_inj, hcopies]
      rfl

end Machine

end IncrementalLR
