import IncrementalLR.Automaton.Graph
import IncrementalLR.Proofs.Automaton.Closure

namespace IncrementalLR

def Item.start : Item := ⟨startProduction, 0⟩

-- Items that a prefix leads to. The last symbol of the prefix comes first.
inductive Spells (rules : Rules) : List Nat → Item → Prop where
  | start : Spells rules [] .start
  | advanced {spelled : List Nat} {item : Item} {symbol : Nat} :
      Spells rules spelled item → item.next? rules = some symbol →
      Spells rules (symbol :: spelled) item.advance
  | brought {spelled : List Nat} {item other : Item} :
      Spells rules spelled item → item.Brings rules other → Spells rules spelled other

-- Items with the terminals that may follow on them behind a prefix. These are
-- the canonical lookaheads, which no merging of states has widened.
inductive Valid (rules : Rules) : List Nat → Item → Nat → Prop where
  | start : Valid rules [] .start finishId
  | advanced {spelled : List Nat} {item : Item} {symbol terminal : Nat} :
      Valid rules spelled item terminal → item.next? rules = some symbol →
      Valid rules (symbol :: spelled) item.advance terminal
  | begun {spelled : List Nat} {item other : Item} {terminal : Nat} :
      Spells rules spelled item → item.Brings rules other →
      Begins rules (item.remaining rules) terminal → Valid rules spelled other terminal
  | passed {spelled : List Nat} {item other : Item} {terminal : Nat} :
      Valid rules spelled item terminal → item.Brings rules other →
      Vanishes rules (item.remaining rules) → Valid rules spelled other terminal

-- Where the lookaheads of a state come from: an item whose dot has moved, or
-- the start item, sees them, or they begin what stands behind some symbol.
inductive Stems (rules : Rules) (set : ItemSet) : Item → Nat → Prop where
  | kernel {item : Item} {terminal : Nat} :
      set.Sees item terminal → 0 < item.dot ∨ item = .start → Stems rules set item terminal
  | begun {item other : Item} {terminal : Nat} :
      set.HasItem item → item.Brings rules other → Begins rules (item.remaining rules) terminal →
      Stems rules set other terminal
  | passed {item other : Item} {terminal : Nat} :
      Stems rules set item terminal → item.Brings rules other →
      Vanishes rules (item.remaining rules) → Stems rules set other terminal

-- The items that have moved over a symbol.
def Successor (rules : Rules) (given : Item → Prop) (symbol : Nat) (item : Item) : Prop :=
  ∃ source, given source ∧ source.next? rules = some symbol ∧ item = source.advance

section

variable {rules : Rules} {spelled : List Nat} {item : Item} {terminal : Nat}

theorem Stems.mono {set other : ItemSet} (hw : set.Within other) (hs : Stems rules set item terminal) :
    Stems rules other item terminal := by
  induction hs with
  | kernel hsees hk => exact .kernel (hw.sees _ _ hsees) hk
  | begun hi hb hbegins => exact .begun (hw.hasItem _ hi) hb hbegins
  | passed _ hb hv ih => exact .passed ih hb hv

-- A prefix that leads to items leads to what they bring in.
theorem Reaches.spells {given : Item → Prop} (hs : ∀ item, given item → Spells rules spelled item)
    (hr : Reaches rules given item) : Spells rules spelled item := by
  induction hr with
  | given hi => exact hs _ hi
  | brought _ hb ih => exact .brought ih hb

theorem Valid.spells (hv : Valid rules spelled item terminal) : Spells rules spelled item := by
  induction hv with
  | start => exact .start
  | advanced _ hn ih => exact .advanced ih hn
  | begun hs hb _ => exact .brought hs hb
  | passed _ hb _ ih => exact .brought ih hb

theorem Item.next?_eq_some {symbol : Nat} (hn : item.next? rules = some symbol) :
    (rules.production item.production).right.drop item.dot = symbol :: item.remaining rules := by
  obtain ⟨hlt, hget⟩ := List.getElem?_eq_some_iff.mp hn
  rw [List.drop_eq_getElem_cons hlt, hget]
  rfl

theorem Item.next?_of_drop {symbol : Nat} {rest : List Nat}
    (hrest : (rules.production item.production).right.drop item.dot = symbol :: rest) :
    item.next? rules = some symbol := by
  have h := congrArg List.head? hrest
  simpa [Item.next?] using h

theorem Item.drop_advance {symbol : Nat} {rest : List Nat}
    (hrest : (rules.production item.production).right.drop item.dot = symbol :: rest) :
    (rules.production item.advance.production).right.drop item.advance.dot = rest := by
  rw [Item.advance, ← List.drop_drop, hrest]
  rfl

theorem Item.next?_mem {symbol : Nat} (hn : item.next? rules = some symbol) :
    symbol ∈ (rules.production item.production).right := List.mem_of_getElem? hn

end

-- Graphs whose states are the item sets of the grammar's automaton. Every
-- lookahead that the grammar asks for is there, and each one comes from some
-- prefix.
structure Faithful (grammar : Grammar) (graph : StateGraph) : Prop where
  start_items : ∀ item, (graph.state 0).HasItem item ↔
    Reaches grammar.toRules (· = .start) item
  items_closed : ∀ state item other, (graph.state state).HasItem item →
    item.Brings grammar.toRules other → (graph.state state).HasItem other
  edges_sorted : ∀ state, (graph.edgesFrom state).Pairwise fun left right => left.1 < right.1
  edge_target : ∀ state symbol target, (symbol, target) ∈ graph.edgesFrom state →
    0 < target ∧ target < graph.size
  edge_next : ∀ state symbol target, (symbol, target) ∈ graph.edgesFrom state →
    ∃ item, (graph.state state).HasItem item ∧ item.next? grammar.toRules = some symbol
  edge_items : ∀ state symbol target, (symbol, target) ∈ graph.edgesFrom state →
    ∀ item, (graph.state target).HasItem item ↔
      Reaches grammar.toRules
        (Successor grammar.toRules (graph.state state).HasItem symbol) item
  edge_exists : ∀ state item symbol, (graph.state state).HasItem item →
    item.next? grammar.toRules = some symbol → ∃ target, (symbol, target) ∈ graph.edgesFrom state
  start_sees : graph.mode ≠ .lr0 → (graph.state 0).Sees .start finishId
  begun_sees : graph.mode ≠ .lr0 → ∀ state item other terminal,
    (graph.state state).HasItem item → item.Brings grammar.toRules other →
    Begins grammar.toRules (item.remaining grammar.toRules) terminal →
    (graph.state state).Sees other terminal
  passed_sees : graph.mode ≠ .lr0 → ∀ state item other terminal,
    (graph.state state).Sees item terminal → item.Brings grammar.toRules other →
    Vanishes grammar.toRules (item.remaining grammar.toRules) →
    (graph.state state).Sees other terminal
  edge_sees : ∀ state symbol target item terminal, (symbol, target) ∈ graph.edgesFrom state →
    (graph.state state).Sees item terminal → item.next? grammar.toRules = some symbol →
    (graph.state target).Sees item.advance terminal
  stems : ∀ state item terminal, (graph.state state).Sees item terminal →
    Stems grammar.toRules (graph.state state) item terminal
  justified : ∀ state item terminal, (graph.state state).Sees item terminal →
    ∃ spelled, Valid grammar.toRules spelled item terminal

end IncrementalLR
