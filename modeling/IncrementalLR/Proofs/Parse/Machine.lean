import IncrementalLR.Proofs.Automaton.Cells
import IncrementalLR.Tree.Walk
import Mathlib.Logic.Relation

namespace IncrementalLR

-- A leaf as a parser sees it: the symbol under which the grammar knows it, and
-- whether it is passed through where the table has no action for it.
structure Leaf where
  symbol : Option Nat
  passes : Bool
  copy : Snapshot

-- What lies on the stack of a parser that works on leaves alone. A leaf that
-- was passed through stands for no symbol.
structure Slot where
  state : Nat
  symbol : Option Nat
  copy : Snapshot

namespace Slot

def top (slots : List Slot) : Nat :=
  match slots with
  | slot :: _ => slot.state
  | [] => 0

-- Takes so many symbols from the top, with what was passed through between them.
def pop (taken : List Snapshot) : Nat → List Slot → Option (List Snapshot × List Slot)
  | 0, slots => some (taken, slots)
  | _ + 1, [] => none
  | count + 1, slot :: rest =>
      pop (slot.copy :: taken) (if slot.symbol.isSome then count else count + 1) rest

end Slot

-- A parser that knows no trees but those that it builds.
structure Machine where
  slots : List Slot
  leaves : List Leaf

namespace Machine

variable (table : SyntaxTable)

def action? (slots : List Slot) (leaf : Leaf) : Option Action :=
  leaf.symbol.bind (table.action? (Slot.top slots))

def reduce (production : Nat) (slots : List Slot) : Option (List Slot) :=
  match Slot.pop [] (table.grammar.production production).right.length slots,
    (table.grammar.production production).left with
  | some (children, below), some left =>
      (table.goto? (Slot.top below) left).map fun state =>
        ⟨state, some left, .node (table.grammar.symbol left) "" children⟩ :: below
  | _, _ => none

-- The machine after one step. None where it halts.
def next (machine : Machine) : Option Machine :=
  match machine.leaves with
  | [] => none
  | leaf :: rest =>
      match action? table machine.slots leaf with
      | some (.shift state) => some ⟨⟨state, leaf.symbol, leaf.copy⟩ :: machine.slots, rest⟩
      | some (.reduce production) => (reduce table production machine.slots).map (⟨·, leaf :: rest⟩)
      | some .accept => none
      | some (.goto _) | none =>
          if leaf.passes then some ⟨⟨Slot.top machine.slots, none, leaf.copy⟩ :: machine.slots, rest⟩
          else none

-- The machine after any number of steps.
def Steps : Machine → Machine → Prop :=
  Relation.ReflTransGen fun machine after => machine.next table = some after

end Machine

theorem Slot.pop_append {taken children : List Snapshot} {count : Nat} {slots below : List Slot}
    (hp : Slot.pop taken count slots = some (children, below)) (stack : List Slot) :
    Slot.pop taken count (slots ++ stack) = some (children, below ++ stack) := by
  induction slots generalizing taken count with
  | nil =>
      cases count with
      | zero =>
          simp only [Slot.pop, Option.some_inj, Prod.mk.injEq] at hp
          obtain ⟨rfl, rfl⟩ := hp
          simp [Slot.pop]
      | succ count => cases hp
  | cons slot rest ih =>
      cases count with
      | zero =>
          simp only [Slot.pop, Option.some_inj, Prod.mk.injEq] at hp
          obtain ⟨rfl, rfl⟩ := hp
          simp [Slot.pop]
      | succ count => exact ih hp

namespace Machine

variable (table : SyntaxTable) (stack : List Slot) (leaf : Leaf)

-- A reduction that takes nothing off the stack below the slots. None if there is
-- no such reduction.
def climb (slots : List Slot) : Option (List Slot) :=
  match action? table (slots ++ stack) leaf with
  | some (.reduce production) =>
      match Slot.pop [] (table.grammar.production production).right.length slots,
        (table.grammar.production production).left with
      | some (children, below), some left =>
          (table.goto? (Slot.top (below ++ stack)) left).map fun state =>
            ⟨state, some left, .node (table.grammar.symbol left) "" children⟩ :: below
      | _, _ => none
  | _ => none

def Climbs : List Slot → List Slot → Prop :=
  Relation.ReflTransGen fun slots after => climb table stack leaf slots = some after

variable {table stack leaf} {slots after other : List Slot}

-- Climbing ends in one way only.
theorem Climbs.unique (ha : Climbs table stack leaf slots after)
    (ho : Climbs table stack leaf slots other) (hna : climb table stack leaf after = none)
    (hno : climb table stack leaf other = none) : after = other := by
  induction ha using Relation.ReflTransGen.head_induction_on with
  | refl =>
      rcases Relation.ReflTransGen.cases_head ho with he | ⟨middle, h, -⟩
      · exact he
      · rw [hna] at h
        cases h
  | head h _ ih =>
      rcases Relation.ReflTransGen.cases_head ho with rfl | ⟨middle, h', hrest⟩
      · rw [hno] at h
        cases h
      · rw [h, Option.some_inj] at h'
        exact ih (h' ▸ hrest)

-- A reduction takes its right side off the stack and goes on with its left side.
theorem reduce_eq_some (h : reduce table production slots = some after) :
    ∃ children below left state,
      Slot.pop [] (table.grammar.production production).right.length slots = some (children, below) ∧
      (table.grammar.production production).left = some left ∧ table.goto? (Slot.top below) left = some state ∧
      after = ⟨state, some left, .node (table.grammar.symbol left) "" children⟩ :: below := by
  unfold reduce at h
  split at h
  · rename_i children below left hpop hleft
    obtain ⟨state, hgoto, rfl⟩ := Option.map_eq_some_iff.mp h
    exact ⟨children, below, left, state, hpop, hleft, hgoto, rfl⟩
  · cases h

theorem climb_of_pop {children : List Snapshot} {below : List Slot} {left state : Nat}
    (haction : action? table (slots ++ stack) leaf = some (.reduce production))
    (hpop : Slot.pop [] (table.grammar.production production).right.length slots = some (children, below))
    (hleft : (table.grammar.production production).left = some left)
    (hgoto : table.goto? (Slot.top (below ++ stack)) left = some state) :
    climb table stack leaf slots = some (⟨state, some left, .node (table.grammar.symbol left) "" children⟩ :: below) := by
  simp only [climb, haction, hpop, hleft, hgoto, Option.map_some]

theorem climb_of_pop_none (haction : action? table (slots ++ stack) leaf = some (.reduce production))
    (hpop : Slot.pop [] (table.grammar.production production).right.length slots = none) :
    climb table stack leaf slots = none := by
  simp only [climb, haction, hpop]

theorem reduce_of_climb (h : climb table stack leaf slots = some after) :
    ∃ production, action? table (slots ++ stack) leaf = some (.reduce production) ∧
      reduce table production (slots ++ stack) = some (after ++ stack) := by
  unfold climb at h
  split at h
  · rename_i production haction
    refine ⟨production, haction, ?_⟩
    split at h
    · rename_i children below left hpop hleft
      obtain ⟨state, hgoto, rfl⟩ := Option.map_eq_some_iff.mp h
      rw [reduce, Slot.pop_append hpop, hleft]
      simp only [hgoto, Option.map_some]
      rfl
    · cases h
  · cases h

theorem Climbs.steps (hc : Climbs table stack leaf slots after) (rest : List Leaf) :
    Steps table ⟨slots ++ stack, leaf :: rest⟩ ⟨after ++ stack, leaf :: rest⟩ := by
  induction hc with
  | refl => exact .refl
  | tail _ h ih =>
      obtain ⟨production, haction, hreduce⟩ := reduce_of_climb h
      refine ih.tail ?_
      simp [next, haction, hreduce]

end Machine

-- Leaves that the grammar does not know and that are passed through.
def Leaf.Passed (leaf : Leaf) : Prop := leaf.passes = true ∧ leaf.symbol = none

-- Sequences of symbols with the leaves that are derived from them and with the
-- trees of the derivation. Leaves of some kind may stand behind each token, which
-- belong to no symbol.
inductive Derives (rules : Rules) (passed : Leaf → Prop) :
    List Nat → List Leaf → List Snapshot → Prop where
  | nil : Derives rules passed [] [] []
  | leaf {terminal : Nat} {rest : List Nat} {leaf : Leaf} {behind leaves : List Leaf}
      {trees : List Snapshot} :
      leaf.symbol = some terminal → terminal ∈ rules.terminals →
      (∀ other ∈ behind, passed other) → Derives rules passed rest leaves trees →
      Derives rules passed (terminal :: rest) (leaf :: (behind ++ leaves))
        (leaf.copy :: (behind.map Leaf.copy ++ trees))
  | node {production left : Nat} {rest : List Nat} {below leaves : List Leaf}
      {children trees : List Snapshot} :
      (rules.production production).left = some left →
      Derives rules passed (rules.production production).right below children →
      Derives rules passed rest leaves trees →
      Derives rules passed (left :: rest) (below ++ leaves)
        (.node (rules.symbol left) "" children :: trees)

namespace Derives

variable {rules : Rules} {passed : Leaf → Prop} {sequence : List Nat} {leaves : List Leaf}
  {trees : List Snapshot}

theorem append {second : List Nat} {others : List Leaf} {copies : List Snapshot}
    (hd : Derives rules passed sequence leaves trees) (ho : Derives rules passed second others copies) :
    Derives rules passed (sequence ++ second) (leaves ++ others) (trees ++ copies) := by
  induction hd with
  | nil => exact ho
  | leaf hs ht hb _ ih =>
      simp only [List.cons_append, List.append_assoc]
      exact .leaf hs ht hb ih
  | node hleft hbelow _ _ ih =>
      simp only [List.cons_append, List.append_assoc]
      exact .node hleft hbelow ih

-- Either nothing is derived, or a token comes first.
theorem head (hd : Derives rules passed sequence leaves trees) :
    leaves = [] ∧ Vanishes rules sequence ∨
      ∃ leaf rest terminal, leaves = leaf :: rest ∧ leaf.symbol = some terminal ∧
        Begins rules sequence terminal := by
  induction hd with
  | nil => exact Or.inl ⟨rfl, .nil⟩
  | leaf hs ht _ _ _ => exact Or.inr ⟨_, _, _, rfl, hs, .here ht⟩
  | node hleft _ _ ihbelow ih =>
      rcases ihbelow with ⟨rfl, hv⟩ | ⟨leaf, rest, terminal, rfl, hs, hb⟩
      · rcases ih with ⟨rfl, hv'⟩ | ⟨leaf, rest, terminal, rfl, hs, hb⟩
        · exact Or.inl ⟨rfl, .cons hleft hv hv'⟩
        · exact Or.inr ⟨leaf, rest, terminal, rfl, hs, .after (.cons hleft hv .nil) hb⟩
      · exact Or.inr ⟨leaf, _, terminal, rfl, hs, .inside hleft hb⟩

end Derives

theorem Begins.avoids {rules : Rules} {kind : Symbol → Bool} (ha : rules.Avoids kind)
    {sequence : List Nat} {terminal : Nat}
    (hs : ∀ symbol ∈ sequence, kind (rules.symbol symbol) = false)
    (hb : Begins rules sequence terminal) : kind (rules.symbol terminal) = false := by
  induction hb with
  | here _ => exact hs _ (by simp)
  | inside _ _ ih => exact ih (ha _)
  | after _ _ ih => exact ih fun symbol h => hs symbol (by simp [h])

end IncrementalLR
