import IncrementalLR.Grammar.Printer

namespace IncrementalLR

-- A production with a dot in its right side.
structure Item where
  production : Nat
  dot : Nat
deriving DecidableEq, Repr, Inhabited

namespace Item

def Before (left right : Item) : Prop :=
  left.production < right.production ∨ (left.production = right.production ∧ left.dot < right.dot)

instance (left right : Item) : Decidable (left.Before right) := by
  unfold Before
  infer_instance

theorem Before.trans {left middle right : Item} (hl : left.Before middle)
    (hr : middle.Before right) : left.Before right := by
  unfold Before at *
  omega

theorem not_before_self (item : Item) : ¬ item.Before item := by
  unfold Before
  omega

theorem before_of_not_before {left right : Item} (hn : ¬ left.Before right) (hne : left ≠ right) :
    right.Before left := by
  have : ¬ (left.production = right.production ∧ left.dot = right.dot) := fun h =>
    hne (by cases left; cases right; simp_all)
  unfold Before at *
  omega

-- The symbol after the dot, if the item is not final.
def next? (rules : Rules) (item : Item) : Option Nat :=
  (rules.production item.production).right[item.dot]?

-- What stands behind the symbol after the dot.
def remaining (rules : Rules) (item : Item) : List Nat :=
  (rules.production item.production).right.drop (item.dot + 1)

def isFinal (rules : Rules) (item : Item) : Bool :=
  (rules.production item.production).right.length ≤ item.dot

def advance (item : Item) : Item := ⟨item.production, item.dot + 1⟩

-- The item with its dot drawn, and with its lookahead if that is not empty.
def display (rules : Rules) (item : Item) (lookahead : SymbolSet) : String :=
  let right := (rules.production item.production).right
  let symbols := lookahead.toList.map fun id => (rules.symbol id).display
  rules.leftName item.production ++ " ::=" ++
    rules.displaySequence (right.take item.dot) ++ " •" ++
    rules.displaySequence (right.drop item.dot) ++
    (if symbols.isEmpty then "" else "  \x7b" ++ ", ".intercalate symbols ++ "\x7d") ++ "\n"

end Item

end IncrementalLR
