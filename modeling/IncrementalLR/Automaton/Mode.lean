namespace IncrementalLR

-- The construction of an automaton: without lookaheads, with lookaheads and
-- merging of weakly compatible states, or with merging of all states of equal
-- cores after that.
inductive Mode where
  | lr0
  | lr1
  | lalr
deriving DecidableEq, Repr, Inhabited

namespace Mode

def display : Mode → String
  | lr0 => "lr0"
  | lr1 => "lr1"
  | lalr => "lalr"

-- Upper and lower case ASCII letters are not told apart.
def parse? (text : String) : Option Mode :=
  let name := text.map Char.toLower
  if name = "lr0" then some lr0
  else if name = "lr1" || name = "pager" then some lr1
  else if name = "lalr" || name = "lalr1" then some lalr
  else none

def unknownMessage (text : String) : String :=
  "Unknown LR mode: " ++ text ++ ". Supported: lr0, lr1, lalr"

-- The mode in which the states are built, before states of equal cores merge.
def base : Mode → Mode
  | lr0 => lr0
  | lr1 | lalr => lr1

end Mode

end IncrementalLR
