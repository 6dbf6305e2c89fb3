import IncrementalLR.Grammar.Build

namespace IncrementalLR

namespace Rules

variable (rules : Rules)

def displaySequence (sequence : List Nat) : String :=
  String.join (sequence.map fun id => " " ++ (rules.symbol id).display)

def displayProduction (id : Nat) : String :=
  let right := (rules.production id).right
  rules.leftName id ++ " ::=" ++ (if right.isEmpty then " ε" else rules.displaySequence right)

def displayAlternative (id : Nat) : String :=
  let right := (rules.production id).right
  if right.isEmpty then " " else rules.displaySequence right

def displayRule (id : Nat) : String :=
  (rules.symbol id).name ++ " ::=" ++
    "\n    |".intercalate ((rules.alternatives id).map rules.displayAlternative) ++ "\n    ;\n"

-- The rules in the notation that the grammar reader takes, without tags,
-- templates and precedences.
def display : String :=
  String.join
    ((rules.nonterminals.filter fun id => !(rules.alternatives id).isEmpty).map rules.displayRule)

end Rules

end IncrementalLR
