import IncrementalLR.Automaton.Table

namespace IncrementalLR

namespace ConflictKind

def display : ConflictKind → String
  | shiftReduce => "shift/reduce"
  | reduceReduce => "reduce/reduce"
  | acceptReduce => "accept/reduce"

end ConflictKind

def Resolution.display (rules : Rules) : Resolution → String
  | shift _ => "shift"
  | reduce production => "reduce " ++ rules.displayProduction production
  | accept => "accept"
  | error => "error (nonassociative)"

namespace Conflict

variable (rules : Rules) (conflict : Conflict)

-- The productions that compete, and how the conflict was settled.
def detail : String :=
  "[" ++ " | ".intercalate (conflict.productions.map rules.displayProduction) ++ "] resolved to " ++
    conflict.resolution.display rules ++
    (if conflict.byPrecedence then " by precedence" else " by default")

def display : String :=
  conflict.kind.display ++ " conflict in state " ++ toString conflict.state ++ " on " ++
    (rules.symbol conflict.symbol).display ++ ": " ++ conflict.detail rules

end Conflict

-- All conflicts, one on a line. Those that no precedence settles come first,
-- and states are in order among either kind.
def SyntaxTable.displayConflicts (table : SyntaxTable) : String :=
  let inOrder (conflicts : List Conflict) := conflicts.mergeSort fun left right => left.state ≤ right.state
  let sorted := inOrder table.unresolved ++ inOrder (table.conflicts.filter (·.byPrecedence))
  String.join (sorted.map fun conflict => conflict.display table.grammar.toRules ++ "\n")

end IncrementalLR
