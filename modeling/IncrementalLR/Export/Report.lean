import IncrementalLR.Automaton.Table

namespace IncrementalLR

-- A summary of a table: its mode, its sizes and what happened when it was built.
def SyntaxTable.summary (table : SyntaxTable) : String :=
  let stats := table.graph.stats
  "mode: " ++ table.graph.mode.display ++ "\n" ++
    "states: " ++ toString table.graph.size ++ "\n" ++
    "productions: " ++ toString table.grammar.productions.size ++ "\n" ++
    "built: " ++ toString stats.created ++ " created, " ++ toString stats.merged ++ " merged, " ++
    toString stats.requeued ++ " requeued, " ++ toString stats.pruned ++ " pruned, " ++
    toString stats.lalrMerged ++ " merged by LALR\n" ++
    "conflicts: " ++ toString table.conflicts.length ++ " (" ++
    toString table.unresolved.length ++ " by default policy)\n"

-- The items of a state and its edges.
def SyntaxTable.describeState (table : SyntaxTable) (id : Nat) : String :=
  "\nstate " ++ toString id ++ "\n" ++ (table.graph.state id).display table.grammar.toRules ++
    String.join ((table.graph.edgesFrom id).map fun (symbol, target) =>
      "  " ++ (table.grammar.symbol symbol).display ++ " -> " ++ toString target ++ "\n")

def SyntaxTable.report (table : SyntaxTable) (withStates : Bool) : String :=
  table.summary ++
    (if withStates then String.join ((List.range table.graph.size).map table.describeState) else "")

end IncrementalLR
