import IncrementalLR.Automaton.Table

namespace IncrementalLR

namespace Dot

-- In labels a line break is one that leaves the line to its left justified.
def escape (text : String) : String :=
  String.ofList (text.toList.flatMap fun c =>
    if c = '"' then ['\\', '"']
    else if c = '\\' then ['\\', '\\']
    else if c = '\n' then ['\\', 'l']
    else [c])

def labelled (name label : String) : String := name ++ "=\"" ++ escape label ++ "\""

def digraph (name : String) (lines : List String) : String :=
  "digraph " ++ name ++ " \x7b\n" ++ String.join (lines.map fun line => "  " ++ line ++ "\n") ++
    "\x7d\n"

end Dot

namespace SyntaxTable

variable (table : SyntaxTable)

-- States with conflicts have a double border.
def dotState (id : Nat) : String :=
  let items := Dot.escape ((table.graph.state id).display table.grammar.toRules)
  let borders := if table.conflicts.any (·.state == id) then "2" else "1"
  "s" ++ toString id ++ " [label=\"" ++ toString id ++ "\\l" ++ items ++ "\", peripheries=" ++
    borders ++ "];"

def dotEdges (id : Nat) : List String :=
  (table.graph.edgesFrom id).map fun (symbol, target) =>
    "s" ++ toString id ++ " -> s" ++ toString target ++ " [" ++
      Dot.labelled "label" (table.grammar.symbol symbol).display ++ "];"

-- The automaton as a directed graph, with the items of each state in its box.
def dot : String :=
  let states := List.range table.graph.size
  Dot.digraph "Automaton"
    (["rankdir=LR;", "node [shape=box, fontname=monospace];"] ++
      states.map table.dotState ++ states.flatMap table.dotEdges)

end SyntaxTable

end IncrementalLR
