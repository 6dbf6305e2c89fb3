import IncrementalLR.Automaton.Graph

namespace IncrementalLR

-- What a parser does on a symbol: it shifts a terminal, reduces by a
-- production, goes on after a reduction, or accepts.
inductive Action where
  | shift (state : Nat)
  | reduce (production : Nat)
  | goto (state : Nat)
  | accept
deriving DecidableEq, Repr, Inhabited

inductive ConflictKind where
  | shiftReduce
  | reduceReduce
  | acceptReduce
deriving DecidableEq, Repr

-- What a cell holds after a conflict. It is empty where a nonassociative
-- operator meets its own level.
inductive Resolution where
  | shift (state : Nat)
  | reduce (production : Nat)
  | accept
  | error
deriving DecidableEq, Repr

def Resolution.action? : Resolution → Option Action
  | shift state => some (.shift state)
  | reduce production => some (.reduce production)
  | accept => some .accept
  | error => none

-- Productions that compete for a cell with each other or with another action.
structure Conflict where
  state : Nat
  symbol : Nat
  kind : ConflictKind
  productions : List Nat
  resolution : Resolution
  byPrecedence : Bool
deriving DecidableEq, Repr

-- The actions of one state, in the order of the symbols.
abbrev Row := List (Nat × Action)

namespace Row

def set (symbol : Nat) (action : Action) : Row → Row
  | [] => [(symbol, action)]
  | first :: rest =>
      if symbol < first.1 then (symbol, action) :: first :: rest
      else if symbol = first.1 then (symbol, action) :: rest
      else first :: set symbol action rest

def erase (symbol : Nat) (row : Row) : Row := row.filter (·.1 != symbol)

def setTo (symbol : Nat) (action : Option Action) (row : Row) : Row :=
  match action with
  | some action => row.set symbol action
  | none => row.erase symbol

end Row

namespace Conflict

-- Between two precedences the level decides, and the associativity if the
-- levels are equal. Otherwise the shift wins.
def ofShiftReduce (rules : Rules) (state symbol production target : Nat) : Conflict :=
  let (resolution, byPrecedence) :=
    match rules.precedenceOf symbol, rules.productionPrecedence production with
    | some token, some rule =>
        if rule.level < token.level then (Resolution.shift target, true)
        else if token.level < rule.level then (.reduce production, true)
        else
          match token.assoc with
          | .left => (.reduce production, true)
          | .right => (.shift target, true)
          | .nonassoc => (.error, true)
    | _, _ => (.shift target, false)
  ⟨state, symbol, .shiftReduce, [production], resolution, byPrecedence⟩

-- Of two precedences the higher level wins. Otherwise the production that was
-- declared first wins.
def ofReduceReduce (rules : Rules) (state symbol existing incoming : Nat) : Conflict :=
  let earlier := min existing incoming
  let (winner, byPrecedence) :=
    match rules.productionPrecedence existing, rules.productionPrecedence incoming with
    | some left, some right =>
        if right.level < left.level then (existing, true)
        else if left.level < right.level then (incoming, true)
        else (earlier, false)
    | _, _ => (earlier, false)
  ⟨state, symbol, .reduceReduce, [existing, incoming], .reduce winner, byPrecedence⟩

def ofAcceptReduce (state symbol production : Nat) : Conflict :=
  ⟨state, symbol, .acceptReduce, [startProduction, production], .accept, false⟩

-- The conflict between what a cell holds and what it is to hold, if there is
-- one. An edge is the only one of its state and symbol.
def between? (rules : Rules) (state symbol : Nat) : Action → Action → Option Conflict
  | .reduce production, .shift target => some (ofShiftReduce rules state symbol production target)
  | .shift target, .reduce production => some (ofShiftReduce rules state symbol production target)
  | .reduce existing, .reduce incoming =>
      if existing = incoming then none
      else some (ofReduceReduce rules state symbol existing incoming)
  | .accept, .reduce production => some (ofAcceptReduce state symbol production)
  | .reduce production, .accept => some (ofAcceptReduce state symbol production)
  | _, _ => none

end Conflict

-- A row that is being filled and the conflicts met so far.
structure Filling where
  row : Row
  conflicts : List Conflict
deriving DecidableEq, Inhabited

def Filling.install (rules : Rules) (state : Nat) (filling : Filling) (cell : Nat × Action) : Filling :=
  match filling.row.lookup cell.1 with
  | none => { filling with row := filling.row.set cell.1 cell.2 }
  | some existing =>
      match Conflict.between? rules state cell.1 existing cell.2 with
      | none => filling
      | some conflict =>
          ⟨filling.row.setTo cell.1 conflict.resolution.action?, filling.conflicts ++ [conflict]⟩

-- The actions of a grammar's automaton by state, and the conflicts in the order
-- in which they were met.
structure SyntaxTable where
  grammar : Grammar
  graph : StateGraph
  rows : Array Row
  conflicts : List Conflict

namespace SyntaxTable

-- Without lookaheads a reduction is installed on every terminal but the
-- wildcards.
def reduceSymbols (grammar : Grammar) (mode : Mode) (lookahead : SymbolSet) : List Nat :=
  if mode = .lr0 then grammar.terminals.filter fun id => !(grammar.symbol id).isWildcard
  else lookahead.toList

def finalCells (grammar : Grammar) (mode : Mode) (entry : Entry) : List (Nat × Action) :=
  if !entry.1.isFinal grammar.toRules then []
  else if entry.1.production = startProduction then [(finishId, .accept)]
  else (reduceSymbols grammar mode entry.2).map (·, .reduce entry.1.production)

def edgeCell (grammar : Grammar) (edge : Nat × Nat) : Nat × Action :=
  (edge.1, if (grammar.symbol edge.1).isNonterminal then .goto edge.2 else .shift edge.2)

-- The candidates for the cells of a state: first those of the final items, then
-- those of the edges.
def candidates (grammar : Grammar) (graph : StateGraph) (state : Nat) : List (Nat × Action) :=
  (graph.state state).entries.flatMap (finalCells grammar graph.mode) ++
    (graph.edgesFrom state).map (edgeCell grammar)

def fill (grammar : Grammar) (graph : StateGraph) (state : Nat) : Filling :=
  (candidates grammar graph state).foldl (Filling.install grammar.toRules state) default

def build (graph : StateGraph) (grammar : Grammar) : SyntaxTable :=
  let fillings := (List.range graph.size).map (fill grammar graph)
  ⟨grammar, graph, (fillings.map (·.row)).toArray, fillings.flatMap (·.conflicts)⟩

def ofGrammar (grammar : Grammar) (mode : Mode) : SyntaxTable :=
  build (.build grammar mode) grammar

variable (table : SyntaxTable)

def row (state : Nat) : Row := table.rows.getD state []

def action? (state symbol : Nat) : Option Action := (table.row state).lookup symbol

def lookup? (state : Nat) (symbol : Symbol) : Option Action :=
  match table.grammar.symbolId? symbol.key with
  | some id => table.action? state id
  | none => none

def goto? (state nonterminal : Nat) : Option Nat :=
  match table.action? state nonterminal with
  | some (.goto target) => some target
  | _ => none

-- The terminals with an action in a state, in the order of the symbols.
def expected (state : Nat) : List Nat :=
  table.grammar.terminals.filter fun id => (table.action? state id).isSome

def expectedSymbols (state : Nat) : List Symbol := (table.expected state).map table.grammar.symbol

-- Conflicts that no declared precedence settles.
def unresolved : List Conflict := table.conflicts.filter (!·.byPrecedence)

end SyntaxTable

end IncrementalLR
