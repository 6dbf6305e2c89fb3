import IncrementalLR.Ast.Value
import IncrementalLR.Symbol
import IncrementalLR.Tree.AttrLog

namespace IncrementalLR

-- What versions keep of a node: its content, its place in the tree and its
-- place on the thread of the terminals. Other nodes are given by their
-- positions in the store.
structure Attributes where
  symbol : Symbol
  rule : Option String
  text : String
  parent : Option Nat
  children : List Nat
  left : Option Nat
  right : Option Nat
  prevTerminal : Option Nat
  nextTerminal : Option Nat
deriving DecidableEq, Repr, Inhabited

structure History where
  attributes : AttrLog Attributes
  deleted : AttrLog Bool
deriving DecidableEq, Repr, Inhabited

namespace History

def truncateAfter (history : History) (version : Nat) : History :=
  ⟨history.attributes.truncateAfter version, history.deleted.truncateAfter version⟩

def record (history : History) (version : Nat) (attributes : Attributes) (deleted : Bool) :
    History :=
  ⟨history.attributes.record version attributes, history.deleted.record version deleted⟩

-- Whether the node was part of the tree at a version.
def existedAt (history : History) (version : Nat) : Bool := history.deleted.at? version == some false

end History

-- A node with the automaton state that it was last given. The root of an
-- embedded document knows the terminal that embeds it, which has the root as
-- its box. A pending node is recorded by the next commit.
structure Node extends Attributes where
  state : Nat
  changed : Bool
  deleted : Bool
  host : Option Nat
  box : Option Nat
  alternate : Option AstValue
  version : Nat
  pending : Bool
  history : History
deriving Inhabited

namespace Node

def new (symbol : Symbol) (rule : Option String) (text : String) : Node :=
  { (default : Node) with symbol := symbol, rule := rule, text := text, pending := true }

def isLeaf (node : Node) : Bool := !node.symbol.isNonterminal

-- The symbol under which tables know the node. The lexer rule of a token comes
-- before its own symbol.
def key (node : Node) : Symbol :=
  match node.rule with
  | some rule => .terminal rule
  | none => node.symbol.key

-- The node above, in the tree or across the border of an embedded document.
def above (node : Node) : Option Nat := node.parent.or node.host

def record (node : Node) (version : Nat) : Node :=
  { node with history := node.history.record version node.toAttributes node.deleted }

-- The node as it was at a version. One that did not exist then is deleted, and
-- keeps its attributes.
def load (node : Node) (version : Nat) : Node :=
  match node.history.deleted.at? version with
  | none => { node with deleted := true }
  | some deleted =>
      { node with
        toAttributes := (node.history.attributes.at? version).getD node.toAttributes
        deleted := deleted }

end Node

end IncrementalLR
