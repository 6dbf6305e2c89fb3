namespace IncrementalLR

-- How far a wildcard reaches: across line breaks, or up to the first one.
inductive Reach where
  | multiline
  | singleLine
deriving DecidableEq, Repr, Inhabited

-- Kind and name together make up the identity of a symbol. A magic terminal
-- stands for an embedded document, and an indentation terminal for a token of
-- the layout.
inductive Symbol where
  | terminal (name : String)
  | nonterminal (name : String)
  | epsilon
  | finish
  | magic (name : String)
  | indentation (name : String)
  | wildcard (reach : Reach)
deriving DecidableEq, Repr, Inhabited

namespace Symbol

def name : Symbol → String
  | terminal name | nonterminal name | magic name | indentation name => name
  | epsilon => "<eps>"
  | finish => "eos"
  | wildcard .multiline => "ANY"
  | wildcard .singleLine => "ANYNCR"

def isNonterminal : Symbol → Bool
  | nonterminal _ => true
  | _ => false

-- Whatever can label a leaf of a tree.
def isTerminal (symbol : Symbol) : Bool := !symbol.isNonterminal

def isWildcard : Symbol → Bool
  | wildcard _ => true
  | _ => false

-- Grammars declare the tokens of the layout as plain terminals.
def key : Symbol → Symbol
  | indentation name => terminal name
  | symbol => symbol

-- The symbol in the notation of grammars.
def display : Symbol → String
  | terminal name | indentation name => "\"" ++ name ++ "\""
  | magic name => "<" ++ name ++ ">"
  | finish => "$"
  | symbol => symbol.name

def kindRank : Symbol → Nat
  | terminal _ => 0
  | nonterminal _ => 1
  | epsilon => 2
  | finish => 3
  | magic _ => 4
  | indentation _ => 5
  | wildcard .multiline => 6
  | wildcard .singleLine => 7

-- Symbols are ordered by kind first and by name among those of one kind.
def precedes (left right : Symbol) : Bool :=
  left.kindRank < right.kindRank || (left.kindRank == right.kindRank && left.name < right.name)

-- The symbols of a list in order, each of them once.
def sorted (symbols : List Symbol) : List Symbol :=
  (symbols.mergeSort fun left right => !right.precedes left).eraseReps

end Symbol

end IncrementalLR
