import IncrementalLR.Template.Basic
import IncrementalLR.Symbol
import IncrementalLR.SymbolSet

namespace IncrementalLR

inductive Assoc where
  | left
  | right
  | nonassoc
deriving DecidableEq, Repr, Inhabited

-- Higher levels bind tighter.
structure Precedence where
  level : Nat
  assoc : Assoc
deriving DecidableEq, Repr, Inhabited

-- Symbols and productions are given by their positions in the grammar.
-- Only the production of the start rule, which is the first one, has no left
-- side. A tag is a terminal whose precedence the production takes.
structure Production where
  left : Option Nat
  right : List Nat
  tag : Option Nat
  template : Option Template
deriving DecidableEq, Inhabited

-- The rules of a grammar over its vocabulary. The end of input and the empty
-- word are the first two symbols.
structure Rules where
  symbols : Array Symbol
  productions : Array Production
  start : Nat
  precedences : Array (Option Precedence)
deriving DecidableEq, Inhabited

def finishId : Nat := 0

def epsilonId : Nat := 1

def startProduction : Nat := 0

namespace Rules

variable (rules : Rules)

def symbol (id : Nat) : Symbol := rules.symbols.getD id .epsilon

def symbolId? (symbol : Symbol) : Option Nat := rules.symbols.finIdxOf? symbol |>.map (·.val)

def symbolIds : List Nat := List.range rules.symbols.size

-- Every symbol that can label a leaf.
def terminals : List Nat :=
  rules.symbolIds.filter fun id => (rules.symbol id).isTerminal && id != epsilonId

def nonterminals : List Nat := rules.symbolIds.filter fun id => (rules.symbol id).isNonterminal

def productionIds : List Nat := List.range rules.productions.size

def production (id : Nat) : Production := rules.productions.getD id default

-- All productions but that of the start rule.
def declared : List Production := rules.productions.toList.tail

-- The productions of a nonterminal in the order of their declaration.
def alternatives (id : Nat) : List Nat :=
  rules.productionIds.filter fun production => (rules.production production).left == some id

-- The alternatives of a symbol of the vocabulary that is a nonterminal.
def lookup? (symbol : Symbol) : Option (List Nat) :=
  match rules.symbolId? symbol with
  | some id => if symbol.isNonterminal then some (rules.alternatives id) else none
  | none => none

def precedenceOf (terminal : Nat) : Option Precedence := (rules.precedences[terminal]?).join

-- A tag decides alone. Without one, the last terminal that has a precedence
-- gives it to the production.
def productionPrecedence (id : Nat) : Option Precedence :=
  let production := rules.production id
  match production.tag with
  | some tag => rules.precedenceOf tag
  | none =>
      (production.right.reverse.filter fun symbol => (rules.symbol symbol).isTerminal).findSome?
        rules.precedenceOf

def leftName (id : Nat) : String :=
  match (rules.production id).left with
  | some left => (rules.symbol left).name
  | none => "<start>"

end Rules

end IncrementalLR
