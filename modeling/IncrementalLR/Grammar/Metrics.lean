import IncrementalLR.Grammar.Build

namespace IncrementalLR

-- The size and shape of a grammar.
structure GrammarMetrics where
  productions : Nat
  nonterminals : Nat
  terminals : Nat
  nullable : Nat
  leftRecursive : Nat
deriving DecidableEq, Repr

-- Whether an alternative of a nonterminal begins with the nonterminal.
def Rules.isLeftRecursive (rules : Rules) (id : Nat) : Bool :=
  (rules.alternatives id).any fun production => (rules.production production).right.head? == some id

def Grammar.metrics (grammar : Grammar) : GrammarMetrics := {
  productions := grammar.productions.size - 1
  nonterminals := grammar.nonterminals.length
  terminals := grammar.terminals.length
  nullable := grammar.nonterminals.countP grammar.nullable
  leftRecursive := grammar.nonterminals.countP grammar.isLeftRecursive }

end IncrementalLR
