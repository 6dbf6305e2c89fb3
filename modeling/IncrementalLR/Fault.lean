import IncrementalLR.Symbol

namespace IncrementalLR

-- Disagreements between a table, a tree and an edit that are not a matter of the
-- input.
inductive Fault where
  | missingGoto (state : Nat) (symbol : Symbol)
  | stackUnderflow (production : String)
  | detachedNode (node : Nat)
  | malformedRoot (node : Nat)
  | noProgress (steps : Nat)
deriving DecidableEq, Repr, Inhabited

namespace Fault

def displayNode (node : Nat) : String := "NodeId(" ++ toString node ++ ")"

def message : Fault → String
  | missingGoto state symbol =>
      "no goto for `" ++ symbol.display ++ "` in state " ++ toString state ++ " after reduce"
  | stackUnderflow production => "stack underflow reducing `" ++ production ++ "`"
  | detachedNode node =>
      "node " ++ displayNode node ++ " has no parent while looking for the next lookahead"
  | malformedRoot node => "document root " ++ displayNode node ++ " has no end-of-stream child"
  | noProgress steps => "parse did not finish within " ++ toString steps ++ " steps"

end Fault

end IncrementalLR
