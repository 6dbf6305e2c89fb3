namespace IncrementalLR

-- A child of the reduced node, or a field of the abstract node that the child
-- has.
structure Lookup where
  index : Nat
  attr : Option String
deriving DecidableEq, Repr, Inhabited

-- The value that a template describes. Fields and list elements hold at
-- least nothing and are sequences of their own, so that the four types are
-- plain trees.
mutual
inductive ValueExpr where
  | lookup (item : Lookup)
  | list (elements : Elements)
  | add (left right : ValueExpr)
inductive Elements where
  | nil
  | lookup (item : Lookup) (rest : Elements)
  | node (item : NodeExpr) (rest : Elements)
inductive NodeExpr where
  | mk (name : String) (fields : Fields)
inductive Fields where
  | nil
  | value (name : String) (expr : ValueExpr) (rest : Fields)
  | reference (name base field : String) (rest : Fields)
end

deriving instance DecidableEq for ValueExpr
deriving instance DecidableEq for NodeExpr

-- What is built when a production is reduced: an abstract node, a value, or one
-- node for each element of a list.
inductive Template where
  | node (expr : NodeExpr)
  | value (expr : ValueExpr)
  | foreach (item : Lookup) (expr : NodeExpr)
deriving DecidableEq

end IncrementalLR
