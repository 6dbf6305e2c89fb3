namespace IncrementalLR

-- An abstract value: a node of the tree, a node with named fields, or a list
-- with the name of the symbol that built it. A field may have no value.
inductive AstValue where
  | node (id : Nat)
  | ast (name : String) (fields : List (String × Option AstValue))
  | list (name : String) (items : List AstValue)
deriving Inhabited

namespace AstValue

-- The first field of a name, if the value is a node with fields.
def field? (value : AstValue) (name : String) : Option AstValue :=
  match value with
  | ast _ fields => (fields.lookup name).join
  | _ => none

end AstValue

end IncrementalLR
