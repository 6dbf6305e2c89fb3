import IncrementalLR.Grammar.Source.Padding
import IncrementalLR.Template.Basic
import IncrementalLR.Text.Quoted
import IncrementalLR.Tree.Walk

namespace IncrementalLR

namespace AstValue

-- Nodes of the tree are shown by their text, and fields without a value by a
-- low line.
mutual
def display (store : Store) : AstValue → String
  | node id => Text.quoted (store.text id)
  | ast name fields => name ++ "(" ++ displayFields store "" fields ++ ")"
  | list _ items => "[" ++ displayItems store "" items ++ "]"
def displayFields (store : Store) (separator : String) : List (String × Option AstValue) → String
  | [] => ""
  | (name, none) :: rest => separator ++ name ++ "=_" ++ displayFields store ", " rest
  | (name, some value) :: rest =>
      separator ++ name ++ "=" ++ display store value ++ displayFields store ", " rest
def displayItems (store : Store) (separator : String) : List AstValue → String
  | [] => ""
  | value :: rest => separator ++ display store value ++ displayItems store ", " rest
end

end AstValue

namespace Template

variable (store : Store) (id : Nat)

-- The children that a lookup counts, which are all but the whitespace.
def countedChildren : List Nat :=
  (store.node id).children.filter fun child => (store.node child).symbol != Source.padding

-- A child's own abstract value comes before the child.
def evalLookup (item : Lookup) : Option AstValue := do
  let child ← (countedChildren store id)[item.index]?
  let value := (store.node child).alternate.getD (.node child)
  match item.attr with
  | none => some value
  | some attr => value.field? attr

def listOf (items : List AstValue) : AstValue := .list (store.node id).symbol.name items

-- A list built from nothing has a name of its own.
def emptyList : AstValue := .list "[ ]" []

def concatenate? : AstValue → AstValue → Option AstValue
  | .list name items, .list _ others => some (.list name (items ++ others))
  | _, _ => none

-- Elements without a value are left out of lists. A reference is left out of a
-- node unless the current element has the field.
mutual
def evalValue : ValueExpr → Option AstValue
  | .lookup item => evalLookup store id item
  | .list .nil => some emptyList
  | .list elements => some (listOf store id (evalElements elements))
  | .add first second => do
      concatenate? (← evalValue first) (← evalValue second)
def evalElements : Elements → List AstValue
  | .nil => []
  | .lookup item rest => (evalLookup store id item).toList ++ evalElements rest
  | .node item rest => evalNode none item :: evalElements rest
def evalNode (element : Option AstValue) : NodeExpr → AstValue
  | .mk name fields => .ast name (evalFields element fields)
def evalFields (element : Option AstValue) : Fields → List (String × Option AstValue)
  | .nil => []
  | .value name expr rest => (name, evalValue expr) :: evalFields element rest
  | .reference name _ field rest =>
      match element.bind (·.field? field) with
      | some found => (name, some found) :: evalFields element rest
      | none => evalFields element rest
end

-- The abstract value of a node that was reduced with this template.
def eval : Template → Option AstValue
  | .node expr => some (evalNode store id none expr)
  | .value expr => evalValue store id expr
  | .foreach item expr =>
      match evalLookup store id item with
      | some (.list _ items) =>
          some (listOf store id (items.map fun element => evalNode store id (some element) expr))
      | _ => none

end Template

end IncrementalLR
