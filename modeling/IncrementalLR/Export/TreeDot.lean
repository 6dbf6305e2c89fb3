import IncrementalLR.Export.Dot
import IncrementalLR.Tree.Store

namespace IncrementalLR

namespace Store

variable (store : Store)

def dotName (id : Nat) : String := "n" ++ toString id

def dotLines (id : Nat) : List String :=
  let node := store.node id
  let shape := if node.isLeaf then "ellipse" else "box"
  let edges := node.children.map fun child => dotName id ++ " -> " ++ dotName child ++ ";"
  let boxes := node.box.toList.map fun root =>
    dotName id ++ " -> " ++ dotName root ++ " [style=dashed];"
  (dotName id ++ " [" ++ Dot.labelled "label" node.symbol.display ++ ", shape=" ++ shape ++ "];") ::
    edges ++ boxes

def dotBelow : Nat → Nat → List String
  | 0, _ => []
  | fuel + 1, id =>
      let node := store.node id
      store.dotLines id ++ (node.children ++ node.box.toList).flatMap (dotBelow fuel)

-- A tree as a directed graph, with dashed edges to embedded documents.
def dot (root : Nat) : String :=
  Dot.digraph "Tree" ("node [fontname=monospace];" :: store.dotBelow store.size root)

end Store

end IncrementalLR
