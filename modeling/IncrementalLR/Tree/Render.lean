import IncrementalLR.Tree.Store

namespace IncrementalLR

-- How a tree is printed: the indentation of one level, and whether nonterminals
-- show their states and changed nodes a mark.
structure RenderStyle where
  indent : String
  states : Bool
  changed : Bool
deriving DecidableEq, Repr

instance : Inhabited RenderStyle := ⟨⟨"  ", true, false⟩⟩

namespace Store

variable (store : Store)

def renderLine (style : RenderStyle) (isRoot : Bool) (depth : Nat) (node : Node) : String :=
  String.join (List.replicate depth style.indent) ++ node.symbol.display ++
    (if node.symbol.isNonterminal && style.states && !isRoot then " [" ++ toString node.state ++ "]" else "") ++
    (match node.rule with | some rule => " " ++ rule | none => "") ++
    (if style.changed && node.changed then " *" else "") ++ "\n"

-- One node on a line. The document in a box stands below the children of its
-- terminal.
def renderBelow (style : RenderStyle) (root : Nat) : Nat → Nat → Nat → String
  | 0, _, _ => ""
  | fuel + 1, depth, id =>
      let node := store.node id
      let below := node.children ++ node.box.toList
      renderLine style (id == root) depth node ++
        String.join (below.map (renderBelow style root fuel (depth + 1)))

def render (style : RenderStyle) (root : Nat) : String :=
  store.renderBelow style root store.size 0 root

end Store

end IncrementalLR
