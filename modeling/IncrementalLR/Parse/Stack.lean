namespace IncrementalLR

-- What lies on the stack of a parser: a node that stands for a symbol, the nodes
-- that a wildcard took, or a node that was passed through.
inductive Frame where
  | symbol (node state : Nat)
  | span (nodes : List Nat) (state : Nat)
  | passed (node state : Nat)
deriving DecidableEq, Repr

namespace Frame

def state : Frame → Nat
  | symbol _ state | span _ state | passed _ state => state

def nodes : Frame → List Nat
  | symbol node _ | passed node _ => [node]
  | span nodes _ => nodes

-- Whether a frame is one of the symbols of a right side.
def counts : Frame → Bool
  | symbol _ _ | span _ _ => true
  | passed _ _ => false

end Frame

-- The top of the stack comes first. Below all frames the state is the first.
abbrev ParseStack := List Frame

namespace ParseStack

def state (stack : ParseStack) : Nat :=
  match stack with
  | frame :: _ => frame.state
  | [] => 0

def popInto (nodes : List Nat) : Nat → ParseStack → Option (List Nat × ParseStack)
  | 0, stack => some (nodes, stack)
  | _ + 1, [] => none
  | count + 1, frame :: rest =>
      popInto (frame.nodes ++ nodes) (if frame.counts then count else count + 1) rest

-- The nodes of so many symbols from the top, in their order, and the stack
-- below. Nodes that were passed through between them are taken along.
def popSymbols (count : Nat) (stack : ParseStack) : Option (List Nat × ParseStack) :=
  popInto [] count stack

-- All nodes from the bottom to the top.
def nodes (stack : ParseStack) : List Nat := stack.reverse.flatMap Frame.nodes

end ParseStack

end IncrementalLR
