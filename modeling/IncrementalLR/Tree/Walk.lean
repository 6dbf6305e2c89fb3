import IncrementalLR.Tree.Store

namespace IncrementalLR

-- Walks over a tree. A path meets each node at most once, so that the number of
-- nodes bounds the length of each walk.
namespace Store

variable (store : Store)

def followingFrom : Nat → Nat → Option Nat
  | 0, _ => none
  | fuel + 1, id =>
      match (store.node id).right with
      | some right => some right
      | none => (store.node id).parent.bind (followingFrom fuel)

-- The node to the right of a node, or of the closest node above that has one.
def following? (id : Nat) : Option Nat := store.followingFrom store.size id

def precedingFrom : Nat → Nat → Option Nat
  | 0, _ => none
  | fuel + 1, id =>
      match (store.node id).left with
      | some left => some left
      | none => (store.node id).parent.bind (precedingFrom fuel)

def preceding? (id : Nat) : Option Nat := store.precedingFrom store.size id

def firstLeafBelow : Nat → Nat → Option Nat
  | 0, _ => none
  | fuel + 1, id =>
      if (store.node id).isLeaf then some id
      else (store.node id).children.findSome? (firstLeafBelow fuel)

-- The first leaf of a subtree.
def firstLeaf? (id : Nat) : Option Nat := store.firstLeafBelow store.size id

def lastLeafBelow : Nat → Nat → Option Nat
  | 0, _ => none
  | fuel + 1, id =>
      if (store.node id).isLeaf then some id
      else (store.node id).children.reverse.findSome? (lastLeafBelow fuel)

-- The last leaf of a subtree.
def lastLeaf? (id : Nat) : Option Nat := store.lastLeafBelow store.size id

def leafUpToFrom : Nat → Nat → Option Nat
  | 0, _ => none
  | fuel + 1, id =>
      match store.lastLeaf? id with
      | some leaf => some leaf
      | none => (store.preceding? id).bind (leafUpToFrom fuel)

-- The last leaf of a subtree, or else of what comes before it.
def leafUpTo? (id : Nat) : Option Nat := store.leafUpToFrom store.size id

def terminalFrom : Nat → Nat → Option Nat
  | 0, _ => none
  | fuel + 1, id =>
      if (store.node id).isLeaf then some id
      else
        match (store.node id).children with
        | child :: _ => terminalFrom fuel child
        | [] => (store.following? id).bind (terminalFrom fuel)

-- The first leaf of a subtree, or else of what comes after it.
def firstTerminal? (id : Nat) : Option Nat := store.terminalFrom store.size id

def threadFrom : Nat → Nat → List Nat
  | 0, _ => []
  | fuel + 1, id =>
      match (store.node id).nextTerminal with
      | some next => id :: threadFrom fuel next
      | none => [id]

-- The thread of the terminals from a node on.
def thread (id : Nat) : List Nat := store.threadFrom store.size id

def leavesBelow : Nat → Nat → List Nat
  | 0, _ => []
  | fuel + 1, id =>
      if (store.node id).isLeaf then [id] else (store.node id).children.flatMap (leavesBelow fuel)

-- The leaves of a subtree in order, without those of embedded documents.
def leaves (id : Nat) : List Nat := store.leavesBelow store.size id

def textBelow : Nat → Nat → String
  | 0, _ => ""
  | fuel + 1, id =>
      let node := store.node id
      if node.isLeaf then
        match node.box with
        | some root => textBelow fuel root
        | none => node.text
      else String.join (node.children.map (textBelow fuel))

-- The text of the leaves of a subtree. A terminal with a box has the text of
-- the document in it.
def text (id : Nat) : String := store.textBelow store.size id

end Store

-- A copy of a subtree.
inductive Snapshot where
  | node (symbol : Symbol) (text : String) (children : List Snapshot)
deriving Inhabited

namespace Store

variable (store : Store)

def snapshotBelow : Nat → Nat → Snapshot
  | 0, _ => default
  | fuel + 1, id =>
      let node := store.node id
      .node node.symbol node.text (node.children.map (snapshotBelow fuel))

def snapshot (id : Nat) : Snapshot := store.snapshotBelow store.size id

end Store

end IncrementalLR
