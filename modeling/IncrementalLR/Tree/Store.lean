import IncrementalLR.Tree.Node

namespace IncrementalLR

-- The nodes of one or more documents with one clock. The version is the last
-- one committed or restored, and the newest version bounds what can be redone.
structure Store where
  nodes : Array Node
  version : Nat
  newest : Nat
deriving Inhabited

namespace Store

def empty : Store := ⟨#[], 0, 0⟩

variable (store : Store)

def size : Nat := store.nodes.size

def node (id : Nat) : Node := store.nodes.getD id default

-- The version that the next commit records.
def nextVersion : Nat := store.version + 1

def update (id : Nat) (change : Node → Node) : Store :=
  { store with nodes := store.nodes.modify id change }

-- A change that the next commit records.
def revise (id : Nat) (change : Attributes → Attributes) : Store :=
  store.update id fun node =>
    { node with toAttributes := change node.toAttributes, pending := true }

def reviseAll (ids : Option Nat) (change : Attributes → Attributes) : Store :=
  match ids with
  | some id => store.revise id change
  | none => store

def setDeleted (id : Nat) (deleted : Bool) : Store :=
  store.update id fun node => { node with deleted := deleted, pending := true }

def setState (id state : Nat) : Store := store.update id fun node => { node with state := state }

def setChanged (id : Nat) (changed : Bool) : Store :=
  store.update id fun node => { node with changed := changed }

def setAlternate (id : Nat) (value : Option AstValue) : Store :=
  store.update id fun node => { node with alternate := value }

-- The new node is the last one of the store.
def push (node : Node) : Store := { store with nodes := store.nodes.push node }

def allocate (symbol : Symbol) (rule : Option String) (text : String) : Store × Nat :=
  (store.push (.new symbol rule text), store.size)

-- Links the nodes of a list to a parent and to one another, from left to right.
def linkChildren (parent : Nat) (left : Option Nat) : List Nat → Store → Store
  | [], store => store
  | child :: rest, store =>
      let store := store.revise child fun node =>
        { node with parent := some parent, left := left, right := none }
      let store := store.reviseAll left fun node => { node with right := some child }
      linkChildren parent (some child) rest store

-- Nodes that were children before keep their links.
def setChildren (parent : Nat) (children : List Nat) : Store :=
  (linkChildren parent none children store).revise parent fun node =>
    { node with children := children }

def allocateNode (symbol : Symbol) (children : List Nat) : Store × Nat :=
  let (store, id) := store.allocate symbol none ""
  (store.setChildren id children, id)

-- Drops the nodes from a position on.
def truncate (length : Nat) : Store := { store with nodes := store.nodes.take length }

end Store

end IncrementalLR
