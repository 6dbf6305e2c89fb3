import IncrementalLR.Tree.Store

namespace IncrementalLR

namespace Store

variable (store : Store)

-- A node that was recorded in this way stays pending, and the next commit
-- records it again.
def save (id version : Nat) : Store := store.update id fun node => node.record version

def load (id version : Nat) : Store := store.update id fun node => node.load version

def forgetAfter (version : Nat) : Store :=
  { store with
    nodes := store.nodes.map fun node =>
      { node with history := node.history.truncateAfter version } }

def recordPending (version : Nat) : Store :=
  { store with
    nodes := store.nodes.map fun node =>
      if node.pending then { node.record version with pending := false } else node }

-- Records all pending nodes as a new version. A commit on top of a restored
-- version first forgets the versions after it.
def commit : Store :=
  let store := if store.version < store.newest then store.forgetAfter store.version else store
  let version := store.nextVersion
  { store.recordPending version with version := version, newest := version }

-- Every node as it was at a version, if that was ever committed. Changes that
-- were not committed are lost.
def restore? (version : Nat) : Option Store :=
  if store.newest < version then none
  else
    some { store with
      nodes := store.nodes.map fun node => { node.load version with pending := false }
      version := version }

end Store

end IncrementalLR
