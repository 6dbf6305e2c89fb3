import IncrementalLR.Tree.Walk

namespace IncrementalLR

namespace Store

variable (store : Store)

-- The place of a node among the children of another.
def position? (parent child : Nat) : Option Nat := (store.node parent).children.idxOf? child

-- Puts the leaves of a new child on the thread, behind those up to the anchor.
def threadIn (anchor new : Nat) : Store :=
  match store.firstLeaf? new, store.lastLeaf? new with
  | some first, some last =>
      let before := store.leafUpTo? anchor
      let after := before.bind fun leaf => (store.node leaf).nextTerminal
      let store := store.revise first fun node => { node with prevTerminal := before }
      let store := store.revise last fun node => { node with nextTerminal := after }
      let store := store.reviseAll before fun node => { node with nextTerminal := some first }
      store.reviseAll after fun node => { node with prevTerminal := some last }
  | _, _ => store

-- Makes a node the right neighbour of a child. None if the anchor is no child
-- of the parent.
def insertAfter? (parent anchor new : Nat) : Option Store :=
  match store.position? parent anchor with
  | none => none
  | some place =>
      let right := (store.node anchor).right
      let store := store.revise parent fun node =>
        { node with children := node.children.insertIdx (place + 1) new }
      let store := store.revise new fun node =>
        { node with parent := some parent, left := some anchor, right := right }
      let store := store.setDeleted new false
      let store := store.revise anchor fun node => { node with right := some new }
      let store := store.reviseAll right fun node => { node with left := some new }
      some (store.threadIn anchor new)

-- Takes the leaves of a child off the thread.
def threadOut (child : Nat) : Store :=
  match store.firstLeaf? child, store.lastLeaf? child with
  | some first, some last =>
      let before := (store.node first).prevTerminal
      let after := (store.node last).nextTerminal
      let store := store.reviseAll before fun node => { node with nextTerminal := after }
      store.reviseAll after fun node => { node with prevTerminal := before }
  | _, _ => store

-- Detaches a child and flags it deleted. It keeps its own children and its
-- links, so that older versions can be looked at. None if it is no child of the
-- parent.
def removeChild? (parent child : Nat) : Option Store :=
  match store.position? parent child with
  | none => none
  | some place =>
      let store := store.revise parent fun node =>
        { node with children := node.children.eraseIdx place }
      let left := (store.node child).left
      let right := (store.node child).right
      let store := store.reviseAll left fun node => { node with right := right }
      let store := store.reviseAll right fun node => { node with left := left }
      some ((store.setDeleted child true).threadOut child)

-- A plain terminal is named after its text.
def renamed (symbol : Symbol) (text : String) : Symbol :=
  match symbol with
  | .terminal _ => .terminal text
  | other => other

def setToken (id : Nat) (rule : Option String) (text : String) : Store :=
  store.revise id fun node =>
    { node with symbol := renamed node.symbol text, rule := rule, text := text }

-- Embeds the document of a root in a terminal.
def setBox (terminal root : Nat) : Store :=
  (store.update terminal fun node => { node with box := some root }).update root fun node =>
    { node with host := some terminal }

def markChangedFrom (version : Nat) : Nat → Nat → Store → Store
  | 0, _, store => store
  | fuel + 1, id, store =>
      let node := store.node id
      if node.changed && node.version == version then store
      else
        let store := store.update id fun node => { node with changed := true, version := version }
        match node.above with
        | some above => markChangedFrom version fuel above store
        | none => store

-- Flags a node and all above it up to the first that is flagged for the version
-- already. From the root of an embedded document the walk goes on to its host.
def markChanged (id version : Nat) : Store := markChangedFrom version store.size id store

def markVersionFrom (version : Nat) : Nat → Nat → Store → Store
  | 0, _, store => store
  | fuel + 1, id, store =>
      let node := store.node id
      if node.version = version then store
      else
        let store := store.update id fun node => { node with version := version }
        match node.above with
        | some above => markVersionFrom version fuel above store
        | none => store

def markVersion (id version : Nat) : Store := markVersionFrom version store.size id store

def threadLeaves (before : Option Nat) : List Nat → Store → Store
  | [], store => store
  | leaf :: rest, store =>
      let store := store.revise leaf fun node =>
        { node with prevTerminal := before, nextTerminal := none }
      let store := store.reviseAll before fun node => { node with nextTerminal := some leaf }
      threadLeaves (some leaf) rest store

-- Threads the leaves of a subtree anew.
def relink (root : Nat) : Store := threadLeaves none (store.leaves root) store

end Store

end IncrementalLR
