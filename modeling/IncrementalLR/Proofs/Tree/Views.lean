import IncrementalLR.Proofs.Arrays
import IncrementalLR.Tree.Version
import IncrementalLR.Tree.Walk

namespace IncrementalLR

-- The content of a node, with its flag.
structure Label where
  symbol : Symbol
  rule : Option String
  text : String
  changed : Bool
deriving DecidableEq

-- The label of what has been parsed.
def Label.parsed (label : Label) : Label := { label with changed := false }

-- What trees are made of. The state of a node, its place on the thread and its
-- past are left out.
structure View where
  label : Label
  children : List Nat
  parent : Option Nat
  left : Option Nat
  right : Option Nat
  host : Option Nat
deriving DecidableEq

-- All of a view but the flag.
def View.parsed (view : View) : View := { view with label := view.label.parsed }

theorem View.links_of_parsed {view other : View} (h : view.parsed = other.parsed) :
    view.parent = other.parent ∧ view.right = other.right ∧ view.children = other.children ∧
      view.host = other.host :=
  ⟨show view.parsed.parent = _ by rw [h]; rfl, show view.parsed.right = _ by rw [h]; rfl,
    show view.parsed.children = _ by rw [h]; rfl, show view.parsed.host = _ by rw [h]; rfl⟩

namespace Node

variable (node : Node)

def label : Label := ⟨node.symbol, node.rule, node.text, node.changed⟩

def view : View := ⟨node.label, node.children, node.parent, node.left, node.right, node.host⟩

end Node

namespace Store

def view (store : Store) (id : Nat) : View := (store.node id).view

variable {store : Store} {id other : Nat}

theorem node_of_size_le (h : store.size ≤ id) : store.node id = default := by
  simp [node, show store.nodes.size ≤ id from h]

@[simp] theorem size_update (change : Node → Node) : (store.update id change).size = store.size := by
  simp [size, update]

theorem node_update (change : Node → Node) :
    (store.update id change).node other =
      if other = id ∧ id < store.size then change (store.node other) else store.node other :=
  getD_modify change

theorem node_update_ne (change : Node → Node) (hne : other ≠ id) :
    (store.update id change).node other = store.node other := by
  rw [node_update, if_neg fun h => hne h.1]

theorem node_update_self (change : Node → Node) (hlt : id < store.size) :
    (store.update id change).node id = change (store.node id) := by
  rw [node_update, if_pos ⟨rfl, hlt⟩]

theorem view_update_ne (change : Node → Node) (hne : other ≠ id) :
    (store.update id change).view other = store.view other := by
  rw [view, node_update_ne change hne, view]

-- A change of what views leave out.
theorem view_update_of_view {change : Node → Node} (hc : ∀ node, (change node).view = node.view) :
    (store.update id change).view other = store.view other := by
  rw [view, node_update]
  split
  · exact hc _
  · rfl

@[simp] theorem size_revise (change : Attributes → Attributes) :
    (store.revise id change).size = store.size := size_update _

@[simp] theorem size_reviseAll (ids : Option Nat) (change : Attributes → Attributes) :
    (store.reviseAll ids change).size = store.size := by
  cases ids with
  | none => rfl
  | some id => exact size_revise change

@[simp] theorem size_setState (state : Nat) : (store.setState id state).size = store.size :=
  size_update _

@[simp] theorem size_setChanged (changed : Bool) : (store.setChanged id changed).size = store.size :=
  size_update _

@[simp] theorem size_setAlternate (value : Option AstValue) :
    (store.setAlternate id value).size = store.size := size_update _

@[simp] theorem view_setState (state : Nat) : (store.setState id state).view other = store.view other :=
  view_update_of_view fun _ => rfl

@[simp] theorem view_setAlternate (value : Option AstValue) :
    (store.setAlternate id value).view other = store.view other := view_update_of_view fun _ => rfl

theorem view_setChanged (changed : Bool) :
    (store.setChanged id changed).view other =
      if other = id ∧ id < store.size then
        { store.view other with label := { (store.view other).label with changed := changed } }
      else store.view other := by
  rw [view, setChanged, node_update]
  split
  · rfl
  · rfl

theorem view_setChanged_ne (changed : Bool) (hne : other ≠ id) :
    (store.setChanged id changed).view other = store.view other := view_update_ne _ hne

theorem view_revise_of_view {change : Attributes → Attributes}
    (hc : ∀ node : Node, ({ node with toAttributes := change node.toAttributes, pending := true } : Node).view =
      node.view) : (store.revise id change).view other = store.view other :=
  view_update_of_view hc

@[simp] theorem view_revise_prev (before : Option Nat) :
    (store.revise id fun node => { node with prevTerminal := before }).view other = store.view other :=
  view_revise_of_view fun _ => rfl

@[simp] theorem view_revise_next (after : Option Nat) :
    (store.revise id fun node => { node with nextTerminal := after }).view other = store.view other :=
  view_revise_of_view fun _ => rfl

@[simp] theorem view_reviseAll_prev (ids before : Option Nat) :
    (store.reviseAll ids fun node => { node with prevTerminal := before }).view other = store.view other := by
  cases ids with
  | none => rfl
  | some id => exact view_revise_prev before

@[simp] theorem view_reviseAll_next (ids after : Option Nat) :
    (store.reviseAll ids fun node => { node with nextTerminal := after }).view other = store.view other := by
  cases ids with
  | none => rfl
  | some id => exact view_revise_next after

@[simp] theorem size_push (node : Node) : (store.push node).size = store.size + 1 := by
  simp [size, push]

theorem node_push (node : Node) :
    (store.push node).node id = if id = store.size then node else store.node id := getD_push

theorem view_push (node : Node) :
    (store.push node).view id = if id = store.size then node.view else store.view id := by
  rw [view, node_push]
  split
  · rfl
  · rfl

theorem view_push_lt (node : Node) (hlt : id < store.size) :
    (store.push node).view id = store.view id := by
  rw [view_push, if_neg (Nat.ne_of_lt hlt)]

theorem view_push_self (node : Node) : (store.push node).view store.size = node.view := by
  rw [view_push, if_pos rfl]

theorem view_map {change : Node → Node} (h : ∀ node : Node, (change node).view = node.view) :
    Store.view { store with nodes := store.nodes.map change } id = store.view id := by
  rw [view, view, node, node, Array.getD_eq_getD_getElem?, Array.getD_eq_getD_getElem?, Array.getElem?_map]
  cases store.nodes[id]? with
  | none => rfl
  | some node => exact h node

theorem view_commit : store.commit.view id = store.view id := by
  have hforget : ∀ {store : Store} {version : Nat}, (store.forgetAfter version).view id = store.view id :=
    view_map fun _ => rfl
  have hrecord : ∀ {store : Store} {version : Nat}, (store.recordPending version).view id = store.view id := by
    intro store version
    refine view_map fun node => ?_
    split <;> rfl
  unfold commit
  dsimp only
  split
  · exact hrecord.trans hforget
  · exact hrecord

@[simp] theorem size_commit : store.commit.size = store.size := by
  unfold commit
  split <;> simp [recordPending, forgetAfter, size]

end Store

end IncrementalLR
