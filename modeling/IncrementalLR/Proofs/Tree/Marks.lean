import IncrementalLR.Ast.Eval
import IncrementalLR.Document
import IncrementalLR.Proofs.Tree.Views

namespace IncrementalLR

-- A node that the next commit records.
def Node.marked (node : Node) : Node := { node with pending := true }

namespace Store

-- A store with a mark on each node. What operations do does not depend on marks, so
-- that they do the same to stores that differ by nothing else.
def marked (store : Store) : Store := { store with nodes := store.nodes.map Node.marked }

variable {store : Store} {id : Nat}

@[simp] theorem size_marked : store.marked.size = store.size := by simp [marked, size]

@[simp] theorem version_marked : store.marked.version = store.version := rfl

@[simp] theorem nextVersion_marked : store.marked.nextVersion = store.nextVersion := rfl

theorem node_marked : store.marked.node id = if id < store.size then (store.node id).marked else store.node id := by
  rw [node, node, marked, Array.getD_eq_getD_getElem?, Array.getD_eq_getD_getElem?, Array.getElem?_map]
  split
  · rename_i h
    rw [Array.getElem?_eq_getElem h]
    rfl
  · rename_i h
    rw [Array.getElem?_eq_none (Nat.le_of_not_lt h)]
    rfl

section Reads

@[simp] theorem attributes_marked : (store.marked.node id).toAttributes = (store.node id).toAttributes := by
  rw [node_marked]
  split <;> rfl

@[simp] theorem state_marked : (store.marked.node id).state = (store.node id).state := by
  rw [node_marked]
  split <;> rfl

@[simp] theorem changed_marked : (store.marked.node id).changed = (store.node id).changed := by
  rw [node_marked]
  split <;> rfl

@[simp] theorem host_marked : (store.marked.node id).host = (store.node id).host := by
  rw [node_marked]
  split <;> rfl

@[simp] theorem box_marked : (store.marked.node id).box = (store.node id).box := by
  rw [node_marked]
  split <;> rfl

@[simp] theorem alternate_marked : (store.marked.node id).alternate = (store.node id).alternate := by
  rw [node_marked]
  split <;> rfl

@[simp] theorem version_node_marked : (store.marked.node id).version = (store.node id).version := by
  rw [node_marked]
  split <;> rfl

@[simp] theorem isLeaf_marked : (store.marked.node id).isLeaf = (store.node id).isLeaf := by
  rw [Node.isLeaf, Node.isLeaf, attributes_marked]

@[simp] theorem key_marked : (store.marked.node id).key = (store.node id).key := by
  rw [Node.key, Node.key, attributes_marked]

@[simp] theorem above_marked : (store.marked.node id).above = (store.node id).above := by
  rw [Node.above, Node.above, attributes_marked, host_marked]

@[simp] theorem followingFrom_marked : store.marked.followingFrom = store.followingFrom := by
  funext fuel id
  induction fuel generalizing id with
  | zero => rfl
  | succ fuel ih => simp [followingFrom, funext ih]

@[simp] theorem following?_marked : store.marked.following? = store.following? := by
  funext id
  simp [following?]

@[simp] theorem precedingFrom_marked : store.marked.precedingFrom = store.precedingFrom := by
  funext fuel id
  induction fuel generalizing id with
  | zero => rfl
  | succ fuel ih => simp [precedingFrom, funext ih]

@[simp] theorem firstLeafBelow_marked : store.marked.firstLeafBelow = store.firstLeafBelow := by
  funext fuel id
  induction fuel generalizing id with
  | zero => rfl
  | succ fuel ih => simp [firstLeafBelow, funext ih]

@[simp] theorem lastLeafBelow_marked : store.marked.lastLeafBelow = store.lastLeafBelow := by
  funext fuel id
  induction fuel generalizing id with
  | zero => rfl
  | succ fuel ih => simp [lastLeafBelow, funext ih]

@[simp] theorem leafUpToFrom_marked : store.marked.leafUpToFrom = store.leafUpToFrom := by
  funext fuel id
  induction fuel generalizing id with
  | zero => rfl
  | succ fuel ih => simp [leafUpToFrom, lastLeaf?, preceding?, funext ih]

@[simp] theorem terminalFrom_marked : store.marked.terminalFrom = store.terminalFrom := by
  funext fuel id
  induction fuel generalizing id with
  | zero => rfl
  | succ fuel ih => simp [terminalFrom, funext ih]

@[simp] theorem threadFrom_marked : store.marked.threadFrom = store.threadFrom := by
  funext fuel id
  induction fuel generalizing id with
  | zero => rfl
  | succ fuel ih => simp [threadFrom, ih]

@[simp] theorem leavesBelow_marked : store.marked.leavesBelow = store.leavesBelow := by
  funext fuel id
  induction fuel generalizing id with
  | zero => rfl
  | succ fuel ih => simp [leavesBelow, funext ih]

@[simp] theorem textBelow_marked : store.marked.textBelow = store.textBelow := by
  funext fuel id
  induction fuel generalizing id with
  | zero => rfl
  | succ fuel ih => simp [textBelow, ih, funext ih]

end Reads

section Writes

theorem update_marked {change : Node → Node} (h : ∀ node : Node, change node.marked = (change node).marked) :
    store.marked.update id change = (store.update id change).marked := by
  unfold update marked
  congr 1
  apply Array.ext_getElem?
  intro i
  simp only [Array.getElem?_modify, Array.getElem?_map]
  split
  · cases store.nodes[i]? with
    | none => rfl
    | some node => exact congrArg some (h node)
  · rfl

@[simp] theorem revise_marked {change : Attributes → Attributes} :
    store.marked.revise id change = (store.revise id change).marked := update_marked fun _ => rfl

@[simp] theorem reviseAll_marked {ids : Option Nat} {change : Attributes → Attributes} :
    store.marked.reviseAll ids change = (store.reviseAll ids change).marked := by
  cases ids with
  | none => rfl
  | some id => exact revise_marked

@[simp] theorem setDeleted_marked {deleted : Bool} :
    store.marked.setDeleted id deleted = (store.setDeleted id deleted).marked := update_marked fun _ => rfl

@[simp] theorem setState_marked {state : Nat} : store.marked.setState id state = (store.setState id state).marked :=
  update_marked fun _ => rfl

@[simp] theorem setChanged_marked {changed : Bool} :
    store.marked.setChanged id changed = (store.setChanged id changed).marked := update_marked fun _ => rfl

@[simp] theorem setAlternate_marked {value : Option AstValue} :
    store.marked.setAlternate id value = (store.setAlternate id value).marked := update_marked fun _ => rfl

@[simp] theorem setBox_marked {root : Nat} : store.marked.setBox id root = (store.setBox id root).marked := by
  have hfirst := @update_marked store id (fun node => { node with box := some root }) fun _ => rfl
  rw [setBox, setBox, hfirst]
  exact update_marked fun _ => rfl

@[simp] theorem save_marked {version : Nat} : store.marked.save id version = (store.save id version).marked :=
  update_marked fun _ => rfl

@[simp] theorem push_marked {symbol : Symbol} {rule : Option String} {text : String} :
    store.marked.push (.new symbol rule text) = (store.push (.new symbol rule text)).marked := by
  simp [push, marked, Node.marked, Node.new]

@[simp] theorem truncate_marked {length : Nat} : store.marked.truncate length = (store.truncate length).marked := by
  simp only [truncate, marked, Array.take_eq_extract, Array.map_extract]

@[simp] theorem linkChildren_marked {parent : Nat} {left : Option Nat} {children : List Nat} :
    linkChildren parent left children store.marked = (linkChildren parent left children store).marked := by
  induction children generalizing left store with
  | nil => rfl
  | cons child rest ih => simp [linkChildren, ih]

@[simp] theorem setChildren_marked {children : List Nat} :
    store.marked.setChildren id children = (store.setChildren id children).marked := by
  simp [setChildren]

@[simp] theorem markChangedFrom_marked {version fuel : Nat} :
    markChangedFrom version fuel id store.marked = (markChangedFrom version fuel id store).marked := by
  induction fuel generalizing id store with
  | zero => rfl
  | succ fuel ih =>
      have hupdate : store.marked.update id (fun node => { node with changed := true, version := version }) =
          (store.update id fun node => { node with changed := true, version := version }).marked :=
        update_marked fun _ => rfl
      simp only [markChangedFrom, changed_marked, version_node_marked, above_marked, hupdate]
      split
      · rfl
      · split
        · exact ih
        · rfl

@[simp] theorem markChanged_marked {version : Nat} :
    store.marked.markChanged id version = (store.markChanged id version).marked := by
  simp [markChanged]

@[simp] theorem threadLeaves_marked {before : Option Nat} {leaves : List Nat} :
    threadLeaves before leaves store.marked = (threadLeaves before leaves store).marked := by
  induction leaves generalizing before store with
  | nil => rfl
  | cons leaf rest ih => simp [threadLeaves, ih]

@[simp] theorem relink_marked : store.marked.relink id = (store.relink id).marked := by
  simp [relink, leaves]

@[simp] theorem threadIn_marked {new : Nat} : store.marked.threadIn id new = (store.threadIn id new).marked := by
  simp only [threadIn, firstLeaf?, lastLeaf?, leafUpTo?, firstLeafBelow_marked, lastLeafBelow_marked,
    leafUpToFrom_marked, size_marked, attributes_marked, revise_marked, reviseAll_marked]
  split <;> rfl

@[simp] theorem threadOut_marked : store.marked.threadOut id = (store.threadOut id).marked := by
  simp only [threadOut, firstLeaf?, lastLeaf?, firstLeafBelow_marked, lastLeafBelow_marked, size_marked,
    attributes_marked, reviseAll_marked]
  split <;> rfl

@[simp] theorem insertAfter?_marked {anchor new : Nat} :
    store.marked.insertAfter? id anchor new = (store.insertAfter? id anchor new).map marked := by
  simp only [insertAfter?, position?, attributes_marked, revise_marked, setDeleted_marked, reviseAll_marked,
    threadIn_marked]
  split <;> rfl

@[simp] theorem removeChild?_marked {child : Nat} :
    store.marked.removeChild? id child = (store.removeChild? id child).map marked := by
  simp only [removeChild?, position?, attributes_marked, revise_marked, setDeleted_marked, reviseAll_marked,
    threadOut_marked]
  split <;> rfl

@[simp] theorem setToken_marked {rule : Option String} {text : String} :
    store.marked.setToken id rule text = (store.setToken id rule text).marked := revise_marked

end Writes

end Store

namespace Template

open Store

variable {store : Store} {id : Nat}

@[simp] theorem evalLookup_marked {item : Lookup} : evalLookup store.marked id item = evalLookup store id item := by
  simp [evalLookup, countedChildren]

@[simp] theorem listOf_marked {items : List AstValue} : listOf store.marked id items = listOf store id items := by
  simp [listOf]

mutual

theorem evalValue_marked (expr : ValueExpr) : evalValue store.marked id expr = evalValue store id expr :=
  match expr with
  | .lookup item => by simp [evalValue]
  | .list .nil => by simp [evalValue]
  | .list (.lookup item rest) => by simp [evalValue, evalElements_marked]
  | .list (.node item rest) => by simp [evalValue, evalElements_marked]
  | .add first second => by simp [evalValue, evalValue_marked first, evalValue_marked second]

theorem evalElements_marked (elements : Elements) :
    evalElements store.marked id elements = evalElements store id elements :=
  match elements with
  | .nil => rfl
  | .lookup item rest => by simp [evalElements, evalElements_marked rest]
  | .node item rest => by simp [evalElements, evalNode_marked none item, evalElements_marked rest]

theorem evalNode_marked (element : Option AstValue) (expr : NodeExpr) :
    evalNode store.marked id element expr = evalNode store id element expr :=
  match expr with
  | .mk name fields => by simp [evalNode, evalFields_marked element fields]

theorem evalFields_marked (element : Option AstValue) (fields : Fields) :
    evalFields store.marked id element fields = evalFields store id element fields :=
  match fields with
  | .nil => rfl
  | .value name expr rest => by simp [evalFields, evalValue_marked expr, evalFields_marked element rest]
  | .reference name base field rest => by simp [evalFields, evalFields_marked element rest]

end

@[simp] theorem eval_marked (template : Template) : template.eval store.marked id = template.eval store id := by
  cases template with
  | node expr => simp [eval, evalNode_marked]
  | value expr => simp [eval, evalValue_marked]
  | foreach item expr => simp [eval, evalNode_marked]

end Template

end IncrementalLR
