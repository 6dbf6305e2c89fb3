import IncrementalLR.Parse.Basic
import IncrementalLR.Proofs.Tree.Evolution
import IncrementalLR.Proofs.Tree.Linked

namespace IncrementalLR

namespace Node

-- A node but for the mark that the next commit records it.
def unmarked (node : Node) : Node := { node with pending := false }

-- A node but for what a new parent changes.
def unlinked (node : Node) : Node :=
  { node with parent := none, left := none, right := none, pending := false }

-- A node but for its place in the tree and for what a parse notes on it.
def idle (node : Node) : Node :=
  { node with
    parent := none, children := [], left := none, right := none, state := 0, changed := false, pending := false }

theorem idle_of_unlinked {node other : Node} (h : other.unlinked = node.unlinked) : other.idle = node.idle :=
  show other.unlinked.idle = node.unlinked.idle by rw [h]

theorem idle_of_unmarked {node other : Node} (h : other.unmarked = node.unmarked) : other.idle = node.idle :=
  show other.unmarked.idle = node.unmarked.idle by rw [h]

end Node

-- Whether the nodes below a number are the same but for their marks.
structure Store.Alike (size : Nat) (store other : Store) : Prop where
  version : other.version = store.version
  newest : other.newest = store.newest
  node : ∀ id, id < size → (other.node id).unmarked = (store.node id).unmarked

theorem Store.Alike.refl (size : Nat) (store : Store) : store.Alike size store := ⟨rfl, rfl, fun _ _ => rfl⟩

theorem Store.Alike.trans {size : Nat} {store middle other : Store} (hfirst : store.Alike size middle)
    (hsecond : middle.Alike size other) : store.Alike size other :=
  ⟨hsecond.version.trans hfirst.version, hsecond.newest.trans hfirst.newest,
    fun id h => (hsecond.node id h).trans (hfirst.node id h)⟩

namespace Change

def node : Change → Nat
  | parent node _ | left node _ | right node _ | changed node _ | state node _ => node

-- What undoing a change makes of its node.
def revert (change : Change) (node : Node) : Node :=
  match change with
  | parent _ before => { node with parent := before, pending := true }
  | left _ before => { node with left := before, pending := true }
  | right _ before => { node with right := before, pending := true }
  | changed _ before => { node with changed := before }
  | state _ before => { node with state := before }

def undoAll (changes : List Change) (store : Store) : Store :=
  changes.foldl (fun store change => change.undo store) store

variable {change : Change} {changes : List Change} {store other : Store} {size id : Nat}

theorem undo_eq : change.undo store = store.update change.node change.revert := by
  cases change <;> rfl

@[simp] theorem size_undo : (change.undo store).size = store.size := by
  rw [undo_eq, Store.size_update]

theorem versions_undo : (change.undo store).version = store.version ∧ (change.undo store).newest = store.newest := by
  rw [undo_eq]
  exact ⟨rfl, rfl⟩

theorem unmarked_revert {node other : Node} (h : other.unmarked = node.unmarked) :
    (change.revert other).unmarked = (change.revert node).unmarked := by
  have hrevert : ∀ node : Node, (change.revert node).unmarked = (change.revert node.unmarked).unmarked := by
    intro node
    cases change <;> rfl
  rw [hrevert, h, ← hrevert]

theorem alike_undo (h : store.Alike size other) (hstore : size ≤ store.size) (hother : size ≤ other.size) :
    (change.undo store).Alike size (change.undo other) := by
  refine ⟨?_, ?_, fun id hid => ?_⟩
  · rw [versions_undo.1, versions_undo.1, h.version]
  · rw [versions_undo.2, versions_undo.2, h.newest]
  · rw [undo_eq, undo_eq, Store.node_update, Store.node_update]
    by_cases he : id = change.node
    · rw [if_pos ⟨he, by omega⟩, if_pos ⟨he, by omega⟩]
      exact unmarked_revert (h.node id hid)
    · rw [if_neg fun hne => he hne.1, if_neg fun hne => he hne.1]
      exact h.node id hid

@[simp] theorem size_undoAll : (undoAll changes store).size = store.size := by
  induction changes generalizing store with
  | nil => rfl
  | cons change rest ih => exact ih.trans size_undo

theorem undoAll_append {fresh : List Change} : undoAll (fresh ++ changes) store = undoAll changes (undoAll fresh store) :=
  List.foldl_append

theorem alike_undoAll (h : store.Alike size other) (hstore : size ≤ store.size) (hother : size ≤ other.size) :
    (undoAll changes store).Alike size (undoAll changes other) := by
  induction changes generalizing store other with
  | nil => exact h
  | cons change rest ih => exact ih (alike_undo h hstore hother) (by simpa using hstore) (by simpa using hother)

theorem node_undoAll (h : ∀ change ∈ changes, change.node ≠ id) : (undoAll changes store).node id = store.node id := by
  induction changes generalizing store with
  | nil => rfl
  | cons change rest ih =>
      obtain ⟨hfirst, hrest⟩ := List.forall_mem_cons.mp h
      refine (ih hrest).trans ?_
      dsimp only
      rw [undo_eq, Store.node_update_ne _ (Ne.symm hfirst)]

-- Changes are no more than of what is left out of idle nodes.
theorem idle_undoAll : ((undoAll changes store).node id).idle = (store.node id).idle := by
  induction changes generalizing store with
  | nil => rfl
  | cons change rest ih =>
      refine ih.trans ?_
      dsimp only
      rw [undo_eq, Store.node_update]
      split
      · cases change <;> rfl
      · rfl

theorem pending_undoAll : ((undoAll changes store).node id).pending = (store.node id).pending ∨
    (∃ change ∈ changes, change.node = id) ∧ ((undoAll changes store).node id).pending = true := by
  induction changes generalizing store with
  | nil => exact Or.inl rfl
  | cons change rest ih =>
      have hundo : ((change.undo store).node id).pending = (store.node id).pending ∨
          change.node = id ∧ ((change.undo store).node id).pending = true := by
        rw [undo_eq, Store.node_update]
        split
        · rename_i h
          cases change with
          | parent | left | right => exact Or.inr ⟨h.1.symm, rfl⟩
          | changed | state => exact Or.inl rfl
        · exact Or.inl rfl
      rcases @ih (change.undo store) with h | ⟨⟨other, hmem, hother⟩, hpending⟩
      · rcases hundo with hfirst | ⟨hnode, hfirst⟩
        · exact Or.inl (h.trans hfirst)
        · exact Or.inr ⟨⟨change, List.mem_cons_self, hnode⟩, h.trans hfirst⟩
      · exact Or.inr ⟨⟨other, List.mem_cons_of_mem _ hmem, hother⟩, hpending⟩

theorem node_of_links {parent : Nat} (h : change ∈ links store parent) : change.node = parent := by
  simp only [links, List.mem_cons, List.not_mem_nil, or_false] at h
  rcases h with rfl | rfl | rfl <;> rfl

-- Undoing the changes of links gives them back, whatever they have become.
theorem undoAll_links {children : List Nat} (hsize : size ≤ other.size)
    (hversion : other.version = store.version ∧ other.newest = store.newest)
    (hlinks : ∀ id, id < size → (other.node id).unlinked = (store.node id).unlinked)
    (hothers : ∀ id, id < size → id ∉ children → (other.node id).unmarked = (store.node id).unmarked) :
    store.Alike size (undoAll (children.flatMap (links store)) other) := by
  induction children generalizing other with
  | nil => exact ⟨hversion.1, hversion.2, fun id hid => hothers id hid List.not_mem_nil⟩
  | cons child rest ih =>
      rw [List.flatMap_cons, undoAll_append]
      have hnode : ∀ id, id < size → (undoAll (links store child) other).node id =
          if id = child then
            { other.node id with
              parent := (store.node child).parent
              left := (store.node child).left
              right := (store.node child).right
              pending := true }
          else other.node id := by
        intro id hid
        split
        · rename_i h
          subst h
          have hlt := Nat.lt_of_lt_of_le hid hsize
          simp only [links, undoAll, List.foldl_cons, List.foldl_nil, undo_eq, node]
          rw [Store.node_update_self _ (by simpa using hlt), Store.node_update_self _ (by simpa using hlt),
            Store.node_update_self _ hlt]
          rfl
        · rename_i h
          refine node_undoAll fun change hchange he => h ?_
          exact he.symm.trans (node_of_links hchange)
      refine ih (by simpa using hsize) ?_ (fun id hid => ?_) fun id hid hrest => ?_
      · simp only [links, undoAll, List.foldl_cons, List.foldl_nil, versions_undo, hversion, and_self]
      · rw [hnode id hid]
        split
        · exact hlinks id hid
        · exact hlinks id hid
      · rw [hnode id hid]
        split
        · rename_i h
          subst h
          exact congrArg (fun node : Node =>
            { node with
              parent := (store.node id).parent
              left := (store.node id).left
              right := (store.node id).right }) (hlinks id hid)
        · rename_i h
          exact hothers id hid fun hmem => (List.mem_cons.mp hmem).elim h hrest

end Change

namespace Store

variable {store : Store} {parent id : Nat} {left : Option Nat} {children : List Nat}

-- Linking children leaves all else of them as it is.
theorem unlinked_linkChildren : ((linkChildren parent left children store).node id).unlinked =
    (store.node id).unlinked := by
  induction children generalizing left store with
  | nil => rfl
  | cons child rest ih =>
      rw [linkChildren, ih]
      have hrevise : ∀ {store : Store} {child : Nat} {change : Attributes → Attributes},
          (∀ node : Node, ({ node with toAttributes := change node.toAttributes, pending := true } : Node).unlinked =
            node.unlinked) → ((store.revise child change).node id).unlinked = (store.node id).unlinked := by
        intro store child change h
        rw [revise, node_update]
        split
        · exact h _
        · rfl
      cases left with
      | none => exact hrevise fun _ => rfl
      | some left => exact (hrevise fun _ => rfl).trans (hrevise fun _ => rfl)

theorem node_linkChildren (hid : id ∉ children) (hleft : left ≠ some id) :
    (linkChildren parent left children store).node id = store.node id := by
  induction children generalizing left store with
  | nil => rfl
  | cons child rest ih =>
      obtain ⟨hne, hrest⟩ := List.ne_and_not_mem_of_not_mem_cons hid
      rw [linkChildren, ih hrest (by simpa using Ne.symm hne)]
      cases left with
      | none => exact node_update_ne _ hne
      | some left => exact (node_update_ne _ fun he => hleft (congrArg some he.symm)).trans (node_update_ne _ hne)

theorem node_allocateNode {symbol : Symbol} (hlt : id < store.size) :
    ((store.allocateNode symbol children).1.node id).unlinked = (store.node id).unlinked ∧
      (id ∉ children → (store.allocateNode symbol children).1.node id = store.node id) := by
  have hne : id ≠ store.size := Nat.ne_of_lt hlt
  have hpush : (store.push (.new symbol none "")).node id = store.node id := by
    rw [node_push, if_neg hne]
  have hparent : (store.allocateNode symbol children).1.node id =
      (linkChildren store.size none children (store.push (.new symbol none ""))).node id :=
    node_update_ne _ hne
  rw [hparent]
  refine ⟨?_, fun hid => ?_⟩
  · rw [unlinked_linkChildren, hpush]
  · rw [node_linkChildren hid (Option.some_ne_none id).symm, hpush]

end Store

-- What is known of the run that a part of an attempt leads to.
def Progress.Keeps {α : Type} (ends : Run → Prop) (goes : α → Prop) : Progress α → Prop
  | .ok value => goes value
  | .error (run, _) => ends run

namespace Progress.Keeps

variable {α β : Type} {ends : Run → Prop} {goes : α → Prop} {other : β → Prop} {progress : Progress α}

theorem bind {rest : α → Progress β} (hp : progress.Keeps ends goes)
    (hrest : ∀ value, goes value → (rest value).Keeps ends other) : Progress.Keeps ends other (progress >>= rest) := by
  cases progress with
  | ok value => exact hrest value hp
  | error fault => exact hp

theorem mono {other : α → Prop} (hp : progress.Keeps ends goes) (h : ∀ value, goes value → other value) :
    progress.Keeps ends other := by
  cases progress with
  | ok value => exact h value hp
  | error fault => exact hp

theorem map {change : α → β} (hp : progress.Keeps ends goes) (hchange : ∀ value, goes value → other (change value)) :
    Progress.Keeps ends other (progress.map change) := by
  cases progress with
  | ok value => exact hchange value hp
  | error fault => exact hp

end Progress.Keeps

-- Whether an attempt knows the way back to the store that it started from. All that
-- it links is among certain nodes.
structure Traces (inside : Nat → Prop) (store : Store) (floor : Nat) (run : Run) : Prop where
  evolves : store.Evolves inside run.store
  floor_le : floor ≤ run.store.size
  stack : ∀ frame ∈ run.stack, ∀ node ∈ frame.nodes, inside node
  changes : ∀ change ∈ run.changes, inside change.node
  undone : store.Alike store.size (Change.undoAll run.changes run.store)

namespace Traces

variable {inside : Nat → Prop} {store : Store} {setting : Setting} {run after : Run} {id floor bound : Nat}

theorem extend (ht : Traces inside store floor run) (fresh : List Change) (hchanges : after.changes = fresh ++ run.changes)
    (he : run.store.Evolves inside after.store) (hinside : ∀ change ∈ fresh, inside change.node)
    (hstack : ∀ frame ∈ after.stack, ∀ node ∈ frame.nodes, inside node)
    (hundo : run.store.Alike store.size (Change.undoAll fresh after.store)) : Traces inside store floor after := by
  have hsize := ht.evolves.size_le
  refine ⟨ht.evolves.trans he, Nat.le_trans ht.floor_le he.size_le, hstack, ?_, ht.undone.trans ?_⟩
  · rw [hchanges]
    exact List.forall_mem_append.mpr ⟨hinside, ht.changes⟩
  · rw [hchanges, Change.undoAll_append]
    refine Change.alike_undoAll hundo hsize ?_
    rw [Change.size_undoAll]
    exact Nat.le_trans hsize he.size_le

theorem setState (ht : Traces inside store floor run) (hid : inside id) (state : Nat) :
    Traces inside store floor (run.setState id state) := by
  refine ht.extend [.state id (run.node id).state] rfl (.setState .refl) (List.forall_mem_singleton.mpr hid)
    ht.stack ⟨rfl, rfl, fun node hnode => congrArg Node.unmarked ?_⟩
  change ((run.store.setState id state).setState id (run.node id).state).node node = _
  have hlt := Nat.lt_of_lt_of_le hnode ht.evolves.size_le
  by_cases he : node = id
  · subst he
    rw [Store.setState, Store.node_update_self _ (by simpa using hlt), Store.setState, Store.node_update_self _ hlt]
    rfl
  · rw [Store.setState, Store.node_update_ne _ he, Store.setState, Store.node_update_ne _ he]

theorem clearChanged (ht : Traces inside store floor run) (hid : inside id) :
    Traces inside store floor (run.clearChanged id) := by
  unfold Run.clearChanged
  split
  · rename_i hchanged
    refine ht.extend [.changed id true] rfl (.setChanged .refl) (List.forall_mem_singleton.mpr hid) ht.stack
      ⟨rfl, rfl, fun node hnode => congrArg Node.unmarked ?_⟩
    change ((run.store.setChanged id false).setChanged id true).node node = _
    have hlt := Nat.lt_of_lt_of_le hnode ht.evolves.size_le
    by_cases he : node = id
    · subst he
      rw [Store.setChanged, Store.node_update_self _ (by simpa using hlt), Store.setChanged,
        Store.node_update_self _ hlt, ← hchanged]
      rfl
    · rw [Store.setChanged, Store.node_update_ne _ he, Store.setChanged, Store.node_update_ne _ he]
  · exact ht

-- Only the store, the stack and the changes matter.
theorem congr (ht : Traces inside store floor run) (hstore : after.store = run.store)
    (hstack : ∀ frame ∈ after.stack, ∀ node ∈ frame.nodes, inside node) (hchanges : after.changes = run.changes) :
    Traces inside store floor after := by
  refine ⟨hstore ▸ ht.evolves, hstore ▸ ht.floor_le, hstack, hchanges ▸ ht.changes, ?_⟩
  rw [hstore, hchanges]
  exact ht.undone

-- The floor may be raised up to where the store has come.
theorem raise {other : Nat} (ht : Traces inside store floor run) (h : other ≤ run.store.size) :
    Traces inside store other run := ⟨ht.evolves, h, ht.stack, ht.changes, ht.undone⟩

theorem count (ht : Traces inside store floor run) (change : Metrics → Metrics) : Traces inside store floor (run.count change) :=
  ht.congr rfl ht.stack rfl

theorem push (ht : Traces inside store floor run) {frame : Frame} (hframe : ∀ node ∈ frame.nodes, inside node) :
    Traces inside store floor { run with stack := frame :: run.stack } :=
  ht.congr rfl (List.forall_mem_cons.mpr ⟨hframe, ht.stack⟩) rfl

theorem pushSymbol (ht : Traces inside store floor run) (hid : inside id) (state : Nat) :
    Traces inside store floor (run.pushSymbol id state) :=
  (ht.setState hid state).push (List.forall_mem_singleton.mpr hid)

theorem pushPassed (ht : Traces inside store floor run) (hid : inside id) : Traces inside store floor (run.pushPassed id) :=
  (ht.setState hid run.stack.state).push (List.forall_mem_singleton.mpr hid)

theorem popInto {stack below : ParseStack} {count : Nat} {taken nodes : List Nat}
    (hstack : ∀ frame ∈ stack, ∀ node ∈ frame.nodes, inside node) (htaken : ∀ node ∈ taken, inside node)
    (hp : ParseStack.popInto taken count stack = some (nodes, below)) :
    (∀ node ∈ nodes, inside node) ∧ ∀ frame ∈ below, ∀ node ∈ frame.nodes, inside node := by
  induction stack generalizing taken count with
  | nil =>
      cases count with
      | zero =>
          obtain ⟨rfl, rfl⟩ := Prod.mk.inj (Option.some_inj.mp hp)
          exact ⟨htaken, hstack⟩
      | succ count => cases hp
  | cons frame rest ih =>
      cases count with
      | zero =>
          obtain ⟨rfl, rfl⟩ := Prod.mk.inj (Option.some_inj.mp hp)
          exact ⟨htaken, hstack⟩
      | succ count =>
          obtain ⟨hframe, hrest⟩ := List.forall_mem_cons.mp hstack
          exact ih hrest (List.forall_mem_append.mpr ⟨hframe, htaken⟩) hp

section

variable (hc : store.Closed inside) (hfresh : ∀ id, store.size ≤ id → id < bound → inside id)

include hc

theorem next (ht : Traces inside store floor run) (hid : inside id) :
    (setting.next run id).Keeps (Traces inside store floor) inside := by
  unfold Setting.next
  split
  · rename_i next hnext
    exact (ht.evolves.closed hc).following? hid hnext
  · exact ht

theorem breakDownLeft (ht : Traces inside store floor run) (hid : inside id) :
    (setting.breakDownLeft run id).Keeps (Traces inside store floor)
      fun (after, next) => Traces inside store floor after ∧ inside next := by
  unfold Setting.breakDownLeft
  dsimp only
  have hcount := ht.count fun counts => { counts with leftBreakdowns := counts.leftBreakdowns + 1 }
  generalize run.count (fun counts => { counts with leftBreakdowns := counts.leftBreakdowns + 1 }) = run at hcount
  split
  · rename_i child rest hchildren
    exact ⟨hcount, (hcount.evolves.closed hc id hid).children child (hchildren ▸ List.mem_cons_self)⟩
  · exact (hcount.next hc hid).map fun next hnext => ⟨hcount, hnext⟩

include hfresh in
omit hc in
theorem reduce (ht : Traces inside store floor run) (production : Nat) :
    (setting.reduce run production).Keeps (Traces inside store floor)
      fun after => after.store.size ≤ bound → Traces inside store floor after := by
  unfold Setting.reduce
  dsimp only
  split
  · rename_i children below left hpop hleft
    obtain ⟨hchildren, hbelow⟩ := @popInto inside run.stack _ _ [] _ ht.stack nofun hpop
    split
    · exact ht
    · rename_i next hgoto
      refine fun hbound => ?_
      have hnew : inside run.store.size := by
        refine hfresh _ ht.evolves.size_le (Nat.lt_of_lt_of_le (Nat.lt_succ_self _) (Nat.le_trans (Nat.le_of_eq ?_) hbound))
        dsimp only [Run.count]
        split <;> simp
      have hevolves : run.store.Evolves inside (run.store.allocateNode (setting.table.grammar.symbol left) children).1 :=
        .allocateNode .refl hnew hchildren
      have hnode := fun id (h : id < run.store.size) =>
        @Store.node_allocateNode run.store id children (setting.table.grammar.symbol left) h
      rw [Store.allocateNode_snd]
      generalize (run.store.allocateNode (setting.table.grammar.symbol left) children).1 = built at hevolves hnode
      -- the state and the value are those of the new node
      suffices h : ∀ last : Store, built.Evolves inside last →
          (∀ id, id < run.store.size → last.node id = built.node id) →
          Traces inside store floor { run with
            store := last
            stack := .symbol run.store.size next :: below
            changes := children.reverse.flatMap (Change.links run.store) ++ run.changes } by
        have hstate : ∀ id, id < run.store.size → (built.setState run.store.size next).node id = built.node id :=
          fun id h => Store.node_update_ne _ (Nat.ne_of_lt h)
        split
        · refine (h _ (.setAlternate (.setState .refl)) fun id hid => ?_).count _
          exact (Store.node_update_ne _ (Nat.ne_of_lt hid)).trans (hstate id hid)
        · exact (h _ (.setState .refl) hstate).count _
      intro last hlast hsame
      have hsize := ht.evolves.size_le
      have hall := hevolves.trans hlast
      refine ht.extend (children.reverse.flatMap (Change.links run.store)) rfl hall ?_ ?_ ?_
      · intro change h
        obtain ⟨child, hchild, h⟩ := List.mem_flatMap.mp h
        rw [Change.node_of_links h]
        exact hchildren child (List.mem_reverse.mp hchild)
      · exact List.forall_mem_cons.mpr ⟨List.forall_mem_singleton.mpr hnew, hbelow⟩
      · refine Change.undoAll_links (Nat.le_trans hsize hall.size_le) hall.versions (fun id hid => ?_)
          fun id hid hchild => ?_
        · rw [hsame id (by omega), (hnode id (by omega)).1]
        · rw [hsame id (by omega), (hnode id (by omega)).2 fun h => hchild (List.mem_reverse.mpr h)]
  · exact ht

omit hc in
theorem shiftAgain {shifted : Bool} (ht : Traces inside store floor run) (hid : inside id)
    (h : setting.shiftAgain run id = (after, shifted)) : Traces inside store floor after := by
  unfold Setting.shiftAgain at h
  split at h
  · obtain ⟨rfl, -⟩ := Prod.mk.inj h
    exact ht.pushSymbol hid _
  · obtain ⟨rfl, -⟩ := Prod.mk.inj h
    exact ht.pushSymbol hid _
  · split at h
    · obtain ⟨rfl, -⟩ := Prod.mk.inj h
      exact ht.pushPassed hid
    · obtain ⟨rfl, -⟩ := Prod.mk.inj h
      exact ht

omit hc in
theorem shiftAllAgain {ids : List Nat} {shifted : Bool} (ht : Traces inside store floor run)
    (hids : ∀ id ∈ ids, inside id) (h : setting.shiftAllAgain run ids = (after, shifted)) :
    Traces inside store floor after := by
  induction ids generalizing run with
  | nil =>
      obtain ⟨rfl, -⟩ := Prod.mk.inj h
      exact ht
  | cons id rest ih =>
      obtain ⟨hid, hrest⟩ := List.forall_mem_cons.mp hids
      rw [Setting.shiftAllAgain] at h
      split at h
      · rename_i middle hagain
        exact ih (ht.shiftAgain hid hagain) hrest h
      · rename_i middle hagain
        obtain ⟨rfl, -⟩ := Prod.mk.inj h
        exact ht.shiftAgain hid hagain

theorem breakDownRightFrom {fuel : Nat} {shifted : Bool} (ht : Traces inside store floor run)
    (h : setting.breakDownRightFrom fuel run = (after, shifted)) : Traces inside store floor after := by
  induction fuel generalizing run with
  | zero =>
      obtain ⟨rfl, -⟩ := Prod.mk.inj h
      exact ht
  | succ fuel ih =>
      rw [Setting.breakDownRightFrom] at h
      split at h
      · obtain ⟨rfl, -⟩ := Prod.mk.inj h
        exact ht
      · rename_i frame below hstack
        have hframes := ht.stack
        rw [hstack] at hframes
        obtain ⟨hframe, hbelow⟩ := List.forall_mem_cons.mp hframes
        have hpopped : Traces inside store floor { run with stack := below } := ht.congr rfl hbelow rfl
        generalize ({ run with stack := below } : Run) = popped at h hpopped
        dsimp only at h
        split at h
        · rename_i id state
          have hid : inside id := hframe id List.mem_cons_self
          split at h
          · exact hpopped.shiftAgain hid h
          · have hchildren := (hpopped.evolves.closed hc id hid).children
            split at h
            · rename_i middle hall
              exact ih (hpopped.shiftAllAgain hchildren hall) h
            · rename_i middle hall
              obtain ⟨rfl, -⟩ := Prod.mk.inj h
              exact hpopped.shiftAllAgain hchildren hall
        · obtain ⟨rfl, -⟩ := Prod.mk.inj h
          exact hpopped.pushPassed (hframe _ List.mem_cons_self)
        · split at h
          · obtain ⟨rfl, -⟩ := Prod.mk.inj h
            exact hpopped.congr rfl (List.forall_mem_cons.mpr ⟨hframe, hbelow⟩) rfl
          · obtain ⟨rfl, -⟩ := Prod.mk.inj h
            exact hpopped

theorem spanFrom {target fuel : Nat} {reach : Reach} {nodes : List Nat} (ht : Traces inside store floor run)
    (hid : inside id) (hnodes : ∀ node ∈ nodes, inside node) :
    (setting.spanFrom target reach fuel nodes run id).Keeps (Traces inside store floor) fun (nodes, after, next) =>
      (∀ node ∈ nodes, inside node) ∧ Traces inside store floor after ∧ inside next := by
  induction fuel generalizing nodes run id with
  | zero => exact ⟨hnodes, ht, hid⟩
  | succ fuel ih =>
      rw [Setting.spanFrom]
      dsimp only
      split
      · exact ((ht.clearChanged hid).breakDownLeft hc hid).bind fun (after, next) h => ih h.1 h.2 hnodes
      · split
        · exact ⟨hnodes, ht, hid⟩
        · have htaken := (ht.clearChanged hid).setState hid target
          refine (htaken.next hc hid).bind fun next hnext => ih htaken hnext ?_
          exact List.forall_mem_append.mpr ⟨hnodes, List.forall_mem_singleton.mpr hid⟩

theorem takeSpan {target : Nat} {reach : Reach} (ht : Traces inside store floor run) (hid : inside id) :
    (setting.takeSpan run id target reach).Keeps (Traces inside store floor) fun (after, next) =>
      Traces inside store floor after ∧ inside next := by
  refine (@spanFrom inside store setting run id floor hc target _ reach [] ht hid nofun).bind fun (nodes, after, next) h => ?_
  exact ⟨(h.2.1.count _).push h.1, h.2.2⟩

end

end Traces

-- Whether the ends of a document are among certain nodes.
structure Document.Within (inside : Nat → Prop) (document : Document) : Prop where
  root : inside document.root
  bos : inside document.bos
  eos : inside document.eos

theorem Document.within_all (document : Document) : document.Within fun _ => True := ⟨trivial, trivial, trivial⟩

theorem Document.Within.withNew {inside : Nat → Prop} {document : Document} {store other : Store}
    (h : document.Within inside) : document.Within (store.WithNew other inside) :=
  ⟨Or.inl h.root, Or.inl h.bos, Or.inl h.eos⟩

-- Whether a run has come by accepting, and knew the way back before that.
def Setting.Accepted (setting : Setting) (inside : Nat → Prop) (store : Store) (floor : Nat) (after : Run) : Prop :=
  ∃ run, after = setting.accept run ∧ Traces inside store floor run

-- What is known of the run after a step.
def Step.Keeps (accepted run : Run → Prop) (inside : Nat → Prop) : Step → Prop
  | .continue after next => run after ∧ inside next
  | .accept after => accepted after
  | .reject after _ => run after

namespace Traces

variable {inside : Nat → Prop} {store : Store} {setting : Setting} {run : Run} {id floor bound : Nat}

section

variable (hc : store.Closed inside) (hfresh : ∀ id, store.size ≤ id → id < bound → inside id)

include hc hfresh

theorem tryWildcards (ht : Traces inside store floor run) (hid : inside id) (reaches : List Reach) :
    (setting.tryWildcards run id reaches).Keeps (Traces inside store floor)
      (Step.Keeps (setting.Accepted inside store floor)
        (fun after => after.store.size ≤ bound → Traces inside store floor after) inside) := by
  induction reaches with
  | nil => exact fun _ => ht
  | cons reach rest ih =>
      rw [Setting.tryWildcards]
      split
      · exact (ht.takeSpan hc hid).bind fun (after, next) h => ⟨fun _ => h.1, h.2⟩
      · exact (ht.reduce hfresh _).bind fun after h => ⟨h, hid⟩
      · exact ih

theorem withoutAction (ht : Traces inside store floor run) (hid : inside id) :
    (setting.withoutAction run id).Keeps (Traces inside store floor)
      (Step.Keeps (setting.Accepted inside store floor)
        (fun after => after.store.size ≤ bound → Traces inside store floor after) inside) := by
  unfold Setting.withoutAction
  split
  · have hbroken : Traces inside store floor { run with validating := false, brokeDown := true } := ht.congr rfl ht.stack rfl
    have hcounted := hbroken.count fun counts => { counts with rightBreakdowns := counts.rightBreakdowns + 1 }
    dsimp only
    split
    · rename_i after h
      exact ⟨fun _ => hcounted.breakDownRightFrom hc h, hid⟩
    · rename_i after h
      exact fun _ => hcounted.breakDownRightFrom hc h
  · split
    · have hpassed := ((ht.clearChanged hid).pushPassed hid).count fun counts =>
        { counts with passedThrough := counts.passedThrough + 1 }
      exact (hpassed.next hc hid).bind fun next h => ⟨fun _ => hpassed, h⟩
    · exact ht.tryWildcards hc hfresh hid _

omit hc hfresh in
theorem evolves_accept (ht : Traces inside store floor run) (hends : setting.document.Within inside) :
    store.Evolves inside (setting.accept run).store ∧ floor ≤ (setting.accept run).store.size := by
  refine ⟨(ht.evolves.setChildren hends.root ?_).setChanged, by simpa [Setting.accept] using ht.floor_le⟩
  refine List.forall_mem_cons.mpr ⟨hends.bos, List.forall_mem_append.mpr ⟨fun node h => ?_,
    List.forall_mem_singleton.mpr hends.eos⟩⟩
  obtain ⟨frame, hframe, hnode⟩ := List.mem_flatMap.mp h
  exact ht.stack frame (List.mem_reverse.mp hframe) node hnode

theorem stepTerminal (ht : Traces inside store floor run) (hid : inside id) :
    (setting.stepTerminal run id).Keeps (Traces inside store floor)
      (Step.Keeps (setting.Accepted inside store floor)
        (fun after => after.store.size ≤ bound → Traces inside store floor after) inside) := by
  unfold Setting.stepTerminal
  split
  · exact ⟨run, rfl, ht⟩
  · rename_i next _
    have hpushed := (ht.clearChanged hid).pushSymbol hid next
    have hshifted : Traces inside store floor { (run.clearChanged id).pushSymbol id next with validating := false } :=
      hpushed.congr rfl hpushed.stack rfl
    have hcounted := hshifted.count fun counts => { counts with shifts := counts.shifts + 1 }
    exact (hcounted.next hc hid).bind fun next h => ⟨fun _ => hcounted, h⟩
  · exact (ht.reduce hfresh _).bind fun after h => ⟨h, hid⟩
  · exact ht.withoutAction hc hfresh hid
  · exact ht.withoutAction hc hfresh hid

theorem stepNonterminal (ht : Traces inside store floor run) (hid : inside id) :
    (setting.stepNonterminal run id).Keeps (Traces inside store floor) fun (after, next) =>
      (after.store.size ≤ bound → Traces inside store floor after) ∧ inside next := by
  unfold Setting.stepNonterminal
  dsimp only
  split
  · exact ((ht.clearChanged hid).breakDownLeft hc hid).mono fun (after, next) h => ⟨fun _ => h.1, h.2⟩
  · split
    · rename_i next _
      have hpushed := ht.pushSymbol hid next
      have hshifted : Traces inside store floor { run.pushSymbol id next with validating := true } :=
        hpushed.congr rfl hpushed.stack rfl
      have hcounted := hshifted.count fun counts => { counts with optimisticShifts := counts.optimisticShifts + 1 }
      exact (hcounted.next hc hid).bind fun next h => ⟨fun _ => hcounted, h⟩
    · split
      · exact (ht.reduce hfresh _).map fun after h => ⟨h, hid⟩
      · exact (ht.breakDownLeft hc hid).mono fun (after, next) h => ⟨fun _ => h.1, h.2⟩

theorem step (ht : Traces inside store floor run) (hid : inside id) :
    (setting.step run id).Keeps (Traces inside store floor)
      (Step.Keeps (setting.Accepted inside store floor)
        (fun after => after.store.size ≤ bound → Traces inside store floor after) inside) := by
  unfold Setting.step
  split
  · exact ht.stepTerminal hc hfresh hid
  · exact (ht.stepNonterminal hc hfresh hid).map fun (after, next) h => h

end

theorem idle (ht : Traces inside store floor run) (hlt : id < store.size) :
    (run.store.node id).idle = (store.node id).idle :=
  Change.idle_undoAll.symm.trans (Node.idle_of_unmarked (ht.undone.node id hlt))

-- A store that an attempt works on never gets smaller.
theorem floor_le_drive {fuel steps : Nat} {last : Run} {outcome : Except Fault Outcome}
    (ht : Traces (fun _ => True) store floor run) (hd : setting.drive fuel steps run id = some (last, outcome)) :
    floor ≤ last.store.size := by
  induction fuel generalizing steps run id with
  | zero => cases hd
  | succ fuel ih =>
      rw [Setting.drive] at hd
      have hcount := ht.count fun counts => { counts with steps := counts.steps + 1 }
      generalize run.count (fun counts => { counts with steps := counts.steps + 1 }) = run at hd hcount
      split at hd
      · obtain ⟨rfl, -⟩ := Prod.mk.inj (Option.some_inj.mp hd)
        exact hcount.floor_le
      · have hstep := fun bound => @step _ store setting run id floor bound (Store.closed_all store)
          (fun _ _ _ => trivial) hcount trivial
        generalize setting.step run id = result at hd hstep
        split at hd
        · obtain ⟨rfl, -⟩ := Prod.mk.inj (Option.some_inj.mp hd)
          exact Traces.floor_le (hstep 0)
        · exact ih ((hstep _).1 (Nat.le_refl _)) hd
        · obtain ⟨rfl, -⟩ := Prod.mk.inj (Option.some_inj.mp hd)
          obtain ⟨run', rfl, haccept⟩ := hstep 0
          exact (haccept.evolves_accept (Document.within_all _)).2
        · obtain ⟨rfl, -⟩ := Prod.mk.inj (Option.some_inj.mp hd)
          exact Traces.floor_le (hstep _ (Nat.le_refl _))

-- However long an attempt goes on, it knows the way back unless it accepts. Nodes that
-- it adds are inside as far as they are there at its end.
theorem drive {fuel steps : Nat} {last : Run} {outcome : Except Fault Outcome} (hc : store.Closed inside)
    (hfresh : ∀ id, store.size ≤ id → id < last.store.size → inside id) (ht : Traces inside store floor run)
    (hall : Traces (fun _ => True) store floor run) (hid : inside id)
    (hd : setting.drive fuel steps run id = some (last, outcome)) :
    outcome = .ok .accepted ∧ setting.Accepted inside store floor last ∨
      outcome ≠ .ok .accepted ∧ Traces inside store floor last := by
  induction fuel generalizing steps run id with
  | zero => cases hd
  | succ fuel ih =>
      rw [Setting.drive] at hd
      have hcount := ht.count fun counts => { counts with steps := counts.steps + 1 }
      have hcountall := hall.count fun counts => { counts with steps := counts.steps + 1 }
      generalize run.count (fun counts => { counts with steps := counts.steps + 1 }) = run at hd hcount hcountall
      split at hd
      · obtain ⟨rfl, rfl⟩ := Prod.mk.inj (Option.some_inj.mp hd)
        exact Or.inr ⟨nofun, hcount⟩
      · have hstep := @step inside store setting run id floor _ hc hfresh hcount hid
        have hstepall := fun floor bound ht => @step _ store setting run id floor bound (Store.closed_all store)
          (fun _ _ _ => trivial) ht trivial
        generalize setting.step run id = result at hd hstep hstepall
        split at hd
        · obtain ⟨rfl, rfl⟩ := Prod.mk.inj (Option.some_inj.mp hd)
          exact Or.inr ⟨nofun, hstep⟩
        · have hnext := (hstepall _ _ hcountall).1 (Nat.le_refl _)
          have hle := (hnext.raise (Nat.le_refl _)).floor_le_drive hd
          exact ih (hstep.1 hle) hnext hstep.2 hd
        · obtain ⟨rfl, rfl⟩ := Prod.mk.inj (Option.some_inj.mp hd)
          exact Or.inl ⟨rfl, hstep⟩
        · obtain ⟨rfl, rfl⟩ := Prod.mk.inj (Option.some_inj.mp hd)
          exact Or.inr ⟨nofun, hstep (Nat.le_refl _)⟩

end Traces

-- Whether all is the same but for marks, which certain nodes may have got.
structure Store.Remarked (inside : Nat → Prop) (store other : Store) : Prop where
  size : other.size = store.size
  alike : store.Alike store.size other
  pending : ∀ id, (other.node id).pending = (store.node id).pending ∨ inside id ∧ (other.node id).pending = true

namespace Store.Remarked

variable {inside : Nat → Prop} {store middle other : Store}

theorem refl (inside : Nat → Prop) (store : Store) : store.Remarked inside store :=
  ⟨rfl, .refl _ _, fun _ => Or.inl rfl⟩

theorem trans (hfirst : store.Remarked inside middle) (hsecond : middle.Remarked inside other) :
    store.Remarked inside other := by
  refine ⟨hsecond.size.trans hfirst.size, hfirst.alike.trans (hfirst.size ▸ hsecond.alike), fun id => ?_⟩
  rcases hsecond.pending id with h | h
  · rw [h]
    exact hfirst.pending id
  · exact Or.inr h

theorem unmarked (hr : store.Remarked inside other) (id : Nat) :
    (other.node id).unmarked = (store.node id).unmarked := by
  by_cases hlt : id < store.size
  · exact hr.alike.node id hlt
  · rw [node_of_size_le (hr.size ▸ Nat.not_lt.mp hlt), node_of_size_le (Nat.not_lt.mp hlt)]

theorem attributes (hr : store.Remarked inside other) {id : Nat} :
    (other.node id).toAttributes = (store.node id).toAttributes :=
  show (other.node id).unmarked.toAttributes = (store.node id).unmarked.toAttributes by rw [hr.unmarked]

theorem closed (hr : store.Remarked inside other) (hc : store.Closed inside) : other.Closed inside := by
  intro id hid
  rw [hr.attributes]
  exact hc id hid

-- No node that was not there before has got a mark.
theorem of_withNew {last : Store} (hr : store.Remarked (store.WithNew last inside) other) :
    store.Remarked inside other := by
  refine ⟨hr.size, hr.alike, fun id => ?_⟩
  by_cases hlt : id < store.size
  · exact (hr.pending id).imp_right fun h => ⟨h.1.resolve_right fun hnew => absurd hlt (Nat.not_lt.mpr hnew.1), h.2⟩
  · rw [node_of_size_le (hr.size ▸ Nat.not_lt.mp hlt), node_of_size_le (Nat.not_lt.mp hlt)]
    exact Or.inl rfl

end Store.Remarked

namespace Outcome

def status : Outcome → ParseStatus
  | accepted => .accepted
  | rejected node _ _ => .rejected node

theorem eq_accepted_of_status {outcome : Except Fault Outcome} (h : outcome.map status = .ok .accepted) :
    outcome = .ok .accepted := by
  rcases outcome with fault | outcome
  · cases h
  · cases outcome with
    | accepted => rfl
    | rejected node state unsure => cases h

end Outcome

section

variable {inside : Nat → Prop} {store after : Store} {setting : Setting} {run : Run} {fuel floor : Nat}

theorem Traces.rollback (ht : Traces inside store floor run) :
    store.Remarked inside (Setting.rollback store.size run) := by
  have hle := ht.evolves.size_le
  have hsize : (Setting.rollback store.size run).size = store.size := by
    have hundo : (Change.undoAll run.changes run.store).nodes.size = run.store.size := Change.size_undoAll
    have hmin : (Setting.rollback store.size run).size = min store.size (Change.undoAll run.changes run.store).nodes.size :=
      by simp [Setting.rollback, Store.truncate, Store.size, Change.undoAll]
    rw [hmin, hundo, Nat.min_eq_left hle]
  have hnode : ∀ id, id < store.size →
      (Setting.rollback store.size run).node id = (Change.undoAll run.changes run.store).node id := by
    intro id hid
    change ((Change.undoAll run.changes run.store).nodes.take store.size).getD id default = _
    have hlt : id < min store.size (Change.undoAll run.changes run.store).nodes.size := by
      have hundo : (Change.undoAll run.changes run.store).nodes.size = run.store.size := Change.size_undoAll
      omega
    rw [Array.getD_eq_getD_getElem?, Array.take_eq_extract, Array.getElem?_extract]
    simp [hlt, Store.node]
  refine ⟨hsize, ⟨ht.undone.version, ht.undone.newest, fun id hid => ?_⟩, fun id => ?_⟩
  · rw [hnode id hid]
    exact ht.undone.node id hid
  · by_cases hid : id < store.size
    · rw [hnode id hid]
      rcases @Change.pending_undoAll run.changes run.store id with h | ⟨⟨change, hmem, rfl⟩, h⟩
      · rw [h]
        exact (ht.evolves.node hid).imp Node.SamePast.pending fun h => ⟨h.1, h.2.1⟩
      · exact Or.inr ⟨ht.changes change hmem, h⟩
    · rw [Store.node_of_size_le (Nat.le_trans (Nat.le_of_eq hsize) (Nat.not_lt.mp hid)),
        Store.node_of_size_le (Nat.not_lt.mp hid)]
      exact Or.inl rfl

theorem idle_accept {id : Nat} : ((setting.accept run).store.node id).idle = (run.store.node id).idle := by
  have hlinks := @Store.unlinked_linkChildren run.store setting.document.root id none
    (setting.document.bos :: (run.stack.nodes ++ [setting.document.eos]))
  refine Eq.trans ?_ (Node.idle_of_unlinked hlinks)
  unfold Setting.accept Store.setChildren Store.setChanged Store.revise
  dsimp only
  rw [Store.node_update, Store.node_update]
  split
  · split <;> rfl
  · split <;> rfl

-- How an attempt ends, with what its run leaves traces of.
inductive Setting.Leaves (setting : Setting) (inside : Nat → Prop) (store : Store) : Store → Except Fault Outcome → Prop where
  | unstarted {fault : Fault} : Leaves setting inside store store (.error fault)
  | accepted {run : Run} :
      Traces (store.WithNew (setting.accept run).store inside) store 0 run →
      Leaves setting inside store (setting.accept run).store (.ok .accepted)
  | undone {run : Run} {outcome : Except Fault Outcome} :
      outcome ≠ .ok .accepted → Traces (store.WithNew run.store inside) store 0 run →
      Leaves setting inside store (Setting.rollback store.size run) outcome

section Attempt

variable {metrics metrics' : Metrics} {outcome : Except Fault Outcome} (hc : store.Closed inside)
  (hends : setting.document.Within inside)
  (ha : setting.attempt fuel store metrics = some (after, metrics', outcome))

include hc hends ha

theorem attempt_leaves : setting.Leaves inside store after outcome := by
  unfold Setting.attempt at ha
  dsimp only at ha
  split at ha
  · cases ha
    exact .unstarted
  · rename_i first hfirst
    obtain ⟨⟨last, outcome⟩, hdrive, ha⟩ := Option.map_eq_some_iff.mp ha
    have hstart : ∀ inside : Nat → Prop,
        Traces inside store 0 ⟨store, [], [], false, false, { metrics with attempts := metrics.attempts + 1 }⟩ :=
      fun _ => ⟨.refl, Nat.zero_le _, nofun, nofun, .refl _ _⟩
    rcases Traces.drive hc.withNew (fun id h hlt => Or.inr ⟨h, hlt⟩) (hstart _) (hstart _)
      (Or.inl (hc.following? hends.bos hfirst)) hdrive with ⟨rfl, run, rfl, ht⟩ | ⟨hne, ht⟩
    · cases ha
      exact .accepted ht
    · split at ha
      · rename_i h
        exact absurd h hne
      · cases ha
        exact .undone hne ht

theorem attempt_remarks :
    outcome = .ok .accepted ∧ store.Evolves (store.WithNew after inside) after ∨
      outcome ≠ .ok .accepted ∧ store.Remarked inside after := by
  cases attempt_leaves hc hends ha with
  | unstarted => exact Or.inr ⟨nofun, .refl _ _⟩
  | accepted ht => exact Or.inl ⟨rfl, (ht.evolves_accept hends.withNew).1⟩
  | undone hne ht => exact Or.inr ⟨hne, ht.rollback.of_withNew⟩

end Attempt

-- Whether it accepts or not, an attempt leaves alone all that is left of idle nodes.
theorem attempt_idle {metrics metrics' : Metrics} {outcome : Except Fault Outcome}
    (ha : setting.attempt fuel store metrics = some (after, metrics', outcome)) {id : Nat} (hlt : id < store.size) :
    (after.node id).idle = (store.node id).idle := by
  cases attempt_leaves (Store.closed_all store) (Document.within_all _) ha with
  | unstarted => rfl
  | accepted ht => exact idle_accept.trans (ht.idle hlt)
  | undone _ ht => exact Node.idle_of_unmarked (ht.rollback.alike.node id hlt)

namespace Parser

variable {parser parser' : Parser} {document : Document} {reparse : Bool} {status : Except Fault ParseStatus}

theorem attempts_of_parse (hp : parser.parse fuel store document reparse = some (parser', after, status)) :
    ∃ outcome, parser.attempts fuel store document reparse = some (after, parser'.metrics, outcome) ∧
      status = outcome.map Outcome.status := by
  obtain ⟨⟨last, metrics, outcome⟩, hattempts, hresult⟩ := Option.map_eq_some_iff.mp hp
  dsimp only at hresult
  split at hresult
  · cases hresult
    exact ⟨_, hattempts, rfl⟩
  · cases hresult
    exact ⟨_, hattempts, rfl⟩
  · cases hresult
    exact ⟨_, hattempts, rfl⟩

-- The last attempt is one on the document as it was, or one that reuses nothing once a first
-- one has been undone.
theorem attempt_of_attempts {metrics : Metrics} {outcome : Except Fault Outcome} (hc : store.Closed inside)
    (hends : document.Within inside)
    (h : parser.attempts fuel store document reparse = some (after, metrics, outcome)) :
    ∃ reparse' middle earlier, store.Remarked inside middle ∧
      (parser.setting document reparse').attempt fuel middle earlier = some (after, metrics, outcome) ∧
      (reparse' = true ∨ reparse' = (reparse || parser.reparse) ∧ earlier = default) := by
  obtain ⟨⟨first, metrics, outcome⟩, hattempt, hrest⟩ := Option.bind_eq_some_iff.mp h
  dsimp only at hrest
  split at hrest
  · split at hrest
    · rcases @attempt_remarks inside store first (parser.setting document (reparse || parser.reparse)) fuel
        _ _ _ hc hends hattempt with ⟨h, -⟩ | ⟨-, hfirst⟩
      · cases h
      · exact ⟨_, first, _, hfirst, hrest, Or.inl rfl⟩
    · cases hrest
      exact ⟨_, store, _, .refl _ _, hattempt, Or.inr ⟨rfl, rfl⟩⟩
  · cases hrest
    exact ⟨_, store, _, .refl _ _, hattempt, Or.inr ⟨rfl, rfl⟩⟩

theorem attempt_of_parse (hc : store.Closed inside) (hends : document.Within inside)
    (hp : parser.parse fuel store document reparse = some (parser', after, status)) :
    ∃ reparse' middle earlier outcome, store.Remarked inside middle ∧
      (parser.setting document reparse').attempt fuel middle earlier = some (after, parser'.metrics, outcome) ∧
      status = outcome.map Outcome.status := by
  obtain ⟨outcome, hattempts, hstatus⟩ := attempts_of_parse hp
  obtain ⟨reparse', middle, earlier, hr, hattempt, -⟩ := attempt_of_attempts hc hends hattempts
  exact ⟨reparse', middle, earlier, outcome, hr, hattempt, hstatus⟩

-- Neither of two attempts leaves more than marks unless it accepts.
theorem parse_remarks (hc : store.Closed inside) (hends : document.Within inside)
    (hp : parser.parse fuel store document reparse = some (parser', after, status)) :
    (status = .ok .accepted ∧ ∃ middle, store.Remarked inside middle ∧
        middle.Evolves (middle.WithNew after inside) after) ∨
      status ≠ .ok .accepted ∧ store.Remarked inside after := by
  obtain ⟨reparse', middle, earlier, outcome, hr, hattempt, rfl⟩ := attempt_of_parse hc hends hp
  rcases attempt_remarks (hr.closed hc) hends hattempt with ⟨rfl, he⟩ | ⟨hne, hlast⟩
  · exact Or.inl ⟨rfl, middle, hr, he⟩
  · exact Or.inr ⟨mt Outcome.eq_accepted_of_status hne, hr.trans hlast⟩

theorem parse_idle (hp : parser.parse fuel store document reparse = some (parser', after, status)) {id : Nat}
    (hlt : id < store.size) : (after.node id).idle = (store.node id).idle := by
  obtain ⟨reparse', middle, earlier, outcome, hr, hattempt, -⟩ :=
    attempt_of_parse (Store.closed_all store) (Document.within_all _) hp
  exact (attempt_idle hattempt (hr.size.symm ▸ hlt)).trans (Node.idle_of_unmarked (hr.unmarked id))

end Parser

end

end IncrementalLR
