import IncrementalLR.Proofs.Tree.Closed
import IncrementalLR.Tree.Edit
import Mathlib.Data.List.InsertIdx

namespace IncrementalLR

-- Whether nodes agree in what versions keep of them.
structure Node.SamePast (node other : Node) : Prop where
  attributes : other.toAttributes = node.toAttributes
  deleted : other.deleted = node.deleted
  pending : other.pending = node.pending
  history : other.history = node.history

theorem Node.SamePast.refl (node : Node) : node.SamePast node := ⟨rfl, rfl, rfl, rfl⟩

theorem Node.SamePast.trans {node middle other : Node} (hfirst : node.SamePast middle)
    (hsecond : middle.SamePast other) : node.SamePast other :=
  ⟨hsecond.attributes.trans hfirst.attributes, hsecond.deleted.trans hfirst.deleted,
    hsecond.pending.trans hfirst.pending, hsecond.history.trans hfirst.history⟩

namespace Store

-- What a store comes to between two versions. What versions keep changes only at
-- certain nodes, which are led to no others and left to the next commit.
inductive Evolves (inside : Nat → Prop) (store : Store) : Store → Prop where
  | refl : Evolves inside store store
  | revise {other : Store} {id : Nat} {change : Attributes → Attributes} :
      Evolves inside store other → inside id →
      (∀ attributes, attributes.Within inside → (change attributes).Within inside) →
      Evolves inside store (other.revise id change)
  | setDeleted {other : Store} {id : Nat} {deleted : Bool} :
      Evolves inside store other → inside id → Evolves inside store (other.setDeleted id deleted)
  | tune {other : Store} {id : Nat} {change : Node → Node} :
      Evolves inside store other → (∀ node : Node, node.SamePast (change node) ∧ (change node).box = node.box) →
      Evolves inside store (other.update id change)
  | push {other : Store} {symbol : Symbol} {rule : Option String} {text : String} :
      Evolves inside store other → inside other.size →
      Evolves inside store (other.push (.new symbol rule text))

variable {inside : Nat → Prop} {store middle other : Store} {id : Nat}

namespace Evolves

theorem trans (hfirst : store.Evolves inside middle) (hsecond : middle.Evolves inside other) :
    store.Evolves inside other := by
  induction hsecond with
  | refl => exact hfirst
  | revise _ hid hchange ih => exact ih.revise hid hchange
  | setDeleted _ hid ih => exact ih.setDeleted hid
  | tune _ hchange ih => exact ih.tune hchange
  | push _ hid ih => exact ih.push hid

theorem size_le (he : store.Evolves inside other) : store.size ≤ other.size := by
  induction he with
  | refl => exact Nat.le_refl _
  | revise _ _ _ ih => simpa using ih
  | setDeleted _ _ ih => simpa [Store.setDeleted] using ih
  | tune _ _ ih => simpa using ih
  | push _ _ ih =>
      rw [size_push]
      exact Nat.le_succ_of_le ih

theorem versions (he : store.Evolves inside other) :
    other.version = store.version ∧ other.newest = store.newest := by
  induction he with
  | refl => exact ⟨rfl, rfl⟩
  | revise _ _ _ ih => exact ih
  | setDeleted _ _ ih => exact ih
  | tune _ _ ih => exact ih
  | push _ _ ih => exact ih

theorem closed (he : store.Evolves inside other) (hc : store.Closed inside) : other.Closed inside := by
  induction he with
  | refl => exact hc
  | @revise other id change _ _ hchange ih =>
      intro node hnode
      unfold Store.revise
      rw [node_update]
      split
      · exact hchange _ (ih node hnode)
      · exact ih node hnode
  | @setDeleted other id deleted _ _ ih =>
      intro node hnode
      unfold Store.setDeleted
      rw [node_update]
      split
      · exact ih node hnode
      · exact ih node hnode
  | @tune other id change _ hchange ih =>
      intro node hnode
      rw [node_update]
      split
      · rw [(hchange _).1.attributes]
        exact ih node hnode
      · exact ih node hnode
  | push _ _ ih =>
      intro node hnode
      rw [node_push]
      split
      · exact Attributes.within_new inside _ _ _
      · exact ih node hnode

-- Nodes that were there before are as they were, or left to the next commit.
theorem node (he : store.Evolves inside other) (hlt : id < store.size) :
    (store.node id).SamePast (other.node id) ∨
      inside id ∧ (other.node id).pending = true ∧ (other.node id).history = (store.node id).history := by
  induction he with
  | refl => exact Or.inl (.refl _)
  | @revise other changed change he hinside _ ih =>
      unfold Store.revise
      rw [node_update]
      split
      · rename_i h
        rcases ih with ih | ih
        · exact Or.inr ⟨h.1 ▸ hinside, rfl, ih.history⟩
        · exact Or.inr ⟨ih.1, rfl, ih.2.2⟩
      · exact ih
  | @setDeleted other changed deleted he hinside ih =>
      unfold Store.setDeleted
      rw [node_update]
      split
      · rename_i h
        rcases ih with ih | ih
        · exact Or.inr ⟨h.1 ▸ hinside, rfl, ih.history⟩
        · exact Or.inr ⟨ih.1, rfl, ih.2.2⟩
      · exact ih
  | @tune other changed change he hchange ih =>
      rw [node_update]
      split
      · have hsame := (hchange (other.node id)).1
        rcases ih with ih | ⟨hid, hpending, hhistory⟩
        · exact Or.inl (ih.trans hsame)
        · exact Or.inr ⟨hid, hsame.pending.trans hpending, hsame.history.trans hhistory⟩
      · exact ih
  | push he _ ih =>
      rw [node_push, if_neg (by have := he.size_le; omega)]
      exact ih

-- Nodes that are new are left to the next commit.
theorem node_new (he : store.Evolves inside other) (hge : store.size ≤ id) (hlt : id < other.size) :
    inside id ∧ (other.node id).pending = true ∧ (other.node id).history = default := by
  induction he with
  | refl => omega
  | @revise other changed change he hinside _ ih =>
      rw [size_revise] at hlt
      unfold Store.revise
      rw [node_update]
      split
      · exact ⟨(ih hlt).1, rfl, (ih hlt).2.2⟩
      · exact ih hlt
  | @setDeleted other changed deleted he hinside ih =>
      unfold Store.setDeleted at hlt ⊢
      rw [size_update] at hlt
      rw [node_update]
      split
      · exact ⟨(ih hlt).1, rfl, (ih hlt).2.2⟩
      · exact ih hlt
  | @tune other changed change he hchange ih =>
      rw [size_update] at hlt
      rw [node_update]
      split
      · have hsame := (hchange (other.node id)).1
        exact ⟨(ih hlt).1, hsame.pending.trans (ih hlt).2.1, hsame.history.trans (ih hlt).2.2⟩
      · exact ih hlt
  | @push other _ _ _ he hinside ih =>
      rw [size_push] at hlt
      rw [node_push]
      split
      · rename_i h
        exact ⟨h ▸ hinside, rfl, rfl⟩
      · exact ih (by omega)

-- Documents are embedded in other ways. New nodes have nothing in them.
theorem box (he : store.Evolves inside other) : (other.node id).box = (store.node id).box := by
  induction he with
  | refl => rfl
  | revise _ _ _ ih =>
      rw [Store.revise, node_update]
      split
      · exact ih
      · exact ih
  | setDeleted _ _ ih =>
      rw [Store.setDeleted, node_update]
      split
      · exact ih
      · exact ih
  | tune _ hchange ih =>
      rw [node_update]
      split
      · exact (hchange _).2.trans ih
      · exact ih
  | @push other symbol rule text he _ ih =>
      rw [node_push]
      split
      · rename_i h
        rw [node_of_size_le (h ▸ he.size_le)]
        rfl
      · exact ih

theorem foldl {α : Type} {items : List α} {step : Store → α → Store} (he : store.Evolves inside other)
    (hstep : ∀ item other, store.Evolves inside other → store.Evolves inside (step other item)) :
    store.Evolves inside (items.foldl step other) := by
  induction items generalizing other with
  | nil => exact he
  | cons item rest ih => exact ih (hstep item other he)

theorem reviseAll {ids : Option Nat} {change : Attributes → Attributes} (he : store.Evolves inside other)
    (hids : ∀ id ∈ ids, inside id)
    (hchange : ∀ attributes, attributes.Within inside → (change attributes).Within inside) :
    store.Evolves inside (other.reviseAll ids change) := by
  cases ids with
  | none => exact he
  | some id => exact he.revise (hids id rfl) hchange

theorem setState {state : Nat} (he : store.Evolves inside other) : store.Evolves inside (other.setState id state) :=
  he.tune fun _ => ⟨⟨rfl, rfl, rfl, rfl⟩, rfl⟩

theorem setChanged {changed : Bool} (he : store.Evolves inside other) :
    store.Evolves inside (other.setChanged id changed) := he.tune fun _ => ⟨⟨rfl, rfl, rfl, rfl⟩, rfl⟩

theorem setAlternate {value : Option AstValue} (he : store.Evolves inside other) :
    store.Evolves inside (other.setAlternate id value) := he.tune fun _ => ⟨⟨rfl, rfl, rfl, rfl⟩, rfl⟩

theorem linkChildren {parent : Nat} {left : Option Nat} {children : List Nat}
    (he : store.Evolves inside other) (hparent : inside parent) (hleft : ∀ id ∈ left, inside id)
    (hchildren : ∀ id ∈ children, inside id) :
    store.Evolves inside (Store.linkChildren parent left children other) := by
  induction children generalizing left other with
  | nil => exact he
  | cons child rest ih =>
      obtain ⟨hchild, hrest⟩ := List.forall_mem_cons.mp hchildren
      have hlinked := he.revise hchild (fun attributes h => { h with
        parent := fun link hlink => Option.some_inj.mp hlink ▸ hparent
        left := hleft
        right := nofun } : ∀ attributes : Attributes, attributes.Within inside →
          ({ attributes with parent := some parent, left := left, right := none } : Attributes).Within inside)
      refine ih (hlinked.reviseAll hleft fun attributes h => { h with right := ?_ }) ?_ hrest
      · exact fun link hlink => Option.some_inj.mp hlink ▸ hchild
      · exact fun link hlink => Option.some_inj.mp hlink ▸ hchild

theorem setChildren {parent : Nat} {children : List Nat} (he : store.Evolves inside other)
    (hparent : inside parent) (hchildren : ∀ id ∈ children, inside id) :
    store.Evolves inside (other.setChildren parent children) := by
  have hlinked : store.Evolves inside (Store.linkChildren parent none children other) :=
    he.linkChildren hparent nofun hchildren
  exact hlinked.revise hparent fun _ h => { h with children := hchildren }

theorem allocateNode {symbol : Symbol} {children : List Nat} (he : store.Evolves inside other)
    (hnew : inside other.size) (hchildren : ∀ id ∈ children, inside id) :
    store.Evolves inside (other.allocateNode symbol children).1 := (he.push hnew).setChildren hnew hchildren

section

variable {parent anchor new child root version : Nat} (he : store.Evolves inside other)

include he

theorem markChanged : store.Evolves inside (other.markChanged id version) := by
  have hfrom : ∀ fuel id other, store.Evolves inside other →
      store.Evolves inside (Store.markChangedFrom version fuel id other) := by
    intro fuel
    induction fuel with
    | zero => exact fun _ _ h => h
    | succ fuel ih =>
        intro id other h
        have hflag : store.Evolves inside
            (other.update id fun node => { node with changed := true, version := version }) :=
          h.tune fun _ => ⟨⟨rfl, rfl, rfl, rfl⟩, rfl⟩
        rw [Store.markChangedFrom]
        dsimp only
        split
        · exact h
        · split
          · exact ih _ _ hflag
          · exact hflag
  exact hfrom _ _ _ he

theorem setToken {rule : Option String} {text : String} (hid : inside id) :
    store.Evolves inside (other.setToken id rule text) := he.revise hid fun _ h => { h with }

theorem threadLeaves {before : Option Nat} {leaves : List Nat} (hbefore : ∀ id ∈ before, inside id)
    (hleaves : ∀ id ∈ leaves, inside id) : store.Evolves inside (Store.threadLeaves before leaves other) := by
  induction leaves generalizing before other with
  | nil => exact he
  | cons leaf rest ih =>
      obtain ⟨hleaf, hrest⟩ := List.forall_mem_cons.mp hleaves
      have hlinked : store.Evolves inside (other.revise leaf fun node =>
          { node with prevTerminal := before, nextTerminal := none }) :=
        he.revise hleaf fun _ h => { h with prevTerminal := hbefore, nextTerminal := nofun }
      have hlast : ∀ id ∈ some leaf, inside id := fun id h => Option.some_inj.mp h ▸ hleaf
      exact ih (hlinked.reviseAll hbefore (Attributes.within_nextTerminal hlast)) hlast hrest

variable (hc : store.Closed inside)

include hc

theorem relink (hid : inside id) : store.Evolves inside (other.relink id) :=
  he.threadLeaves nofun fun _ h => (he.closed hc).leavesBelow hid h

theorem threadIn (hanchor : inside anchor) (hnew : inside new) : store.Evolves inside (other.threadIn anchor new) := by
  have hclosed := he.closed hc
  unfold Store.threadIn
  split
  · rename_i first last hfirst hlast
    have hfirst : inside first := hclosed.firstLeafBelow hnew hfirst
    have hlast : inside last := hclosed.lastLeafBelow hnew hlast
    have hbefore : ∀ id ∈ other.leafUpTo? anchor, inside id := fun id h => hclosed.leafUpToFrom hanchor h
    have hafter : ∀ id ∈ (other.leafUpTo? anchor).bind fun leaf => (other.node leaf).nextTerminal, inside id := by
      intro id h
      obtain ⟨leaf, hleaf, hnext⟩ := Option.bind_eq_some_iff.mp h
      exact (hclosed leaf (hbefore leaf hleaf)).nextTerminal id hnext
    have hends : ∀ {id}, inside id → ∀ link ∈ some id, inside link :=
      fun hid link h => Option.some_inj.mp h ▸ hid
    have houter := (he.revise hfirst (Attributes.within_prevTerminal hbefore)).revise hlast
      (Attributes.within_nextTerminal hafter)
    exact (houter.reviseAll hbefore (Attributes.within_nextTerminal (hends hfirst))).reviseAll hafter
      (Attributes.within_prevTerminal (hends hlast))
  · exact he

theorem threadOut (hchild : inside child) : store.Evolves inside (other.threadOut child) := by
  have hclosed := he.closed hc
  unfold Store.threadOut
  split
  · rename_i first last hfirst hlast
    have hbefore := (hclosed first (hclosed.firstLeafBelow hchild hfirst)).prevTerminal
    have hafter := (hclosed last (hclosed.lastLeafBelow hchild hlast)).nextTerminal
    exact (he.reviseAll hbefore (Attributes.within_nextTerminal hafter)).reviseAll hafter
      (Attributes.within_prevTerminal hbefore)
  · exact he

theorem insertAfter? {after : Store} (hparent : inside parent) (hanchor : inside anchor) (hnew : inside new)
    (h : other.insertAfter? parent anchor new = some after) : store.Evolves inside after := by
  unfold Store.insertAfter? at h
  split at h
  · cases h
  · rename_i place hplace
    obtain rfl := Option.some_inj.mp h
    have hright := (he.closed hc anchor hanchor).right
    have hends : ∀ {id}, inside id → ∀ link ∈ some id, inside link :=
      fun hid link h => Option.some_inj.mp h ▸ hid
    have hlisted := he.revise hparent
      (fun attributes h => { h with
        children := fun link hlink => (List.eq_or_mem_of_mem_insertIdx hlink).elim (· ▸ hnew) (h.children link) } :
        ∀ attributes : Attributes, attributes.Within inside →
          ({ attributes with children := attributes.children.insertIdx (place + 1) new } : Attributes).Within inside)
    have hlinked := hlisted.revise hnew
      (fun attributes h => { h with parent := hends hparent, left := hends hanchor, right := hright } :
        ∀ attributes : Attributes, attributes.Within inside →
          ({ attributes with parent := some parent, left := some anchor, right := (other.node anchor).right } :
            Attributes).Within inside)
    have hpresent := @setDeleted inside store _ new false hlinked hnew
    have hneighbours := (hpresent.revise hanchor (Attributes.within_right (hends hnew))).reviseAll hright
      (Attributes.within_left (hends hnew))
    exact hneighbours.threadIn hc hanchor hnew

theorem removeChild? {after : Store} (hparent : inside parent) (hchild : inside child)
    (h : other.removeChild? parent child = some after) : store.Evolves inside after := by
  unfold Store.removeChild? at h
  split at h
  · cases h
  · rename_i place hplace
    obtain rfl := Option.some_inj.mp h
    have hlisted := he.revise hparent
      (fun attributes h => { h with children := fun link hlink => h.children link (List.mem_of_mem_eraseIdx hlink) } :
        ∀ attributes : Attributes, attributes.Within inside →
          ({ attributes with children := attributes.children.eraseIdx place } : Attributes).Within inside)
    have hlinks := hlisted.closed hc child hchild
    have hneighbours := (hlisted.reviseAll hlinks.left (Attributes.within_right hlinks.right)).reviseAll hlinks.right
      (Attributes.within_left hlinks.left)
    exact (hneighbours.setDeleted hchild).threadOut hc hchild

end

end Evolves

-- Whether a step changes nothing that versions keep, of whichever nodes.
structure Still (store other : Store) : Prop where
  size : other.size = store.size
  versions : other.version = store.version ∧ other.newest = store.newest
  node : ∀ id, (store.node id).SamePast (other.node id)

theorem Still.trans (hfirst : store.Still middle) (hsecond : middle.Still other) : store.Still other :=
  ⟨hsecond.size.trans hfirst.size,
    ⟨hsecond.versions.1.trans hfirst.versions.1, hsecond.versions.2.trans hfirst.versions.2⟩,
    fun id => (hfirst.node id).trans (hsecond.node id)⟩

theorem still_update {change : Node → Node} (h : ∀ node : Node, node.SamePast (change node)) :
    store.Still (store.update id change) := by
  refine ⟨size_update _, ⟨rfl, rfl⟩, fun other => ?_⟩
  rw [node_update]
  split
  · exact h _
  · exact .refl _

theorem still_setBox {terminal root : Nat} : store.Still (store.setBox terminal root) := by
  have hbox : store.Still (store.update terminal fun node => { node with box := some root }) :=
    still_update fun _ => ⟨rfl, rfl, rfl, rfl⟩
  refine hbox.trans ?_
  exact @still_update _ root (fun node => { node with host := some terminal }) fun _ => ⟨rfl, rfl, rfl, rfl⟩

-- Nothing that versions keep changes where a step changes it nowhere.
theorem Evolves.still (he : store.Evolves (fun _ => False) other) : store.Still other := by
  have hsize : other.size = store.size :=
    Nat.le_antisymm (Nat.le_of_not_lt fun hlt => (he.node_new (Nat.le_refl _) hlt).1) he.size_le
  refine ⟨hsize, he.versions, fun id => ?_⟩
  by_cases hlt : id < store.size
  · exact (he.node hlt).resolve_right fun h => h.1
  · rw [node_of_size_le (Nat.le_of_not_lt hlt), node_of_size_le (hsize ▸ Nat.le_of_not_lt hlt)]
    exact .refl _

end Store

end IncrementalLR
