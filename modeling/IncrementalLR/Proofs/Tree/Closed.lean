import IncrementalLR.Proofs.Tree.Views

namespace IncrementalLR

-- Whether all links lead to certain nodes.
structure Attributes.Within (inside : Nat → Prop) (attributes : Attributes) : Prop where
  parent : ∀ link ∈ attributes.parent, inside link
  children : ∀ link ∈ attributes.children, inside link
  left : ∀ link ∈ attributes.left, inside link
  right : ∀ link ∈ attributes.right, inside link
  prevTerminal : ∀ link ∈ attributes.prevTerminal, inside link
  nextTerminal : ∀ link ∈ attributes.nextTerminal, inside link

theorem Attributes.Within.imp {inside others : Nat → Prop} {attributes : Attributes} (h : attributes.Within inside)
    (hi : ∀ link, inside link → others link) : attributes.Within others :=
  ⟨fun link hl => hi link (h.parent link hl), fun link hl => hi link (h.children link hl),
    fun link hl => hi link (h.left link hl), fun link hl => hi link (h.right link hl),
    fun link hl => hi link (h.prevTerminal link hl), fun link hl => hi link (h.nextTerminal link hl)⟩

-- A link of a node may be led to any of these nodes.
section

variable {inside : Nat → Prop} {links : Option Nat} (hl : ∀ link ∈ links, inside link)

include hl

theorem Attributes.within_left : ∀ attributes : Attributes, attributes.Within inside →
    ({ attributes with left := links } : Attributes).Within inside := fun _ h => { h with left := hl }

theorem Attributes.within_right : ∀ attributes : Attributes, attributes.Within inside →
    ({ attributes with right := links } : Attributes).Within inside := fun _ h => { h with right := hl }

theorem Attributes.within_prevTerminal : ∀ attributes : Attributes, attributes.Within inside →
    ({ attributes with prevTerminal := links } : Attributes).Within inside := fun _ h => { h with prevTerminal := hl }

theorem Attributes.within_nextTerminal : ∀ attributes : Attributes, attributes.Within inside →
    ({ attributes with nextTerminal := links } : Attributes).Within inside := fun _ h => { h with nextTerminal := hl }

end

theorem Attributes.within_default (inside : Nat → Prop) : (default : Attributes).Within inside :=
  ⟨nofun, nofun, nofun, nofun, nofun, nofun⟩

theorem Attributes.within_new (inside : Nat → Prop) (symbol : Symbol) (rule : Option String) (text : String) :
    (Node.new symbol rule text).toAttributes.Within inside := ⟨nofun, nofun, nofun, nofun, nofun, nofun⟩

namespace Store

-- Nodes that lead only to one another.
def Closed (store : Store) (inside : Nat → Prop) : Prop :=
  ∀ id, inside id → (store.node id).toAttributes.Within inside

-- Certain nodes, and those that another store has beyond one.
def WithNew (store other : Store) (inside : Nat → Prop) (id : Nat) : Prop :=
  inside id ∨ store.size ≤ id ∧ id < other.size

theorem Closed.withNew {store other : Store} {inside : Nat → Prop} (hc : store.Closed inside) :
    store.Closed (store.WithNew other inside) := by
  intro id hid
  rcases hid with hid | ⟨hge, -⟩
  · exact (hc id hid).imp fun _ => Or.inl
  · rw [node_of_size_le hge]
    exact Attributes.within_default _

theorem closed_all (store : Store) : store.Closed fun _ => True := fun _ _ =>
  ⟨fun _ _ => trivial, fun _ _ => trivial, fun _ _ => trivial, fun _ _ => trivial, fun _ _ => trivial,
    fun _ _ => trivial⟩

variable {store other : Store} {inside : Nat → Prop} {id link fuel : Nat}

namespace Closed

variable (hc : store.Closed inside) (hid : inside id)

include hc hid

theorem followingFrom (h : store.followingFrom fuel id = some link) : inside link := by
  induction fuel generalizing id with
  | zero => cases h
  | succ fuel ih =>
      rw [Store.followingFrom] at h
      split at h
      · rename_i right hright
        exact Option.some_inj.mp h ▸ (hc id hid).right right hright
      · obtain ⟨parent, hparent, hrest⟩ := Option.bind_eq_some_iff.mp h
        exact ih ((hc id hid).parent parent hparent) hrest

theorem following? (h : store.following? id = some link) : inside link := hc.followingFrom hid h

theorem precedingFrom (h : store.precedingFrom fuel id = some link) : inside link := by
  induction fuel generalizing id with
  | zero => cases h
  | succ fuel ih =>
      rw [Store.precedingFrom] at h
      split at h
      · rename_i left hleft
        exact Option.some_inj.mp h ▸ (hc id hid).left left hleft
      · obtain ⟨parent, hparent, hrest⟩ := Option.bind_eq_some_iff.mp h
        exact ih ((hc id hid).parent parent hparent) hrest

theorem firstLeafBelow (h : store.firstLeafBelow fuel id = some link) : inside link := by
  induction fuel generalizing id with
  | zero => cases h
  | succ fuel ih =>
      rw [Store.firstLeafBelow] at h
      split at h
      · exact Option.some_inj.mp h ▸ hid
      · obtain ⟨child, hchild, hrest⟩ := List.exists_of_findSome?_eq_some h
        exact ih ((hc id hid).children child hchild) hrest

theorem lastLeafBelow (h : store.lastLeafBelow fuel id = some link) : inside link := by
  induction fuel generalizing id with
  | zero => cases h
  | succ fuel ih =>
      rw [Store.lastLeafBelow] at h
      split at h
      · exact Option.some_inj.mp h ▸ hid
      · obtain ⟨child, hchild, hrest⟩ := List.exists_of_findSome?_eq_some h
        exact ih ((hc id hid).children child (List.mem_reverse.mp hchild)) hrest

theorem leafUpToFrom (h : store.leafUpToFrom fuel id = some link) : inside link := by
  induction fuel generalizing id with
  | zero => cases h
  | succ fuel ih =>
      rw [Store.leafUpToFrom] at h
      split at h
      · rename_i leaf hleaf
        exact Option.some_inj.mp h ▸ hc.lastLeafBelow hid hleaf
      · obtain ⟨before, hbefore, hrest⟩ := Option.bind_eq_some_iff.mp h
        exact ih (hc.precedingFrom hid hbefore) hrest

theorem leavesBelow (h : link ∈ store.leavesBelow fuel id) : inside link := by
  induction fuel generalizing id with
  | zero => cases h
  | succ fuel ih =>
      rw [Store.leavesBelow] at h
      split at h
      · exact List.mem_singleton.mp h ▸ hid
      · obtain ⟨child, hchild, hrest⟩ := List.mem_flatMap.mp h
        exact ih ((hc id hid).children child hchild) hrest

end Closed

end Store

end IncrementalLR
