import IncrementalLR.Proofs.Tree.Evolution
import IncrementalLR.Proofs.Tree.Preceding

namespace IncrementalLR

namespace Store

variable {store other result : Store} {id anchor new child parent root : Nat} {gap : Gap} {tree : Tree} {fresh : Label}

section

variable {change : Attributes → Attributes} {ids : Option Nat} {deleted : Bool} {node : Nat}

@[simp] theorem deleted_revise : ((store.revise id change).node node).deleted = (store.node node).deleted := by
  rw [revise, node_update]
  split <;> rfl

@[simp] theorem deleted_reviseAll : ((store.reviseAll ids change).node node).deleted = (store.node node).deleted := by
  cases ids with
  | none => rfl
  | some id => exact deleted_revise

theorem deleted_setDeleted_ne (hne : node ≠ id) :
    ((store.setDeleted id deleted).node node).deleted = (store.node node).deleted := by
  rw [setDeleted, node_update_ne _ hne]

@[simp] theorem deleted_threadIn : ((store.threadIn anchor new).node id).deleted = (store.node id).deleted := by
  unfold threadIn
  split
  · simp
  · rfl

@[simp] theorem deleted_threadOut : ((store.threadOut child).node id).deleted = (store.node id).deleted := by
  unfold threadOut
  split
  · simp
  · rfl

theorem deleted_insertAfter? (h : store.insertAfter? parent anchor new = some result) (hne : id ≠ new) :
    (result.node id).deleted = (store.node id).deleted := by
  unfold insertAfter? at h
  split at h
  · cases h
  · obtain rfl := Option.some_inj.mp h
    rw [deleted_threadIn, deleted_reviseAll, deleted_revise, deleted_setDeleted_ne hne, deleted_revise, deleted_revise]

theorem deleted_removeChild? (h : store.removeChild? parent child = some result) (hne : id ≠ child) :
    (result.node id).deleted = (store.node id).deleted := by
  unfold removeChild? at h
  split at h
  · cases h
  · obtain rfl := Option.some_inj.mp h
    rw [deleted_threadOut, deleted_setDeleted_ne hne, deleted_reviseAll, deleted_reviseAll, deleted_revise]

-- Changes of other links.
theorem SameThread.revise (hs : store.SameThread other node)
    (hc : ∀ attributes, (change attributes).prevTerminal = attributes.prevTerminal ∧
      (change attributes).nextTerminal = attributes.nextTerminal) : store.SameThread (other.revise id change) node := by
  rw [SameThread, Store.revise, node_update]
  split
  · exact ⟨(hc _).1.trans hs.1, (hc _).2.trans hs.2⟩
  · exact hs

theorem SameThread.reviseAll (hs : store.SameThread other node)
    (hc : ∀ attributes, (change attributes).prevTerminal = attributes.prevTerminal ∧
      (change attributes).nextTerminal = attributes.nextTerminal) : store.SameThread (other.reviseAll ids change) node := by
  cases ids with
  | none => exact hs
  | some id => exact hs.revise hc

theorem SameThread.setDeleted (hs : store.SameThread other node) : store.SameThread (other.setDeleted id deleted) node := by
  rw [SameThread, Store.setDeleted, node_update]
  split
  · exact hs
  · exact hs

end

-- A child is linked to its neighbours before the thread is led through it, and unlinked
-- from them before it is taken off the thread.
theorem exists_threadIn (h : store.insertAfter? parent anchor new = some result) :
    ∃ linked : Store, linked.threadIn anchor new = result ∧ ∀ id, store.SameThread linked id := by
  unfold insertAfter? at h
  split at h
  · cases h
  · rename_i place _
    have hsame : ∀ id, store.SameThread ((((store.revise parent fun node =>
        { node with children := node.children.insertIdx (place + 1) new }).revise new fun node =>
        { node with parent := some parent, left := some anchor, right := (store.node anchor).right }).setDeleted new
        false).revise anchor fun node => { node with right := some new }) id := by
      intro id
      refine .revise (.setDeleted (.revise (.revise ⟨rfl, rfl⟩ ?_) ?_)) ?_
      all_goals exact fun _ => ⟨rfl, rfl⟩
    dsimp only at h
    generalize Store.revise (Store.setDeleted _ new false) anchor _ = placed at h hsame
    exact ⟨_, Option.some_inj.mp h, fun id => (hsame id).reviseAll fun _ => ⟨rfl, rfl⟩⟩

theorem exists_threadOut (h : store.removeChild? parent child = some result) :
    ∃ linked : Store, linked.threadOut child = result ∧ ∀ id, store.SameThread linked id := by
  unfold removeChild? at h
  split at h
  · cases h
  · rename_i place _
    dsimp only at h
    generalize hlisted : store.revise parent (fun node =>
      { node with children := node.children.eraseIdx place }) = listed at h
    have hsame : ∀ id, store.SameThread ((listed.reviseAll (listed.node child).left fun node =>
        { node with right := (listed.node child).right }).reviseAll (listed.node child).right fun node =>
        { node with left := (listed.node child).left }) id := by
      intro id
      refine .reviseAll (.reviseAll (hlisted ▸ .revise ⟨rfl, rfl⟩ ?_) ?_) ?_
      all_goals exact fun _ => ⟨rfl, rfl⟩
    generalize Store.reviseAll _ (listed.node child).right _ = placed at h hsame
    exact ⟨_, Option.some_inj.mp h, fun id => (hsame id).setDeleted⟩

namespace Planted

-- The thread over the leaves is led through a leaf that is put in behind a subtree.
theorem threads_insert (hp : store.Planted root (gap.fill tree.forest)) (hnew : new ∉ root :: (gap.fill tree.forest).ids)
    (hlt : new < store.size) (hfresh : store.Holds (.leaf new fresh)) (hne : gap.leading ++ tree.forest.leaves ≠ [])
    (ht : store.Threads none none ((gap.fill tree.forest).leaves.map Prod.fst))
    (h : store.insertAfter? (gap.parent root) tree.id new = some result) :
    result.Threads none none ((gap.fill (tree.before (.leaf new fresh .nil))).leaves.map Prod.fst) := by
  obtain ⟨placed, hplaced, -, hplanted, -⟩ := hp.insert hnew hlt hfresh
  obtain rfl := Option.some_inj.mp (hplaced.symm.trans h)
  obtain ⟨linked, rfl, hsame⟩ := exists_threadIn h
  have hlinked : linked.Planted root (gap.fill (tree.before (.leaf new fresh .nil))) :=
    hplanted.congr (Nat.le_of_eq size_threadIn) fun id _ => view_threadIn.symm
  have hanchor : gap.fill (tree.before (.leaf new fresh .nil)) =
      (gap.inner (.top .nil (.leaf new fresh .nil))).fill tree.forest := by
    rw [Gap.fill_inner, Gap.fill, Forest.nil_append, Tree.forest_append]
  have hleaf : gap.fill (tree.before (.leaf new fresh .nil)) =
      (gap.inner (.top tree.forest .nil)).fill (Tree.leaf new fresh).forest := by
    rw [Gap.fill_inner, Gap.fill, Forest.append_nil, Tree.forest_append]
    rfl
  have hleaves : linked.leaves new = [new] := by
    rw [hleaf] at hlinked
    exact hlinked.leaves_subtree
  have hupTo : linked.leafUpTo? tree.id = ((gap.leading ++ tree.forest.leaves).map Prod.fst).getLast? := by
    have hleading : (gap.inner (.top .nil (.leaf new fresh .nil))).leading = gap.leading :=
      Gap.leading_inner.trans (List.append_nil _)
    rw [hanchor] at hlinked
    rw [hlinked.leafUpTo? (hleading.symm ▸ hne), hleading]
  have hold : (gap.fill tree.forest).leaves.map Prod.fst =
      (gap.leading ++ tree.forest.leaves).map Prod.fst ++ gap.trailing.map Prod.fst := by
    rw [Gap.leaves_fill, ← List.append_assoc, List.map_append]
  have hall : (gap.fill (tree.before (.leaf new fresh .nil))).leaves.map Prod.fst =
      (gap.leading ++ tree.forest.leaves).map Prod.fst ++ new :: gap.trailing.map Prod.fst := by
    rw [Gap.leaves_fill, ← Tree.forest_append, Forest.leaves_append]
    simp [Forest.leaves]
  have hn := (List.nodup_cons.mp hlinked.nodup).2.sublist Forest.leaves_sublist
  have hsize : ∀ id ∈ (gap.fill (tree.before (.leaf new fresh .nil))).leaves.map Prod.fst, id < linked.size :=
    fun id hid => hlinked.lt_size id (List.mem_cons_of_mem _ (Forest.leaves_sublist.subset hid))
  rw [hall] at hn hsize ⊢
  rw [hold] at ht
  exact threads_threadIn (ht.congr fun id _ => hsame id) hleaves hupTo (fun hnil => hne (List.map_eq_nil_iff.mp hnil)) hn hsize

-- And past the leaves of a subtree that is taken out.
theorem threads_remove (hp : store.Planted root (gap.fill tree.forest))
    (ht : store.Threads none none ((gap.fill tree.forest).leaves.map Prod.fst))
    (h : store.removeChild? (gap.parent root) tree.id = some result) :
    result.Threads none none ((gap.fill .nil).leaves.map Prod.fst) := by
  obtain ⟨placed, hplaced, hsize, hbelow, hplanted, -⟩ := hp.remove
  obtain rfl := Option.some_inj.mp (hplaced.symm.trans h)
  obtain ⟨linked, rfl, hsame⟩ := exists_threadOut h
  rw [size_threadOut] at hsize
  have hleaves : linked.leaves tree.id = tree.forest.leaves.map Prod.fst := by
    have hkept : linked.Kept tree.forest := hp.kept.congr hp.subtree_nodup fun id hid => view_threadOut.symm.trans (hbelow id hid)
    have hlength := length_le_size hp.subtree_nodup hp.subtree_lt
    rw [← hsize] at hlength
    have hall := hkept.leaves hlength
    rwa [Tree.roots_forest, List.flatMap_singleton] at hall
  have hn := (List.nodup_cons.mp hp.nodup).2.sublist Forest.leaves_sublist
  have hlt : ∀ id ∈ (gap.fill tree.forest).leaves.map Prod.fst, id < linked.size :=
    fun id hid => hsize ▸ hp.lt_size id (List.mem_cons_of_mem _ (Forest.leaves_sublist.subset hid))
  rw [Gap.leaves_fill, List.map_append, List.map_append] at ht hn hlt
  rw [Gap.leaves_fill, Forest.leaves, List.nil_append, List.map_append]
  exact threads_threadOut (ht.congr fun id _ => hsame id) hleaves hn hlt

end Planted

end Store

end IncrementalLR
