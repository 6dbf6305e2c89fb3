import IncrementalLR.Proofs.Tree.Cursor

namespace IncrementalLR

namespace Store

-- A tree that is divided into what has been taken out of it and what is still to
-- come.
structure Divides (store : Store) (root : Nat) (taken ahead : Forest) : Prop where
  kept : store.Kept taken
  faces : store.Faces root taken.ids ahead

namespace Divides

variable {store other : Store} {root : Nat} {taken ahead after : Forest} {tree : Tree}

theorem nodup (hd : store.Divides root taken ahead) : taken.ids.Nodup :=
  (List.nodup_append.mp hd.faces.nodup).1

theorem lt_size (hd : store.Divides root taken ahead) : ∀ id ∈ taken.ids, id < store.size :=
  fun id h => hd.faces.lt_size id (List.mem_append_left _ h)

theorem holds (hd : store.Divides root taken (tree.before after)) : store.Holds tree :=
  (kept_before.mp hd.faces.kept).1

theorem congr (hd : store.Divides root taken ahead) (hsize : other.size = store.size)
    (hv : ∀ id, other.view id = store.view id) : other.Divides root taken ahead := by
  refine ⟨hd.kept.congr hd.nodup fun id _ => hv id,
    hd.faces.congr (Nat.le_of_eq hsize.symm) (fun id _ _ => ?_) fun id _ => hv id⟩
  rw [hv]

-- The same nodes may make up other trees.
theorem regroup {others : Forest} (hd : store.Divides root taken ahead) (hk : store.Kept others)
    (hs : others.ids.Sublist taken.ids) : store.Divides root others ahead :=
  ⟨hk, hd.faces.subset (hd.nodup.sublist hs) hs.subset⟩

-- The first tree is taken out, with a change of its root.
theorem take {changed : Tree} (hd : store.Divides root taken (tree.before after))
    (hsize : other.size = store.size) (hv : ∀ id, id ≠ tree.id → other.view id = store.view id)
    (hh : other.Holds changed) (hids : changed.forest.ids = tree.forest.ids) :
    other.Divides root (taken ++ changed.forest) after := by
  have hroot : tree.id ∈ (tree.before after).ids := by
    rw [Tree.ids_before]
    exact List.mem_append_left _ tree.id_mem_ids
  have hne : ∀ id, id ∉ tree.forest.ids ++ taken.ids → id ≠ tree.id := by
    rintro id h rfl
    exact h (List.mem_append_left _ tree.id_mem_ids)
  refine ⟨kept_append.mpr ⟨hd.kept.congr hd.nodup fun id h => hv id ?_, kept_forest.mpr hh⟩, ?_⟩
  · rintro rfl
    exact hd.faces.not_mem_taken hroot h
  · rw [Forest.ids_append, hids]
    have htake := hd.faces.take
    refine (htake.congr (Nat.le_of_eq hsize.symm) (fun id _ h => ?_) fun id h => hv id ?_).perm
      List.perm_append_comm
    · rw [hv id (hne id h)]
    · exact hne id (htake.not_mem_taken h)

-- The first tree is replaced by what is below it.
theorem down {id : Nat} {symbol : Symbol} {changed : Bool} {below : Forest}
    (hd : store.Divides root taken (.node id symbol changed below after))
    (hsize : other.size = store.size)
    (hv : ∀ other', other' ≠ id → other.view other' = store.view other')
    (hflag : (other.view id).parsed = (store.view id).parsed) :
    other.Divides root taken (below ++ after) := by
  have hn := (List.nodup_append.mp hd.faces.nodup).2.1
  have hid : id ∉ (below ++ after).ids := by
    rw [Forest.ids_append]
    exact (List.nodup_cons.mp hn).1
  refine ⟨hd.kept.congr hd.nodup fun other' h => hv other' ?_,
    hd.faces.down.congr (Nat.le_of_eq hsize.symm) (fun other' _ _ => ?_) fun other' h => hv other' ?_⟩
  · rintro rfl
    exact hd.faces.not_mem_taken List.mem_cons_self h
  · by_cases he : other' = id
    · exact he ▸ hflag
    · rw [hv other' he]
  · rintro rfl
    exact hid h

-- The last trees of those taken out come below a new node.
theorem gather {symbol : Symbol} {children : Forest} (hd : store.Divides root (taken ++ children) ahead)
    (hs : symbol.isNonterminal = true) :
    (store.allocateNode symbol children.roots).1.Divides root
      (taken ++ (Tree.node store.size symbol false children).forest) ahead := by
  obtain ⟨htaken, hchildren⟩ := kept_append.mp hd.kept
  have hn := hd.nodup
  have hlt := hd.lt_size
  rw [Forest.ids_append] at hn hlt
  obtain ⟨hntaken, hnchildren, hapart⟩ := List.nodup_append.mp hn
  obtain ⟨hholds, hself, hframe⟩ := holds_allocateNode hchildren hnchildren
    (fun id h => hlt id (List.mem_append_right _ h)) hs
  have hview : ∀ id, id < store.size → id ∉ children.ids →
      (store.allocateNode symbol children.roots).1.view id = store.view id :=
    fun id h hid => hframe id (fun hr => hid (Forest.mem_ids_of_roots hr)) h
  refine ⟨kept_append.mpr ⟨htaken.congr hntaken fun id h => hview id ?_ fun hc => ?_,
    kept_forest.mpr hholds⟩, ?_⟩
  · exact hlt id (List.mem_append_left _ h)
  · exact hapart id h id hc rfl
  · have hids : (taken ++ (Tree.node store.size symbol false children).forest).ids =
        taken.ids ++ store.size :: children.ids := by
      rw [Forest.ids_append]
      simp [Tree.forest, Tree.before, Forest.ids]
    have hfresh := hd.faces.fresh (.new symbol none "")
    rw [Forest.ids_append] at hfresh
    refine (hfresh.congr (by simp) (fun id h hid => ?_) fun id h => ?_).perm ?_
    · rw [size_push] at h
      simp only [List.mem_cons, List.mem_append, not_or] at hid
      have hlt : id < store.size := by omega
      rw [hview id hlt hid.2.2, view_push_lt _ hlt]
    · have hid := hfresh.not_mem_taken h
      have hlt := hd.faces.lt_size id (List.mem_append_right _ h)
      simp only [List.mem_cons, List.mem_append, not_or] at hid
      rw [hview id hlt hid.2.2, view_push_lt _ hlt]
    · rw [hids]
      exact List.perm_middle

end Divides

-- Whether a forest is below a root with nothing above it or next to it.
structure Planted (store : Store) (root : Nat) (forest : Forest) : Prop where
  label : (store.view root).label.parsed = Document.rootLabel
  parent : (store.view root).parent = none
  right : (store.view root).right = none
  children : (store.view root).children = forest.roots
  linked : store.Linked root none forest
  nodup : (root :: forest.ids).Nodup
  lt_size : ∀ id ∈ root :: forest.ids, id < store.size

namespace Planted

variable {store other : Store} {root : Nat} {forest after : Forest} {tree : Tree}

theorem faces (hp : store.Planted root forest) : store.Faces root [] forest := by
  refine ⟨[⟨root, forest⟩], .root hp.label hp.parent hp.right hp.linked, ?_, ?_, ?_⟩
  · simp [Level.ahead]
  · exact hp.nodup
  · exact hp.lt_size

theorem following? (hp : store.Planted root (tree.before after)) : store.following? tree.id = after.roots.head? :=
  hp.faces.following?

-- The tree as a parse finds it behind the first child.
theorem divides (hp : store.Planted root (tree.before after)) : store.Divides root tree.forest after := by
  refine ⟨kept_forest.mpr (kept_before.mp hp.linked.kept).1, ?_⟩
  have htake := hp.faces.take
  rwa [List.append_nil] at htake

-- What a store holds of the trees is left alone by whatever changes no view of them.
theorem congr (hp : store.Planted root forest) (hsize : store.size ≤ other.size)
    (hv : ∀ id ∈ root :: forest.ids, other.view id = store.view id) : other.Planted root forest := by
  have hroot := hv root List.mem_cons_self
  exact ⟨hroot ▸ hp.label, hroot ▸ hp.parent, hroot ▸ hp.right, hroot ▸ hp.children,
    hp.linked.congr fun id h => hv id (List.mem_cons_of_mem _ h), hp.nodup,
    fun id h => Nat.lt_of_lt_of_le (hp.lt_size id h) hsize⟩

theorem root_lt (hp : store.Planted root forest) : root < store.size := hp.lt_size _ List.mem_cons_self

theorem not_isLeaf (hp : store.Planted root forest) : (store.node root).isLeaf = false := by
  rw [Node.isLeaf, show (store.node root).symbol = Document.rootSymbol from congrArg Label.symbol hp.label]
  rfl

-- What is copied from the root on.
theorem snapshot (hp : store.Planted root forest) :
    store.snapshot root = .node Document.rootSymbol "" forest.snapshots := by
  have hlength := length_le_size hp.nodup hp.lt_size
  obtain ⟨fuel, hfuel⟩ := Nat.exists_eq_add_of_le' (Nat.le_trans (Nat.le_add_left 1 _) hlength)
  have hsnapshots := @Kept.snapshots store _ hp.linked.kept fuel (by simp at hlength; omega)
  have hsymbol : (store.node root).symbol = Document.rootSymbol := congrArg Label.symbol hp.label
  have htext : (store.node root).text = "" := congrArg Label.text hp.label
  have hchildren : (store.node root).children = forest.roots := hp.children
  rw [Store.snapshot, hfuel, snapshotBelow]
  simp only [hsymbol, htext, hchildren, hsnapshots]

end Planted

-- The same for a root that is not embedded.
structure Rooted (store : Store) (root : Nat) (forest : Forest) : Prop extends Planted store root forest where
  host : (store.view root).host = none

-- What was taken out and what is still to come may be put below the root again.
theorem Divides.plant {store : Store} {root : Nat} {taken ahead : Forest} (hd : store.Divides root taken ahead) :
    ((store.setChildren root (taken ++ ahead).roots).setChanged root false).Planted root (taken ++ ahead) ∧
      (((store.setChildren root (taken ++ ahead).roots).setChanged root false).node root).changed = false := by
  obtain ⟨levels, hc, hahead, hn, hlt⟩ := hd.faces
  have hroot := hc.root_mem
  have hrootlt := hlt _ (List.mem_append_right _ (List.mem_append_left _ hroot))
  obtain ⟨hlabel, hparent, hright⟩ := hc.root_view
  have hnodup := hd.faces.nodup
  have hltids := hd.faces.lt_size
  rw [← Forest.ids_append] at hnodup hltids
  have hnot : root ∉ (taken ++ ahead).ids := by
    obtain ⟨-, hrest, hapart⟩ := List.nodup_append.mp hn
    rw [Forest.ids_append, List.mem_append]
    rintro (h | h)
    · exact hapart _ h _ (List.mem_append_left _ hroot) rfl
    · exact (List.nodup_append.mp hrest).2.2 _ hroot _ h rfl
  obtain ⟨hlinks, hself, hframe⟩ :=
    linked_setChildren (kept_append.mpr ⟨hd.kept, hd.faces.kept⟩) hnodup hltids hnot hrootlt
  have hview : ((store.setChildren root (taken ++ ahead).roots).setChanged root false).view root =
      { store.view root with label := Document.rootLabel, children := (taken ++ ahead).roots } := by
    rw [view_setChanged, if_pos ⟨rfl, by simpa using hrootlt⟩, hself, ← hlabel]
    rfl
  refine ⟨⟨?_, ?_, ?_, ?_, ?_, List.nodup_cons.mpr ⟨hnot, hnodup⟩, fun id h => ?_⟩, ?_⟩
  · rw [hview]
    rfl
  · rw [hview]
    exact hparent
  · rw [hview]
    exact hright
  · rw [hview]
  · refine hlinks.congr fun id h => view_setChanged_ne _ ?_
    rintro rfl
    exact hnot h
  · rw [size_setChanged, size_setChildren]
    rcases List.mem_cons.mp h with rfl | h
    · exact hrootlt
    · exact hltids id h
  · exact congrArg (fun view => view.label.changed) hview

end Store

end IncrementalLR
