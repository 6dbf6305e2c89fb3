import IncrementalLR.Proofs.Tree.Forest
import Mathlib.Data.List.Nodup
import Mathlib.Data.List.Perm.Subperm

namespace IncrementalLR

namespace Store

-- Whether the nodes of a forest are linked to a parent, to one another, and to
-- what is below them. To the left of them may be a neighbour.
def Linked (store : Store) : Nat → Option Nat → Forest → Prop
  | _, _, .nil => True
  | parent, left, .leaf id label after =>
      store.view id = ⟨label, [], some parent, left, after.roots.head?, (store.view id).host⟩ ∧
        label.symbol.isNonterminal = false ∧ store.Linked parent (some id) after
  | parent, left, .node id symbol changed below after =>
      store.view id =
          ⟨⟨symbol, none, "", changed⟩, below.roots, some parent, left, after.roots.head?,
            (store.view id).host⟩ ∧
        symbol.isNonterminal = true ∧ store.Linked id none below ∧
        store.Linked parent (some id) after

-- Whether a node is linked to what is below it, wherever it stands itself.
def Holds (store : Store) : Tree → Prop
  | .leaf id label =>
      (store.view id).label = label ∧ (store.view id).children = [] ∧
        label.symbol.isNonterminal = false
  | .node id symbol changed below =>
      (store.view id).label = ⟨symbol, none, "", changed⟩ ∧
        (store.view id).children = below.roots ∧ symbol.isNonterminal = true ∧
        store.Linked id none below

-- The same for all trees of a forest.
def Kept (store : Store) : Forest → Prop
  | .nil => True
  | .leaf id label after => store.Holds (.leaf id label) ∧ store.Kept after
  | .node id symbol changed below after => store.Holds (.node id symbol changed below) ∧ store.Kept after

variable {store other : Store} {forest second after : Forest} {tree : Tree} {parent : Nat}
  {left : Option Nat}

theorem linked_before :
    store.Linked parent left (tree.before after) ↔
      store.Holds tree ∧ (store.view tree.id).parent = some parent ∧
        (store.view tree.id).left = left ∧ (store.view tree.id).right = after.roots.head? ∧
        store.Linked parent (some tree.id) after := by
  cases tree with
  | leaf id label =>
      simp only [Tree.before, Linked, Holds, Tree.id]
      constructor
      · rintro ⟨hview, hleaf, hafter⟩
        exact ⟨⟨congrArg View.label hview, congrArg View.children hview, hleaf⟩,
          congrArg View.parent hview, congrArg View.left hview, congrArg View.right hview, hafter⟩
      · rintro ⟨⟨hlabel, hchildren, hleaf⟩, hparent, hleft, hright, hafter⟩
        refine ⟨?_, hleaf, hafter⟩
        rw [← hlabel, ← hchildren, ← hparent, ← hleft, ← hright]
  | node id symbol changed below =>
      simp only [Tree.before, Linked, Holds, Tree.id]
      constructor
      · rintro ⟨hview, hnode, hbelow, hafter⟩
        exact ⟨⟨congrArg View.label hview, congrArg View.children hview, hnode, hbelow⟩,
          congrArg View.parent hview, congrArg View.left hview, congrArg View.right hview, hafter⟩
      · rintro ⟨⟨hlabel, hchildren, hnode, hbelow⟩, hparent, hleft, hright, hafter⟩
        refine ⟨?_, hnode, hbelow, hafter⟩
        rw [← hlabel, ← hchildren, ← hparent, ← hleft, ← hright]

theorem kept_before : store.Kept (tree.before after) ↔ store.Holds tree ∧ store.Kept after := by
  cases tree with
  | leaf id label => rfl
  | node id symbol changed below => rfl

theorem kept_forest : store.Kept tree.forest ↔ store.Holds tree := by
  rw [Tree.forest, kept_before]
  exact and_iff_left trivial

theorem kept_append : store.Kept (forest ++ second) ↔ store.Kept forest ∧ store.Kept second := by
  induction forest using Forest.spine_induction with
  | nil => exact (and_iff_right trivial).symm
  | before tree after ih =>
      rw [← Tree.forest_append, Forest.append_assoc, Tree.forest_append, Tree.forest_append,
        kept_before, kept_before, ih, and_assoc]

theorem Linked.congr (hl : store.Linked parent left forest)
    (hv : ∀ id ∈ forest.ids, other.view id = store.view id) : other.Linked parent left forest := by
  induction forest generalizing parent left with
  | nil => trivial
  | leaf id label after ih =>
      obtain ⟨hview, hleaf, hafter⟩ := hl
      refine ⟨?_, hleaf, ih hafter fun id h => hv id ?_⟩
      · rw [hv id (by simp [Forest.ids])]
        exact hview
      exact List.mem_cons_of_mem _ h
  | node id symbol changed below after ihbelow ih =>
      obtain ⟨hview, hnode, hbelow, hafter⟩ := hl
      refine ⟨?_, hnode, ihbelow hbelow fun id h => hv id ?_, ih hafter fun id h => hv id ?_⟩
      · rw [hv id (by simp [Forest.ids])]
        exact hview
      · exact List.mem_cons_of_mem _ (List.mem_append_left _ h)
      · exact List.mem_cons_of_mem _ (List.mem_append_right _ h)

-- A tree stays as it is while nothing below it changes, and neither the label nor
-- the children of its root.
theorem Holds.congr (hh : store.Holds tree) (hlabel : (other.view tree.id).label = (store.view tree.id).label)
    (hchildren : (other.view tree.id).children = (store.view tree.id).children)
    (hv : ∀ id ∈ tree.forest.ids, id ≠ tree.id → other.view id = store.view id)
    (hn : tree.forest.ids.Nodup) : other.Holds tree := by
  cases tree with
  | leaf id label =>
      obtain ⟨hl, hc, hleaf⟩ := hh
      exact ⟨hlabel.trans hl, hchildren.trans hc, hleaf⟩
  | node id symbol changed below =>
      obtain ⟨hl, hc, hnode, hbelow⟩ := hh
      refine ⟨hlabel.trans hl, hchildren.trans hc, hnode, hbelow.congr fun other h => hv other ?_ ?_⟩
      · exact List.mem_cons_of_mem _ (List.mem_append_left _ h)
      · rintro rfl
        exact (List.nodup_cons.mp hn).1 (List.mem_append_left _ h)

theorem Holds.of_view (hh : store.Holds tree) (hv : ∀ id, other.view id = store.view id) :
    other.Holds tree := by
  cases tree with
  | leaf id label =>
      rw [Holds, hv]
      exact hh
  | node id symbol changed below =>
      rw [Holds, hv]
      exact ⟨hh.1, hh.2.1, hh.2.2.1, hh.2.2.2.congr fun id _ => hv id⟩

theorem Kept.congr (hk : store.Kept forest) (hn : forest.ids.Nodup)
    (hv : ∀ id ∈ forest.ids, other.view id = store.view id) : other.Kept forest := by
  induction forest using Forest.spine_induction with
  | nil => trivial
  | before tree after ih =>
      rw [Tree.ids_before] at hn hv
      obtain ⟨hh, hafter⟩ := kept_before.mp hk
      have hroot := hv tree.id (List.mem_append_left _ Tree.id_mem_ids)
      refine kept_before.mpr ⟨hh.congr (by rw [hroot]) (by rw [hroot]) (fun id h _ => hv id ?_) ?_,
        ih hafter ?_ fun id h => hv id (List.mem_append_right _ h)⟩
      · exact List.mem_append_left _ h
      · exact (List.nodup_append.mp hn).1
      · exact (List.nodup_append.mp hn).2.1

theorem Kept.of_view (hk : store.Kept forest) (hv : ∀ id, other.view id = store.view id) :
    other.Kept forest := by
  induction forest using Forest.spine_induction with
  | nil => trivial
  | before tree after ih =>
      obtain ⟨hh, hafter⟩ := kept_before.mp hk
      exact kept_before.mpr ⟨hh.of_view hv, ih hafter⟩

theorem Linked.kept (hl : store.Linked parent left forest) : store.Kept forest := by
  induction forest using Forest.spine_induction generalizing left with
  | nil => trivial
  | before tree after ih =>
      obtain ⟨hh, -, -, -, hafter⟩ := linked_before.mp hl
      exact kept_before.mpr ⟨hh, ih hafter⟩

theorem Kept.leaf (hk : store.Kept forest) {entry : Nat × Label} (h : entry ∈ forest.leaves) :
    store.Holds (.leaf entry.1 entry.2) := by
  induction forest with
  | nil => cases h
  | leaf id label after ih =>
      rcases List.mem_cons.mp h with rfl | h
      · exact hk.1
      · exact ih hk.2 h
  | node id symbol changed below after ihbelow ih =>
      rcases List.mem_append.mp h with h | h
      · exact ihbelow hk.1.2.2.2.kept h
      · exact ih hk.2 h

theorem Kept.label (hk : store.Kept forest) {entry : Nat × Label} (h : entry ∈ forest.leaves) :
    (store.view entry.1).label = entry.2 := (hk.leaf h).1

theorem Holds.isLeaf {id : Nat} {label : Label} (hh : store.Holds (.leaf id label)) : (store.node id).isLeaf = true := by
  rw [Node.isLeaf, show (store.node id).symbol = label.symbol from congrArg Label.symbol hh.1, hh.2.2]
  rfl

theorem Holds.not_isLeaf {id : Nat} {symbol : Symbol} {changed : Bool} {below : Forest}
    (hh : store.Holds (.node id symbol changed below)) : (store.node id).isLeaf = false := by
  rw [Node.isLeaf, show (store.node id).symbol = symbol from congrArg Label.symbol hh.1, hh.2.2.1]
  rfl

-- Nodes that each occur once are no more than the store has.
theorem length_le_size {ids : List Nat} (hn : ids.Nodup) (hlt : ∀ id ∈ ids, id < store.size) :
    ids.length ≤ store.size := by
  have hsub := (List.subperm_of_subset hn fun id h => List.mem_range.mpr (hlt id h)).length_le
  rwa [List.length_range] at hsub

-- What is copied from the trees of a store.
theorem Kept.snapshots (hk : store.Kept forest) {fuel : Nat} (hf : forest.ids.length ≤ fuel) :
    forest.roots.map (store.snapshotBelow fuel) = forest.snapshots := by
  induction forest generalizing fuel with
  | nil => rfl
  | leaf id label after ih =>
      obtain ⟨⟨rfl, hchildren, -⟩, hafter⟩ := hk
      rw [Forest.ids, List.length_cons] at hf
      obtain ⟨fuel, rfl⟩ := Nat.exists_eq_add_of_le' (Nat.le_trans (Nat.le_add_left 1 _) hf)
      have hnone : (store.node id).children = [] := hchildren
      rw [Forest.roots, List.map_cons, ih hafter (by omega), snapshotBelow]
      simp only [hnone, List.map_nil]
      rfl
  | node id symbol changed below after ihbelow ih =>
      obtain ⟨⟨hlabel, hchildren, -, hbelow⟩, hafter⟩ := hk
      rw [Forest.ids, List.length_cons, List.length_append] at hf
      obtain ⟨fuel, rfl⟩ := Nat.exists_eq_add_of_le' (Nat.le_trans (Nat.le_add_left 1 _) hf)
      have hsymbol : (store.node id).symbol = symbol := congrArg Label.symbol hlabel
      have htext : (store.node id).text = "" := congrArg Label.text hlabel
      have hroots : (store.node id).children = below.roots := hchildren
      rw [Forest.roots, List.map_cons, ih hafter (by omega), snapshotBelow]
      simp only [hsymbol, htext, hroots]
      rw [ihbelow hbelow.kept (by omega)]
      rfl

-- The leaves below the trees of a store.
theorem Kept.leaves (hk : store.Kept forest) {fuel : Nat}
    (hf : forest.ids.length ≤ fuel) :
    forest.roots.flatMap (store.leavesBelow fuel) = forest.leaves.map Prod.fst := by
  induction forest generalizing fuel with
  | nil => rfl
  | leaf id label after ih =>
      rw [Forest.ids, List.length_cons] at hf
      obtain ⟨fuel, rfl⟩ := Nat.exists_eq_add_of_le' (Nat.le_trans (Nat.le_add_left 1 _) hf)
      rw [Forest.roots, List.flatMap_cons, ih hk.2 (by omega), leavesBelow, if_pos hk.1.isLeaf]
      rfl
  | node id symbol changed below after ihbelow ih =>
      rw [Forest.ids, List.length_cons, List.length_append] at hf
      obtain ⟨fuel, rfl⟩ := Nat.exists_eq_add_of_le' (Nat.le_trans (Nat.le_add_left 1 _) hf)
      have hroots : (store.node id).children = below.roots := hk.1.2.1
      have hbelow := @ihbelow hk.1.2.2.2.kept fuel (by omega)
      rw [Forest.roots, List.flatMap_cons, ih hk.2 (by omega), leavesBelow, if_neg (ne_true_of_eq_false hk.1.not_isLeaf),
        hroots, hbelow, Forest.leaves, List.map_append]

section Links

variable {id : Nat}

theorem view_linkChild {child : Nat} :
    (store.revise child fun node =>
      { node with parent := some parent, left := left, right := none }).view id =
      if id = child ∧ child < store.size then
        { store.view id with parent := some parent, left := left, right := none }
      else store.view id := by
  rw [view, revise, node_update]
  split
  · rfl
  · rfl

theorem view_linkRight {child : Nat} :
    (store.reviseAll left fun node => { node with right := some child }).view id =
      if left = some id ∧ id < store.size then { store.view id with right := some child }
      else store.view id := by
  cases left with
  | none =>
      rw [if_neg fun h => nomatch h.1]
      rfl
  | some left =>
      rw [reviseAll, revise, view, node_update]
      by_cases he : id = left
      · subst he
        simp only [true_and]
        split
        · rfl
        · rfl
      · rw [if_neg fun h => he h.1, if_neg fun h => he (Option.some_inj.mp h.1).symm]
        rfl

@[simp] theorem size_linkChildren {children : List Nat} :
    (linkChildren parent left children store).size = store.size := by
  induction children generalizing left store with
  | nil => rfl
  | cons child rest ih => simp only [linkChildren, ih, size_reviseAll, size_revise]

-- The trees of a forest are linked to one another. Of other nodes only the right
-- link of the neighbour changes.
theorem linked_linkChildren (hk : store.Kept forest) (hn : forest.ids.Nodup)
    (hlt : ∀ id ∈ forest.ids, id < store.size) (hleft : ∀ id ∈ forest.ids, left ≠ some id)
    (hsize : ∀ id, left = some id → id < store.size) :
    (linkChildren parent left forest.roots store).Linked parent left forest ∧
      (∀ id, left = some id → (linkChildren parent left forest.roots store).view id =
        { store.view id with right := forest.roots.head?.or (store.view id).right }) ∧
      ∀ id, id ∉ forest.roots → left ≠ some id →
        (linkChildren parent left forest.roots store).view id = store.view id := by
  induction forest using Forest.spine_induction generalizing left store with
  | nil => exact ⟨trivial, fun id _ => rfl, fun id _ _ => rfl⟩
  | before tree after ih =>
      rw [Tree.ids_before] at hn hlt hleft
      obtain ⟨hh, hafter⟩ := kept_before.mp hk
      obtain ⟨hntree, hnafter, hapart⟩ := List.nodup_append.mp hn
      have hroot := List.mem_append_left after.ids tree.id_mem_ids
      rw [Tree.roots_before, linkChildren]
      set linked := (store.revise tree.id fun node =>
        { node with parent := some parent, left := left, right := none }).reviseAll left
          fun node => { node with right := some tree.id } with hlinked
      have hview : ∀ id, linked.view id =
          if left = some id then { store.view id with right := some tree.id }
          else if id = tree.id then
            { store.view id with parent := some parent, left := left, right := none }
          else store.view id := by
        intro id
        rw [hlinked, view_linkRight, view_linkChild, size_revise]
        by_cases hl : left = some id
        · have hne : id ≠ tree.id := fun h => hleft tree.id hroot (h ▸ hl)
          rw [if_pos ⟨hl, hsize id hl⟩, if_pos hl, if_neg fun h => hne h.1]
        · rw [if_neg fun h => hl h.1, if_neg hl]
          by_cases he : id = tree.id
          · rw [if_pos ⟨he, hlt _ hroot⟩, if_pos he]
          · rw [if_neg fun h => he h.1, if_neg he]
      have hother : ∀ id, left ≠ some id → id ≠ tree.id → linked.view id = store.view id :=
        fun id hl he => by rw [hview, if_neg hl, if_neg he]
      have hneafter : ∀ id ∈ after.ids, id ≠ tree.id := fun id h he =>
        hapart tree.id tree.id_mem_ids id h he.symm
      have hsizes : linked.size = store.size := by simp [hlinked]
      obtain ⟨hlinks, hneighbour, hframe⟩ := @ih linked (some tree.id)
        (hafter.congr hnafter fun id h =>
          hother id (hleft id (List.mem_append_right _ h)) (hneafter id h)) hnafter
        (fun id h => hsizes ▸ hlt id (List.mem_append_right _ h))
        (fun id h he => hneafter id h (Option.some_inj.mp he).symm)
        (fun id h => hsizes ▸ Option.some_inj.mp h ▸ hlt _ hroot)
      have hself := hneighbour tree.id rfl
      rw [hview, if_neg (hleft _ hroot), if_pos rfl] at hself
      refine ⟨linked_before.mpr ⟨?_, by rw [hself], by rw [hself], ?_, hlinks⟩, fun id hl => ?_,
        fun id hid hl => ?_⟩
      · refine hh.congr (by rw [hself]) (by rw [hself]) (fun id h hne => ?_) hntree
        have hnot : id ∉ after.roots := fun hr => hapart id h id (Forest.mem_ids_of_roots hr) rfl
        rw [hframe id hnot fun he => hne (Option.some_inj.mp he).symm,
          hother id (hleft id (List.mem_append_left _ h)) hne]
      · rw [hself]
        simp
      · have hne : id ∉ tree.forest.ids ++ after.ids := fun h => hleft id h hl
        rw [hframe id (fun h => hne (List.mem_append_right _ (Forest.mem_ids_of_roots h)))
          (fun h => hne (Option.some_inj.mp h ▸ hroot)), hview, if_pos hl]
        simp
      · simp only [List.mem_cons, not_or] at hid
        rw [hframe id hid.2 fun he => hid.1 (Option.some_inj.mp he).symm, hother id hl hid.1]

theorem view_setChildren {children : List Nat} :
    (store.setChildren parent children).view id =
      if id = parent ∧ parent < store.size then
        { (linkChildren parent none children store).view id with children := children }
      else (linkChildren parent none children store).view id := by
  rw [setChildren, revise, view, node_update, size_linkChildren]
  by_cases he : id = parent
  · subst he
    split
    · rfl
    · rfl
  · rw [if_neg fun h => he h.1, if_neg fun h => he h.1]
    rfl

@[simp] theorem size_setChildren {children : List Nat} :
    (store.setChildren parent children).size = store.size := by
  simp [setChildren]

-- A parent apart from the trees takes them as its children.
theorem linked_setChildren (hk : store.Kept forest) (hn : forest.ids.Nodup)
    (hlt : ∀ id ∈ forest.ids, id < store.size) (hparent : parent ∉ forest.ids)
    (hsize : parent < store.size) :
    (store.setChildren parent forest.roots).Linked parent none forest ∧
      (store.setChildren parent forest.roots).view parent =
        { store.view parent with children := forest.roots } ∧
      ∀ id, id ∉ forest.roots → id ≠ parent →
        (store.setChildren parent forest.roots).view id = store.view id := by
  obtain ⟨hlinks, -, hframe⟩ := @linked_linkChildren store forest parent none hk hn hlt
    (fun _ _ => nofun) (fun _ => nofun)
  refine ⟨hlinks.congr fun id h => ?_, ?_, fun id hid hne => ?_⟩
  · rw [view_setChildren, if_neg]
    rintro ⟨rfl, -⟩
    exact hparent h
  · rw [view_setChildren, if_pos ⟨rfl, hsize⟩,
      hframe parent (fun h => hparent (Forest.mem_ids_of_roots h)) nofun]
  · rw [view_setChildren, if_neg fun h => hne h.1, hframe id hid nofun]

@[simp] theorem size_allocateNode {symbol : Symbol} {children : List Nat} :
    (store.allocateNode symbol children).1.size = store.size + 1 := by
  simp [allocateNode, allocate]

@[simp] theorem allocateNode_snd {symbol : Symbol} {children : List Nat} :
    (store.allocateNode symbol children).2 = store.size := rfl

-- A new node stands over the trees.
theorem holds_allocateNode {symbol : Symbol} (hk : store.Kept forest) (hn : forest.ids.Nodup)
    (hlt : ∀ id ∈ forest.ids, id < store.size) (hs : symbol.isNonterminal = true) :
    (store.allocateNode symbol forest.roots).1.Holds (.node store.size symbol false forest) ∧
      (store.allocateNode symbol forest.roots).1.view store.size =
        ⟨⟨symbol, none, "", false⟩, forest.roots, none, none, none, none⟩ ∧
      ∀ id, id ∉ forest.roots → id < store.size →
        (store.allocateNode symbol forest.roots).1.view id = store.view id := by
  have hfresh : store.size ∉ forest.ids := fun h => Nat.lt_irrefl _ (hlt _ h)
  have hpush : ∀ id, id < store.size → (store.push (.new symbol none "")).view id = store.view id :=
    fun id h => view_push_lt _ h
  obtain ⟨hlinks, hself, hframe⟩ := @linked_setChildren (store.push (.new symbol none "")) forest
    store.size (hk.congr hn fun id h => hpush id (hlt id h)) hn
    (fun id h => by rw [size_push]; exact Nat.lt_succ_of_lt (hlt id h)) hfresh (by simp)
  rw [view_push_self] at hself
  refine ⟨⟨?_, ?_, hs, hlinks⟩, hself, fun id hid h => ?_⟩
  · exact congrArg View.label hself
  · exact congrArg View.children hself
  · exact (hframe id hid (Nat.ne_of_lt h)).trans (hpush id h)

end Links

end Store

end IncrementalLR
