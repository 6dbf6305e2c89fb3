import IncrementalLR.Proofs.Tree.Linked
import Mathlib.Logic.Relation

namespace IncrementalLR

namespace Store

variable {store other : Store} {id root fuel depth : Nat} {inside : Nat → Prop}

-- Where the text of a node goes on, down the tree or into a box.
inductive Enters (store : Store) (id : Nat) : Nat → Prop where
  | child {child : Nat} : (store.node id).isLeaf = false → child ∈ (store.node id).children → Enters store id child
  | box {inner : Nat} : (store.node id).isLeaf = true → (store.node id).box = some inner → Enters store id inner

-- Whether the text of a node goes through some node time and again, so that it has no end.
def Loops (store : Store) (root : Nat) : Prop :=
  ∃ id, Relation.ReflTransGen store.Enters root id ∧ Relation.TransGen store.Enters id id

theorem Loops.of_enters (h : store.Enters root id) (hl : store.Loops id) : store.Loops root := by
  obtain ⟨again, hreach, hagain⟩ := hl
  exact ⟨again, hreach.head h, hagain⟩

theorem textBelow_of_size_le (h : store.size ≤ id) : store.textBelow fuel id = "" := by
  cases fuel with
  | zero => rfl
  | succ fuel =>
      rw [textBelow, node_of_size_le h]
      rfl

-- No path is longer than the store has nodes, unless it comes through one of them again.
theorem length_path_lt {path : List Nat} (hn : path.Nodup) (hlt : ∀ above ∈ path, above < store.size)
    (hpath : ∀ above ∈ path, Relation.TransGen store.Enters above id) (hl : ¬store.Loops id) (hid : id < store.size) :
    (id :: path).Nodup ∧ path.length < store.size := by
  have hnodup : (id :: path).Nodup := List.nodup_cons.mpr ⟨fun h => hl ⟨id, .refl, hpath id h⟩, hn⟩
  exact ⟨hnodup, length_le_size hnodup (List.forall_mem_cons.mpr ⟨hid, hlt⟩)⟩

-- It does not matter how much more fuel there is than what a path takes. The induction is
-- on the fuel that is left, along with the nodes that the path has come through.
theorem textBelow_eq {path : List Nat} (hn : path.Nodup) (hlt : ∀ above ∈ path, above < store.size)
    (hpath : ∀ above ∈ path, Relation.TransGen store.Enters above id) (hl : ¬store.Loops id)
    (hfuel : store.size ≤ fuel + path.length) (hdepth : store.size ≤ depth + path.length) :
    store.textBelow fuel id = store.textBelow depth id := by
  induction fuel generalizing depth id path with
  | zero =>
      rcases Nat.lt_or_ge id store.size with hid | hid
      · have := (length_path_lt hn hlt hpath hl hid).2
        omega
      · rw [textBelow_of_size_le hid, textBelow_of_size_le hid]
  | succ fuel ih =>
      rcases Nat.lt_or_ge id store.size with hid | hid
      · obtain ⟨hnodup, hlength⟩ := length_path_lt hn hlt hpath hl hid
        obtain ⟨depth, rfl⟩ : ∃ less, depth = less + 1 := Nat.exists_eq_add_of_le' (by omega)
        have hnext : ∀ next, store.Enters id next → store.textBelow fuel next = store.textBelow depth next := by
          intro next hnext
          refine ih hnodup (List.forall_mem_cons.mpr ⟨hid, hlt⟩) (List.forall_mem_cons.mpr ⟨.single hnext, ?_⟩)
            (fun h => hl (h.of_enters hnext)) ?_ ?_
          · exact fun above h => (hpath above h).tail hnext
          · rw [List.length_cons]
            omega
          · rw [List.length_cons]
            omega
        rw [textBelow, textBelow]
        split
        · rename_i hleaf
          split
          · rename_i inner hbox
            exact hnext inner (.box hleaf hbox)
          · rfl
        · rename_i hleaf
          have hchildren : ∀ child ∈ (store.node id).children, store.textBelow fuel child = store.textBelow depth child :=
            fun child h => hnext child (.child (eq_false_of_ne_true hleaf) h)
          rw [List.map_congr_left hchildren]
      · rw [textBelow_of_size_le hid, textBelow_of_size_le hid]

theorem textBelow_eq_text (hl : ¬store.Loops root) (h : store.size ≤ fuel) : store.textBelow fuel root = store.text root :=
  textBelow_eq List.nodup_nil nofun nofun hl h (Nat.le_refl _)

theorem lt_size_of_enters {next : Nat} (h : store.Enters id next) : id < store.size := by
  refine Nat.lt_of_not_le fun hge => ?_
  have hnode : store.node id = default := node_of_size_le hge
  cases h with
  | child _ hchild =>
      rw [hnode] at hchild
      cases hchild
  | box _ hbox =>
      rw [hnode] at hbox
      cases hbox

-- Whether a rank gets less wherever a text goes on.
def ranks (store : Store) (rank : Nat → Nat) : Bool :=
  (List.range store.size).all fun id =>
    if (store.node id).isLeaf then (store.node id).box.all fun inner => rank inner < rank id
    else (store.node id).children.all fun child => rank child < rank id

theorem not_loops_of_ranks {rank : Nat → Nat} (hr : store.ranks rank = true) : ¬store.Loops root := by
  have hstep : ∀ {id next : Nat}, store.Enters id next → rank next < rank id := by
    intro id next h
    have hid := List.all_eq_true.mp hr id (List.mem_range.mpr (lt_size_of_enters h))
    cases h with
    | child hleaf hchild =>
        rw [if_neg (ne_true_of_eq_false hleaf)] at hid
        exact of_decide_eq_true (List.all_eq_true.mp hid next hchild)
    | box hleaf hbox =>
        rw [if_pos hleaf, hbox] at hid
        exact of_decide_eq_true hid
  have hpath : ∀ {id next : Nat}, Relation.TransGen store.Enters id next → rank next < rank id := by
    intro id next h
    induction h with
    | single h => exact hstep h
    | tail _ h ih => exact Nat.lt_trans (hstep h) ih
  rintro ⟨id, -, hid⟩
  exact Nat.lt_irrefl _ (hpath hid)

-- A text that has an end is made of those that it goes on to.
theorem text_eq (hl : ¬store.Loops id) : store.text id =
    if (store.node id).isLeaf then
      match (store.node id).box with
      | some inner => store.text inner
      | none => (store.node id).text
    else String.join ((store.node id).children.map store.text) := by
  have hnext : ∀ next, store.Enters id next → store.textBelow store.size next = store.textBelow (store.size - 1) next := by
    intro next h
    have hid := lt_size_of_enters h
    refine @textBelow_eq store next _ _ [id] (List.nodup_singleton id) (List.forall_mem_singleton.mpr hid)
      (List.forall_mem_singleton.mpr (.single h)) (fun hloops => hl (hloops.of_enters h)) (Nat.le_add_right _ _) ?_
    rw [List.length_singleton, Nat.sub_add_cancel (Nat.zero_lt_of_lt hid)]
  have hunfold : store.text id = store.textBelow (store.size - 1 + 1) id := (textBelow_eq_text hl (by omega)).symm
  rw [hunfold, textBelow]
  split
  · rename_i hleaf
    cases hbox : (store.node id).box with
    | none => rfl
    | some inner => exact (hnext inner (.box hleaf hbox)).symm
  · rename_i hleaf
    exact congrArg String.join
      (List.map_congr_left fun child h => (hnext child (.child (eq_false_of_ne_true hleaf) h)).symm)

theorem Kept.join_texts {forest : Forest} (hk : store.Kept forest) (hl : ∀ id ∈ forest.roots, ¬store.Loops id) :
    String.join (forest.roots.map store.text) = String.join (forest.leaves.map fun entry => store.text entry.1) := by
  induction forest with
  | nil => rfl
  | leaf id label after ih =>
      rw [Forest.roots, Forest.leaves, List.map_cons, List.map_cons, String.join_cons, String.join_cons,
        ih hk.2 fun id h => hl id (List.mem_cons_of_mem _ h)]
  | node id symbol changed below after ihbelow ih =>
      have hroots : (store.node id).children = below.roots := hk.1.2.1
      have hleaf : (store.node id).isLeaf = false := hk.1.not_isLeaf
      have hid : ¬store.Loops id := hl id List.mem_cons_self
      have hbelow : ∀ child ∈ below.roots, ¬store.Loops child := fun child h hloops =>
        hid (hloops.of_enters (.child hleaf (hroots.symm ▸ h)))
      have htext : store.text id = String.join (below.leaves.map fun entry => store.text entry.1) := by
        rw [text_eq hid, if_neg (ne_true_of_eq_false hleaf), hroots, ihbelow hk.1.2.2.2.kept hbelow]
      rw [Forest.roots, Forest.leaves, List.map_cons, List.map_append, String.join_cons, String.join_append, htext,
        ih hk.2 fun id h => hl id (List.mem_cons_of_mem _ h)]

-- If what it goes on to has an end, so have all leaves of a tree.
theorem Kept.not_loops {forest : Forest} (hk : store.Kept forest) (hl : ∀ id ∈ forest.roots, ¬store.Loops id) :
    ∀ entry ∈ forest.leaves, ¬store.Loops entry.1 := by
  induction forest with
  | nil => exact nofun
  | leaf id label after ih =>
      exact List.forall_mem_cons.mpr ⟨hl id List.mem_cons_self, ih hk.2 fun id h => hl id (List.mem_cons_of_mem _ h)⟩
  | node id symbol changed below after ihbelow ih =>
      have hroots : (store.node id).children = below.roots := hk.1.2.1
      have hbelow : ∀ child ∈ below.roots, ¬store.Loops child := fun child h hloops =>
        hl id List.mem_cons_self (hloops.of_enters (.child hk.1.not_isLeaf (hroots.symm ▸ h)))
      exact List.forall_mem_append.mpr
        ⟨ihbelow hk.1.2.2.2.kept hbelow, ih hk.2 fun id h => hl id (List.mem_cons_of_mem _ h)⟩

-- Texts are the same, at any depth, where they are made of nodes that are the same, with
-- the same documents in the boxes of leaves.
theorem textBelow_congr (hsame : ∀ id, inside id → (other.node id).toAttributes = (store.node id).toAttributes ∧
      ((store.node id).isLeaf = true → (other.node id).box = (store.node id).box))
    (henters : ∀ id, inside id → ∀ next, store.Enters id next → inside next) (hid : inside id) :
    other.textBelow fuel id = store.textBelow fuel id := by
  induction fuel generalizing id with
  | zero => rfl
  | succ fuel ih =>
      obtain ⟨hattributes, hbox⟩ := hsame id hid
      have hisLeaf : (other.node id).isLeaf = (store.node id).isLeaf := by rw [Node.isLeaf, Node.isLeaf, hattributes]
      rw [textBelow, textBelow, hisLeaf, hattributes]
      by_cases hleaf : (store.node id).isLeaf = true
      · rw [if_pos hleaf, if_pos hleaf, hbox hleaf]
        split
        · rename_i inner hinner
          exact ih (henters id hid inner (.box hleaf hinner))
        · rfl
      · rw [if_neg hleaf, if_neg hleaf, List.map_congr_left fun child h =>
          ih (henters id hid child (.child (eq_false_of_ne_true hleaf) h))]

end Store

end IncrementalLR
