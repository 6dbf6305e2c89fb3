import IncrementalLR.Proofs.Tree.Rising
import IncrementalLR.Proofs.Tree.Versions

namespace IncrementalLR

namespace Node

-- What hangs on a node beside its place in the tree: its abstract value, and the document
-- in its box.
def ornaments (node : Node) : Option AstValue × Option Nat := (node.alternate, node.box)

def Bare (node : Node) : Prop := node.alternate = none ∧ node.box = none

variable {node other : Node}

theorem Bare.congr (hb : node.Bare) (h : other.ornaments = node.ornaments) : other.Bare := by
  obtain ⟨halternate, hbox⟩ := Prod.mk.inj h
  exact ⟨halternate.trans hb.1, hbox.trans hb.2⟩

theorem ornaments_of_unkept (h : other.unkept = node.unkept) : other.ornaments = node.ornaments :=
  show other.unkept.ornaments = node.unkept.ornaments by rw [h]

end Node

namespace Store

variable {store after : Store} {id other parent child anchor new version : Nat} {symbol : Symbol} {rule : Option String}
  {text : String} {children : List Nat}

theorem bare_of_size_le (h : store.size ≤ id) : (store.node id).Bare := by
  rw [node_of_size_le h]
  exact ⟨rfl, rfl⟩

@[simp] theorem unkept_linkChildren {left : Option Nat} :
    ((linkChildren parent left children store).node id).unkept = (store.node id).unkept := by
  induction children generalizing left store with
  | nil => rfl
  | cons child rest ih => rw [linkChildren, ih, unkept_reviseAll, unkept_revise]

@[simp] theorem unkept_threadLeaves {before : Option Nat} {leaves : List Nat} :
    ((threadLeaves before leaves store).node id).unkept = (store.node id).unkept := by
  induction leaves generalizing before store with
  | nil => rfl
  | cons leaf rest ih => rw [threadLeaves, ih, unkept_reviseAll, unkept_revise]

-- A new node is like what is no node of the store, but for what versions keep.
@[simp] theorem unkept_push : ((store.push (.new symbol rule text)).node id).unkept = (store.node id).unkept := by
  rw [node_push]
  split
  · rename_i he
    rw [he, node_of_size_le (Nat.le_refl _)]
    rfl
  · rfl

@[simp] theorem unkept_allocateNode : ((store.allocateNode symbol children).1.node id).unkept = (store.node id).unkept :=
  unkept_revise.trans (unkept_linkChildren.trans unkept_push)

@[simp] theorem unkept_relink : ((store.relink parent).node id).unkept = (store.node id).unkept := unkept_threadLeaves

@[simp] theorem ornaments_push : ((store.push (.new symbol rule text)).node id).ornaments = (store.node id).ornaments :=
  Node.ornaments_of_unkept unkept_push

@[simp] theorem ornaments_allocateNode :
    ((store.allocateNode symbol children).1.node id).ornaments = (store.node id).ornaments :=
  Node.ornaments_of_unkept unkept_allocateNode

@[simp] theorem ornaments_relink : ((store.relink parent).node id).ornaments = (store.node id).ornaments :=
  Node.ornaments_of_unkept unkept_relink

@[simp] theorem ornaments_markChanged : ((store.markChanged other version).node id).ornaments = (store.node id).ornaments := by
  rcases @node_markChanged store other id version with h | ⟨-, h⟩
  · rw [h]
  · rw [h]
    rfl

@[simp] theorem ornaments_save : ((store.save other version).node id).ornaments = (store.node id).ornaments := by
  rw [save, node_update]
  split
  · rfl
  · rfl

theorem ornaments_saveAll {ids : List Nat} {version : Store → Nat} :
    ((ids.foldl (fun store node => store.save node (version store)) store).node id).ornaments =
      (store.node id).ornaments := by
  induction ids generalizing store with
  | nil => rfl
  | cons first rest ih => rw [List.foldl_cons, ih, ornaments_save]

@[simp] theorem ornaments_setToken : ((store.setToken other rule text).node id).ornaments = (store.node id).ornaments :=
  Node.ornaments_of_unkept unkept_revise

theorem ornaments_commit : (store.commit.node id).ornaments = (store.node id).ornaments := by
  rw [node_commit, Node.commit]
  split
  · rfl
  · rfl

end Store

-- The texts of trees that have no documents embedded in them.
def Forest.texts : Forest → List String
  | nil => []
  | leaf _ label after => label.text :: after.texts
  | node _ _ _ below after => String.join below.texts :: after.texts

theorem Store.Kept.texts {store : Store} {forest : Forest} (hk : store.Kept forest)
    (hbare : ∀ entry ∈ forest.leaves, (store.node entry.1).Bare) {fuel : Nat} (hf : forest.ids.length ≤ fuel) :
    forest.roots.map (store.textBelow fuel) = forest.texts := by
  induction forest generalizing fuel with
  | nil => rfl
  | leaf id label after ih =>
      obtain ⟨hfirst, hrest⟩ := List.forall_mem_cons.mp hbare
      rw [Forest.ids, List.length_cons] at hf
      obtain ⟨fuel, rfl⟩ := Nat.exists_eq_add_of_le' (Nat.le_trans (Nat.le_add_left 1 _) hf)
      have htext : (store.node id).text = label.text := congrArg Label.text hk.1.1
      rw [Forest.roots, Forest.texts, List.map_cons, ih hk.2 hrest (by omega), textBelow]
      simp only [hk.1.isLeaf, if_true, hfirst.2, htext]
  | node id symbol changed below after ihbelow ih =>
      obtain ⟨hinside, hrest⟩ := List.forall_mem_append.mp hbare
      rw [Forest.ids, List.length_cons, List.length_append] at hf
      obtain ⟨fuel, rfl⟩ := Nat.exists_eq_add_of_le' (Nat.le_trans (Nat.le_add_left 1 _) hf)
      have hroots : (store.node id).children = below.roots := hk.1.2.1
      have hleaf : ¬(store.node id).isLeaf = true := ne_true_of_eq_false hk.1.not_isLeaf
      rw [Forest.roots, Forest.texts, List.map_cons, ih hk.2 hrest (by omega), textBelow]
      simp only [if_neg hleaf, hroots, ihbelow hk.1.2.2.2.kept hinside (by omega : below.ids.length ≤ fuel)]

end IncrementalLR
