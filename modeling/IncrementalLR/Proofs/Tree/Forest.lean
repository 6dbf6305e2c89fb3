import IncrementalLR.Proofs.Tree.Views

namespace IncrementalLR

-- Trees from left to right: the first of them with what comes after it, and with
-- what is below it if it is no leaf. All nodes above leaves are nonterminals.
inductive Forest where
  | nil
  | leaf (id : Nat) (label : Label) (after : Forest)
  | node (id : Nat) (symbol : Symbol) (changed : Bool) (below after : Forest)
deriving DecidableEq

namespace Forest

def append : Forest → Forest → Forest
  | nil, other => other
  | leaf id label after, other => leaf id label (after.append other)
  | node id symbol changed below after, other => node id symbol changed below (after.append other)

instance : Append Forest := ⟨append⟩

def roots : Forest → List Nat
  | nil => []
  | leaf id _ after => id :: after.roots
  | node id _ _ _ after => id :: after.roots

-- The nodes in the order in which a parser meets them.
def ids : Forest → List Nat
  | nil => []
  | leaf id _ after => id :: after.ids
  | node id _ _ below after => id :: (below.ids ++ after.ids)

def leaves : Forest → List (Nat × Label)
  | nil => []
  | leaf id label after => (id, label) :: after.leaves
  | node _ _ _ below after => below.leaves ++ after.leaves

def ofLeaves : List (Nat × Label) → Forest
  | [] => nil
  | (id, label) :: rest => leaf id label (ofLeaves rest)

def snapshots : Forest → List Snapshot
  | nil => []
  | leaf _ label after => .node label.symbol label.text [] :: after.snapshots
  | node _ symbol _ below after => .node symbol "" below.snapshots :: after.snapshots

variable {forest other third : Forest} {id : Nat} {label : Label} {symbol : Symbol} {changed : Bool}
  {below after : Forest}

@[simp] theorem nil_append : nil ++ other = other := rfl

@[simp] theorem leaf_append : leaf id label after ++ other = leaf id label (after ++ other) := rfl

@[simp] theorem node_append :
    node id symbol changed below after ++ other = node id symbol changed below (after ++ other) := rfl

@[simp] theorem append_nil : forest ++ nil = forest := by
  induction forest with
  | nil => rfl
  | leaf id label after ih => rw [leaf_append, ih]
  | node id symbol changed below after _ ih => rw [node_append, ih]

theorem append_assoc : forest ++ other ++ third = forest ++ (other ++ third) := by
  induction forest with
  | nil => rfl
  | leaf id label after ih => simp only [leaf_append, ih]
  | node id symbol changed below after _ ih => simp only [node_append, ih]

@[simp] theorem roots_append : (forest ++ other).roots = forest.roots ++ other.roots := by
  induction forest with
  | nil => rfl
  | leaf id label after ih => simp [roots, ih]
  | node id symbol changed below after _ ih => simp [roots, ih]

@[simp] theorem ids_append : (forest ++ other).ids = forest.ids ++ other.ids := by
  induction forest with
  | nil => rfl
  | leaf id label after ih => simp [ids, ih]
  | node id symbol changed below after _ ih => simp [ids, ih]

@[simp] theorem leaves_append : (forest ++ other).leaves = forest.leaves ++ other.leaves := by
  induction forest with
  | nil => rfl
  | leaf id label after ih => simp [leaves, ih]
  | node id symbol changed below after _ ih => simp [leaves, ih]

@[simp] theorem snapshots_append :
    (forest ++ other).snapshots = forest.snapshots ++ other.snapshots := by
  induction forest with
  | nil => rfl
  | leaf id label after ih => simp [snapshots, ih]
  | node id symbol changed below after _ ih => simp [snapshots, ih]

theorem mem_ids_of_roots (h : id ∈ forest.roots) : id ∈ forest.ids := by
  induction forest with
  | nil => exact h
  | leaf first label after ih =>
      rcases List.mem_cons.mp h with rfl | h
      · exact List.mem_cons_self
      · exact List.mem_cons_of_mem _ (ih h)
  | node first symbol changed below after _ ih =>
      rcases List.mem_cons.mp h with rfl | h
      · exact List.mem_cons_self
      · exact List.mem_cons_of_mem _ (List.mem_append_right _ (ih h))

theorem ids_subset_of_leaves {entry : Nat × Label} (h : entry ∈ forest.leaves) :
    entry.1 ∈ forest.ids := by
  induction forest with
  | nil => cases h
  | leaf first label after ih =>
      rcases List.mem_cons.mp h with rfl | h
      · exact List.mem_cons_self
      · exact List.mem_cons_of_mem _ (ih h)
  | node first symbol changed below after ihbelow ih =>
      refine List.mem_cons_of_mem _ (List.mem_append.mpr ?_)
      exact (List.mem_append.mp h).imp ihbelow ih

theorem leaves_sublist : (forest.leaves.map Prod.fst).Sublist forest.ids := by
  induction forest with
  | nil => exact List.Sublist.refl _
  | leaf first label after ih => exact ih.cons_cons first
  | node first symbol changed below after ihbelow ih =>
      rw [leaves, List.map_append]
      exact (ihbelow.append ih).cons first

@[simp] theorem leaves_ofLeaves {entries : List (Nat × Label)} : (ofLeaves entries).leaves = entries := by
  induction entries with
  | nil => rfl
  | cons entry rest ih => rw [ofLeaves, leaves, ih]

theorem ofLeaves_append {entries rest : List (Nat × Label)} :
    ofLeaves (entries ++ rest) = ofLeaves entries ++ ofLeaves rest := by
  induction entries with
  | nil => rfl
  | cons entry entries ih => rw [List.cons_append, ofLeaves, ofLeaves, ih, leaf_append]

theorem snapshots_ofLeaves {entries : List (Nat × Label)} :
    (ofLeaves entries).snapshots = entries.map fun entry => .node entry.2.symbol entry.2.text [] := by
  induction entries with
  | nil => rfl
  | cons entry rest ih => simp [ofLeaves, snapshots, ih]

@[simp] theorem ids_ofLeaves {entries : List (Nat × Label)} :
    (ofLeaves entries).ids = entries.map Prod.fst := by
  induction entries with
  | nil => rfl
  | cons entry rest ih => simp [ofLeaves, ids, ih]

@[simp] theorem roots_ofLeaves {entries : List (Nat × Label)} :
    (ofLeaves entries).roots = entries.map Prod.fst := by
  induction entries with
  | nil => rfl
  | cons entry rest ih => simp [ofLeaves, roots, ih]

end Forest

-- A tree on its own.
inductive Tree where
  | leaf (id : Nat) (label : Label)
  | node (id : Nat) (symbol : Symbol) (changed : Bool) (below : Forest)
deriving DecidableEq

namespace Tree

def before (after : Forest) : Tree → Forest
  | leaf id label => .leaf id label after
  | node id symbol changed below => .node id symbol changed below after

def forest (tree : Tree) : Forest := tree.before .nil

def id : Tree → Nat
  | leaf id _ => id
  | node id _ _ _ => id

def label : Tree → Label
  | leaf _ label => label
  | node _ symbol changed _ => ⟨symbol, none, "", changed⟩

def snapshot : Tree → Snapshot
  | leaf _ label => .node label.symbol label.text []
  | node _ symbol _ below => .node symbol "" below.snapshots

@[simp] theorem snapshots_forest {tree : Tree} : tree.forest.snapshots = [tree.snapshot] := by
  cases tree with
  | leaf id label => rfl
  | node id symbol changed below => rfl

@[simp] theorem forest_append {tree : Tree} {after : Forest} : tree.forest ++ after = tree.before after := by
  cases tree with
  | leaf id label => rfl
  | node id symbol changed below => rfl

@[simp] theorem before_append {tree : Tree} {after other : Forest} :
    tree.before after ++ other = tree.before (after ++ other) := by
  cases tree with
  | leaf id label => rfl
  | node id symbol changed below => rfl

theorem before_inj {tree other : Tree} {after behind : Forest} :
    tree.before after = other.before behind ↔ tree = other ∧ after = behind := by
  cases tree with
  | leaf id label =>
      cases other with
      | leaf other label' => simp [before, and_assoc]
      | node other symbol changed below => simp [before]
  | node id symbol changed below =>
      cases other with
      | leaf other label => simp [before]
      | node other symbol' changed' below' => simp [before, and_assoc]

theorem before_ne_nil {tree : Tree} {after : Forest} : tree.before after ≠ .nil := by
  cases tree with
  | leaf id label => nofun
  | node id symbol changed below => nofun

@[simp] theorem roots_forest {tree : Tree} : tree.forest.roots = [tree.id] := by
  cases tree with
  | leaf id label => rfl
  | node id symbol changed below => rfl

@[simp] theorem roots_before {tree : Tree} {after : Forest} :
    (tree.before after).roots = tree.id :: after.roots := by
  rw [← forest_append, Forest.roots_append, roots_forest, List.singleton_append]

@[simp] theorem ids_before {tree : Tree} {after : Forest} :
    (tree.before after).ids = tree.forest.ids ++ after.ids := by
  rw [← forest_append, Forest.ids_append]

theorem id_mem_ids {tree : Tree} : tree.id ∈ tree.forest.ids :=
  Forest.mem_ids_of_roots (by simp)

end Tree

-- Induction from one tree to those behind it.
theorem Forest.spine_induction {motive : Forest → Prop} (nil : motive .nil)
    (before : ∀ (tree : Tree) (after : Forest), motive after → motive (tree.before after))
    (forest : Forest) : motive forest := by
  induction forest with
  | nil => exact nil
  | leaf id label after ih => exact before (.leaf id label) after ih
  | node id symbol changed below after _ ih => exact before (.node id symbol changed below) after ih

theorem Forest.eq_nil_of_head?_roots {forest : Forest} (h : forest.roots.head? = none) : forest = .nil := by
  induction forest using Forest.spine_induction with
  | nil => rfl
  | before tree after _ =>
      rw [Tree.roots_before] at h
      cases h

-- The symbol under which tables know a node with the label.
def Label.key (label : Label) : Symbol :=
  match label.rule with
  | some rule => .terminal rule
  | none => label.symbol.key

end IncrementalLR
