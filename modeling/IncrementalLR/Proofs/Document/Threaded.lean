import IncrementalLR.Proofs.Document.Session
import IncrementalLR.Proofs.Tree.Planted
import IncrementalLR.Proofs.Tree.Rethread

namespace IncrementalLR

theorem Forest.tokens_reflag {flags : Nat → Bool} {forest : Forest} : (forest.reflag flags).tokens = forest.tokens := by
  rw [tokens, leaves_reflag, List.map_map]
  rfl

namespace Document

-- Whether the trees below a root stand between the ends of a document, of which the last
-- one alone is an end of input.
def Frames (document : Document) (forest : Forest) : Prop :=
  ∃ first last content, forest = document.framed first last content ∧
    (first.parsed = bosLabel ∧ last.parsed = eosLabel) ∧ ∀ entry ∈ content.leaves, entry.2.symbol ≠ .finish

-- Whether the tree of a document is in a store, with the thread over its leaves.
structure Threaded (store : Store) (document : Document) (forest : Forest) : Prop
    extends store.Planted document.root forest where
  frames : document.Frames forest
  threads : store.Threads none none (forest.leaves.map Prod.fst)

-- The tokens of a document in order with what they are made of, its two ends among them.
def sequence (document : Document) (store : Store) : List (Nat × Label) :=
  (store.leaves document.root).map fun id => (id, (store.view id).label.parsed)

-- Whether a token has been put in behind what comes up to an anchor, with the tokens of
-- the anchor as the last.
def Inserts (document : Document) (store after : Store) (anchor : Nat) (entry : Nat × Label) : Prop :=
  ∃ front back, document.sequence store = front ++ back ∧ document.sequence after = front ++ entry :: back ∧
    store.leaves anchor <:+ front.map Prod.fst ∧ (front.map Prod.fst).getLast? = store.leafUpTo? anchor

-- Whether the tokens of a node have been taken out.
def Removes (document : Document) (store after : Store) (node : Nat) : Prop :=
  ∃ front middle back, document.sequence store = front ++ (middle ++ back) ∧ document.sequence after = front ++ back ∧
    middle.map Prod.fst = store.leaves node

-- Whether a token has become another one.
def Replaces (document : Document) (store after : Store) (node : Nat) (rule : Option String) (text : String) : Prop :=
  ∃ front label back, document.sequence store = front ++ (node, label) :: back ∧
    document.sequence after = front ++ (node, ⟨Store.renamed label.symbol text, rule, text, false⟩) :: back

-- What a step makes of the tree of a document. The nodes have been in it, or are new.
structure Becomes (document : Document) (store : Store) (forest : Forest) (after : Store) (result : Forest) : Prop where
  threaded : document.Threaded after result
  ids : ∀ id ∈ result.ids, id ∈ forest.ids ∨ store.size ≤ id

variable {document : Document} {store other after : Store} {forest : Forest} {anchor node : Nat} {label : Label}
  {symbol : Symbol} {rule : Option String} {text : String}

namespace Frames

variable {flags : Nat → Bool}

theorem reflag (hf : document.Frames forest) : document.Frames (forest.reflag flags) := by
  obtain ⟨first, last, content, rfl, hends, hinner⟩ := hf
  refine ⟨{ first with changed := flags document.bos }, { last with changed := flags document.eos },
    content.reflag flags, ?_, hends, fun entry h => ?_⟩
  · rw [framed, Forest.reflag, Forest.reflag_append]
    rfl
  · rw [Forest.leaves_reflag] at h
    obtain ⟨old, hold, rfl⟩ := List.mem_map.mp h
    exact hinner old hold

theorem roots (hf : document.Frames forest) : ∃ inner, forest.roots = document.bos :: (inner ++ [document.eos]) := by
  obtain ⟨first, last, content, rfl, -, -⟩ := hf
  exact ⟨content.roots, by simp [framed, Forest.roots]⟩

theorem leaves (hf : document.Frames forest) :
    ∃ inner, forest.leaves.map Prod.fst = document.bos :: (inner ++ [document.eos]) := by
  obtain ⟨first, last, content, rfl, -, -⟩ := hf
  exact ⟨content.leaves.map Prod.fst, by simp [framed, Forest.leaves]⟩

-- A subtree between the ends, of which anything that is no end of input may take the place.
theorem exists_gap (hf : document.Frames forest) (h : node ∈ forest.ids) (hbos : node ≠ document.bos)
    (heos : node ≠ document.eos) :
    ∃ (gap : Gap) (tree : Tree), tree.id = node ∧ forest = gap.fill tree.forest ∧ gap.leading ≠ [] ∧
      (∀ entry ∈ tree.forest.leaves, entry.2.symbol ≠ .finish) ∧
      ∀ filling : Forest, (∀ entry ∈ filling.leaves, entry.2.symbol ≠ .finish) → document.Frames (gap.fill filling) := by
  obtain ⟨first, last, content, rfl, hends, hinner⟩ := hf
  have hmem : node ∈ content.ids := by
    simp only [framed, Forest.ids, Forest.ids_append, List.mem_cons, List.mem_append, List.not_mem_nil, or_false] at h
    tauto
  obtain ⟨gap, tree, htree, rfl⟩ := Gap.exists_subtree hmem
  refine ⟨(Gap.top (.leaf document.bos first .nil) (.leaf document.eos last .nil)).inner gap, tree, htree, ?_, ?_, ?_, ?_⟩
  · rw [Gap.fill_inner]
    rfl
  · rw [Gap.leading_inner]
    exact List.append_ne_nil_of_left_ne_nil (List.cons_ne_nil _ _) _
  · intro entry h
    exact hinner entry (by rw [Gap.leaves_fill]; simp [h])
  · intro filling h
    refine ⟨first, last, gap.fill filling, ?_, hends, fun entry hentry => ?_⟩
    · rw [Gap.fill_inner]
      rfl
    · rw [Gap.leaves_fill, List.mem_append, List.mem_append] at hentry
      rw [Gap.leaves_fill] at hinner
      rcases hentry with hentry | hentry | hentry
      · exact hinner entry (List.mem_append_left _ hentry)
      · exact h entry hentry
      · exact hinner entry (List.mem_append_right _ (List.mem_append_right _ hentry))

-- A subtree before the end, behind which a leaf may be put.
theorem exists_gap_behind (hf : document.Frames forest) (h : anchor ∈ forest.ids) (heos : anchor ≠ document.eos) :
    ∃ (gap : Gap) (tree : Tree), tree.id = anchor ∧ forest = gap.fill tree.forest ∧
      gap.leading ++ tree.forest.leaves ≠ [] ∧
      ∀ (id : Nat) (label : Label), label.symbol ≠ .finish → document.Frames (gap.fill (tree.before (.leaf id label .nil))) := by
  by_cases hbos : anchor = document.bos
  · obtain ⟨first, last, content, rfl, hends, hinner⟩ := hf
    refine ⟨.top .nil (content ++ .leaf document.eos last .nil), .leaf anchor first, rfl, by rw [hbos]; rfl,
      List.cons_ne_nil _ _, fun id label hlabel => ?_⟩
    refine ⟨first, last, .leaf id label content, by rw [hbos]; rfl, hends, fun entry hentry => ?_⟩
    rcases List.mem_cons.mp hentry with rfl | hentry
    · exact hlabel
    · exact hinner entry hentry
  · obtain ⟨gap, tree, htree, hforest, hleading, hbelow, hfill⟩ := hf.exists_gap h hbos heos
    refine ⟨gap, tree, htree, hforest, List.append_ne_nil_of_left_ne_nil hleading _, fun id label hlabel => ?_⟩
    rw [← Tree.forest_append]
    refine hfill _ fun entry hentry => ?_
    rw [Forest.leaves_append] at hentry
    rcases List.mem_append.mp hentry with hentry | hentry
    · exact hbelow entry hentry
    · exact List.mem_singleton.mp hentry ▸ hlabel

end Frames

theorem map_fst_sequence : (document.sequence store).map Prod.fst = store.leaves document.root := by
  rw [sequence, List.map_map]
  exact List.map_id _

namespace Threaded

-- Attributes are all that it takes.
theorem congr (ht : document.Threaded store forest) (hlt : ∀ id ∈ document.root :: forest.ids, id < other.size)
    (ha : ∀ id ∈ document.root :: forest.ids, (other.node id).toAttributes = (store.node id).toAttributes) :
    document.Threaded other (forest.reflag fun id => (other.node id).changed) := by
  refine ⟨ht.toPlanted.reflag hlt ha, ht.frames.reflag, ?_⟩
  have hleaves : (forest.reflag fun id => (other.node id).changed).leaves.map Prod.fst = forest.leaves.map Prod.fst := by
    rw [Forest.leaves_reflag, List.map_map]
    rfl
  rw [hleaves]
  refine ht.threads.congr fun id h => ?_
  rw [Store.SameThread, ha id (List.mem_cons_of_mem _ (Forest.leaves_sublist.subset h))]
  exact ⟨rfl, rfl⟩

theorem sequence (ht : document.Threaded store forest) : document.sequence store = forest.tokens := by
  rw [Document.sequence, ht.toPlanted.leaves, List.map_map, Forest.tokens]
  refine List.map_congr_left fun entry h => ?_
  rw [Function.comp, ht.linked.kept.label h]

end Threaded

end Document

end IncrementalLR
