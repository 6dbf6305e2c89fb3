import IncrementalLR.Proofs.Document.Threaded

namespace IncrementalLR

namespace Document

variable {document : Document} {store after : Store} {forest : Forest} {anchor node : Nat} {symbol : Symbol}
  {rule : Option String} {text : String}

namespace Threaded

-- Flags may be raised.
theorem mark {version : Nat} (ht : document.Threaded store forest) (node : Nat) :
    document.Threaded (store.markChanged node version)
      (forest.reflag fun id => ((store.markChanged node version).node id).changed) := by
  have he : store.Evolves (fun _ => False) (store.markChanged node version) := Store.Evolves.refl.markChanged
  exact ht.congr (fun id h => Nat.lt_of_lt_of_le (ht.lt_size id h) he.size_le) fun id _ => (he.still.node id).attributes

-- A new leaf is put in behind any node but the root and the end.
theorem insertLeafAfter (ht : document.Threaded store forest) (h : anchor ∈ forest.ids) (heos : anchor ≠ document.eos)
    (hleaf : symbol.isNonterminal = false) (hfinish : symbol ≠ .finish) :
    ∃ after result, document.insertLeafAfter (store.push (.new symbol rule text)) anchor store.size = .ok after ∧
      document.Becomes store forest after result ∧
      document.Inserts store after anchor (store.size, ⟨symbol, rule, text, false⟩) := by
  obtain ⟨gap, tree, rfl, rfl, hne, hfill⟩ := ht.frames.exists_gap_behind h heos
  have hnew : store.size ∉ document.root :: (gap.fill tree.forest).ids := fun h => Nat.lt_irrefl _ (ht.lt_size _ h)
  obtain ⟨pushed, hpush⟩ : ∃ pushed, store.push (.new symbol rule text) = pushed := ⟨_, rfl⟩
  have hsize : pushed.size = store.size + 1 := hpush ▸ Store.size_push _
  have hnode : ∀ id, id < store.size → pushed.node id = store.node id := fun id h => by
    rw [← hpush, Store.node_push, if_neg (Nat.ne_of_lt h)]
  have hpushed : pushed.Planted document.root (gap.fill tree.forest) :=
    ht.toPlanted.congr (by omega) fun id h => congrArg Node.view (hnode id (ht.lt_size id h))
  have hfresh : pushed.Holds (.leaf store.size ⟨symbol, rule, text, false⟩) := by
    rw [← hpush, Store.Holds, Store.view_push_self]
    exact ⟨rfl, rfl, hleaf⟩
  have hthreads : pushed.Threads none none ((gap.fill tree.forest).leaves.map Prod.fst) := by
    refine ht.threads.congr fun id h => ?_
    rw [Store.SameThread, hnode id (ht.lt_size id (List.mem_cons_of_mem _ (Forest.leaves_sublist.subset h)))]
    exact ⟨rfl, rfl⟩
  obtain ⟨linked, hlinked, -, hplanted, -⟩ := hpushed.insert hnew (by omega) hfresh
  have hbefore : document.Threaded linked
      (gap.fill (tree.before (.leaf store.size ⟨symbol, rule, text, false⟩ .nil))) :=
    ⟨hplanted, hfill _ _ hfinish, hpushed.threads_insert hnew (by omega) hfresh hne hthreads hlinked⟩
  have hafter := @mark _ _ _ linked.nextVersion hbefore store.size
  have hok : document.insertLeafAfter pushed tree.id store.size = .ok (linked.markChanged store.size linked.nextVersion) := by
    unfold Document.insertLeafAfter
    rw [if_neg heos, show (pushed.node tree.id).parent = some (gap.parent document.root) from hpushed.place.1]
    simp only [hlinked]
  refine ⟨_, _, hpush ▸ hok, ⟨hafter, fun id hid => ?_⟩, (gap.leading ++ tree.forest.leaves).map fun entry => (entry.1, entry.2.parsed),
    gap.trailing.map fun entry => (entry.1, entry.2.parsed), ?_, ?_, ?_, ?_⟩
  · rw [Forest.ids_reflag, Gap.ids_fill.mem_iff, ← Tree.forest_append, Forest.ids_append, List.mem_append, List.mem_append] at hid
    rw [Gap.ids_fill.mem_iff, List.mem_append]
    rcases hid with (hid | hid) | hid
    · exact Or.inl (Or.inl hid)
    · exact Or.inr (Nat.le_of_eq (List.mem_singleton.mp hid).symm)
    · exact Or.inl (Or.inr hid)
  · rw [ht.sequence, Forest.tokens, Gap.leaves_fill, ← List.append_assoc, List.map_append]
  · rw [hafter.sequence, Forest.tokens_reflag, Forest.tokens, Gap.leaves_fill, ← Tree.forest_append, Forest.leaves_append]
    simp [Forest.leaves, Label.parsed]
  · rw [ht.leaves_subtree]
    simp [Function.comp_def]
  · rw [ht.leafUpTo? hne, List.map_map]
    rfl

-- A subtree between the ends is taken out.
theorem removeToken (ht : document.Threaded store forest) (h : node ∈ forest.ids) (hbos : node ≠ document.bos)
    (heos : node ≠ document.eos) :
    ∃ after result, document.removeToken store node = .ok after ∧ document.Becomes store forest after result ∧
      document.Removes store after node := by
  obtain ⟨gap, tree, rfl, rfl, -, -, hfill⟩ := ht.frames.exists_gap h hbos heos
  obtain ⟨linked, hlinked, -, -, hplanted, -⟩ := ht.remove
  have hbefore : document.Threaded linked (gap.fill .nil) :=
    ⟨hplanted, hfill _ nofun, ht.threads_remove ht.threads hlinked⟩
  have hafter := @mark _ _ _ linked.nextVersion hbefore (gap.parent document.root)
  have hok : document.removeToken store tree.id =
      .ok (linked.markChanged (gap.parent document.root) linked.nextVersion) := by
    unfold Document.removeToken
    rw [if_neg (not_or.mpr ⟨hbos, heos⟩), show (store.node tree.id).parent = some (gap.parent document.root) from ht.place.1]
    simp only [hlinked]
  refine ⟨_, _, hok, ⟨hafter, fun id hid => ?_⟩, gap.leading.map fun entry => (entry.1, entry.2.parsed),
    tree.forest.tokens, gap.trailing.map fun entry => (entry.1, entry.2.parsed), ?_, ?_, ?_⟩
  · rw [Forest.ids_reflag, Gap.ids_fill.mem_iff] at hid
    exact Or.inl (Gap.ids_fill.mem_iff.mpr (List.mem_append_right _ hid))
  · rw [ht.sequence, Forest.tokens, Gap.leaves_fill, List.map_append, List.map_append]
    rfl
  · rw [hafter.sequence, Forest.tokens_reflag, Forest.tokens, Gap.leaves_fill, Forest.leaves, List.nil_append, List.map_append]
  · rw [ht.leaves_subtree, Forest.tokens, List.map_map]
    rfl

-- A token between the ends becomes another one.
theorem replaceToken (ht : document.Threaded store forest) (h : node ∈ store.leaves document.root)
    (hbos : node ≠ document.bos) (heos : node ≠ document.eos) :
    ∃ result, document.Becomes store forest (Document.replaceToken store node rule text) result ∧
      document.Replaces store (Document.replaceToken store node rule text) node rule text := by
  rw [ht.toPlanted.leaves] at h
  obtain ⟨entry, hentry, rfl⟩ := List.mem_map.mp h
  have hleaf := (ht.linked.kept.leaf hentry).isLeaf
  obtain ⟨gap, tree, htree, rfl, -, hinner, hfill⟩ := ht.frames.exists_gap (Forest.leaves_sublist.subset h) hbos heos
  generalize entry.1 = node at htree hbos heos hleaf ⊢
  cases tree with
  | node id symbol changed below =>
      obtain rfl : id = node := htree
      cases hleaf.symm.trans (Store.kept_forest.mp ht.kept).not_isLeaf
  | leaf id label =>
      obtain rfl : id = node := htree
      have hlt : id < store.size := ht.subtree_lt id List.mem_cons_self
      have hlabel : (store.view id).label = label := ht.kept.1.1
      have hfinish : label.symbol ≠ .finish := hinner (id, label) List.mem_cons_self
      have hview : ∀ other, (store.setToken id rule text).view other = if other = id then
          { store.view other with
            label := ⟨Store.renamed (store.view other).label.symbol text, rule, text, (store.view other).label.changed⟩ }
          else store.view other := fun other =>
        Store.view_revise (fun view => { view with
          label := ⟨Store.renamed view.label.symbol text, rule, text, view.label.changed⟩ }) (fun _ => rfl) hlt
      have hrenamed : (Store.renamed label.symbol text).isNonterminal = false ∧ Store.renamed label.symbol text ≠ .finish := by
        have hsymbol := ht.kept.1.2.2
        cases hs : label.symbol with
        | nonterminal name => rw [hs] at hsymbol; cases hsymbol
        | finish => exact absurd hs hfinish
        | _ => exact ⟨rfl, nofun⟩
      have hplanted := @Store.Planted.relabel store (store.setToken id rule text) _ _ _ _
        ⟨Store.renamed label.symbol text, rule, text, label.changed⟩ ht.toPlanted (Store.size_revise _)
        (by rw [hview, if_pos rfl, hlabel]) (fun other h => by rw [hview, if_neg h]) hrenamed.1
      have hbefore : document.Threaded (store.setToken id rule text)
          (gap.fill (.leaf id ⟨Store.renamed label.symbol text, rule, text, label.changed⟩ .nil)) := by
        refine ⟨hplanted.1, hfill _ (List.forall_mem_singleton.mpr hrenamed.2), ?_⟩
        have hthreads := ht.threads
        rw [Gap.leaves_fill] at hthreads ⊢
        rw [List.map_append, List.map_append] at hthreads ⊢
        exact hthreads.congr fun other _ => Store.SameThread.revise ⟨rfl, rfl⟩ fun _ => ⟨rfl, rfl⟩
      have hafter := @mark _ _ _ (store.setToken id rule text).nextVersion hbefore id
      refine ⟨_, ⟨hafter, fun other hid => ?_⟩, gap.leading.map fun entry => (entry.1, entry.2.parsed),
        label.parsed, gap.trailing.map fun entry => (entry.1, entry.2.parsed), ?_, ?_⟩
      · rw [Forest.ids_reflag, Gap.ids_fill.mem_iff] at hid
        exact Or.inl (Gap.ids_fill.mem_iff.mpr hid)
      · rw [ht.sequence, Forest.tokens, Gap.leaves_fill, List.map_append, List.map_append]
        rfl
      · refine hafter.sequence.trans ?_
        rw [Forest.tokens_reflag, Forest.tokens, Gap.leaves_fill, List.map_append, List.map_append]
        rfl

end Threaded

end Document

end IncrementalLR
