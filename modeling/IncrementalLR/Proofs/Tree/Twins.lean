import IncrementalLR.Proofs.Tree.Versions

namespace IncrementalLR

namespace Node

variable {node other : Node} {version newest : Nat}

theorem eq_of_marked (h : other.marked = node.marked) : other = { node with pending := other.pending } := by
  have hfields : ({ other.marked with pending := other.pending } : Node) =
      { node.marked with pending := other.pending } := by rw [h]
  exact hfields

-- Whether a node that is as it was recorded is marked makes no difference to a commit.
theorem commit_congr (he : node.EndsBy newest) (hle : version ≤ newest) (h : other.marked = node.marked)
    (hp : other.pending = node.pending ∨ node.HeldAt version) :
    other.commit version newest = node.commit version newest := by
  rw [eq_of_marked h]
  rcases hp with hp | hheld
  · rw [hp]
  · rw [hheld.commit he hle]
    exact (hheld.commit he hle node.pending).symm

end Node

namespace Store

variable {store other : Store} {version id : Nat}

theorem ext_node (hsize : other.size = store.size) (hversion : other.version = store.version)
    (hnewest : other.newest = store.newest) (hnode : ∀ id, other.node id = store.node id) : other = store := by
  obtain ⟨nodes, version, newest⟩ := store
  obtain ⟨others, _, _⟩ := other
  cases hversion
  cases hnewest
  congr 1
  refine Array.ext hsize fun id hlt hlt' => ?_
  have h := hnode id
  simpa [node, hlt, hlt'] using h

@[simp] theorem restore?_marked : store.marked.restore? version = store.restore? version := by
  have hload : ∀ node : Node, ({ node.marked.load version with pending := false } : Node) =
      { node.load version with pending := false } := by
    intro node
    unfold Node.load Node.marked
    dsimp only
    cases node.history.deleted.at? version with
    | none => rfl
    | some deleted => rfl
  simp only [restore?, marked, Array.map_map, Function.comp_def, hload]

-- Stores that differ only by marks on nodes that a commit finds as they were recorded.
structure Twins (store other : Store) : Prop where
  marked : other.marked = store.marked
  known_iff : ∀ id, other.Known id ↔ store.Known id

theorem Twins.refl (store : Store) : store.Twins store := ⟨rfl, fun _ => Iff.rfl⟩

theorem Twins.getD {result : Option Store} (ht : store.Twins other) : (result.getD store).Twins (result.getD other) := by
  cases result with
  | none => exact ht
  | some result => exact .refl result

section Twins

variable (ht : store.Twins other)

include ht

theorem Twins.size : other.size = store.size := by
  rw [← size_marked, ht.marked, size_marked]

theorem Twins.clock : other.version = store.version ∧ other.newest = store.newest :=
  ⟨show other.marked.version = store.marked.version by rw [ht.marked],
    show other.marked.newest = store.marked.newest by rw [ht.marked]⟩

theorem Twins.node : (other.node id).marked = (store.node id).marked := by
  by_cases hlt : id < store.size
  · have h : other.marked.node id = store.marked.node id := by rw [ht.marked]
    rwa [node_marked, node_marked, if_pos (ht.size ▸ hlt), if_pos hlt] at h
  · rw [node_of_size_le (ht.size ▸ Nat.le_of_not_lt hlt), node_of_size_le (Nat.le_of_not_lt hlt)]

-- Nodes with different marks are as they were recorded last.
theorem Twins.pending (hc : store.Coherent) (hother : other.Coherent) :
    (other.node id).pending = (store.node id).pending ∨ (store.node id).HeldAt store.version := by
  have heq := Node.eq_of_marked (@Twins.node store other id ht)
  have hknown := ht.known_iff id
  rw [Known, Known, ht.clock.1] at hknown
  have hrecorded : (other.node id).RecordedAt store.version ↔ (store.node id).RecordedAt store.version := by
    rw [heq]
    exact Iff.rfl
  rw [hrecorded] at hknown
  by_cases hr : (store.node id).RecordedAt store.version
  · cases hpending : (store.node id).pending
    · exact Or.inr (hc.held id hpending hr)
    · cases hpending' : (other.node id).pending
      · have hheld := hother.held id hpending' (ht.clock.1 ▸ hrecorded.mpr hr)
        rw [ht.clock.1, heq] at hheld
        exact Or.inr ⟨hheld.attributes, hheld.deleted⟩
      · exact Or.inl rfl
  · refine Or.inl (Bool.eq_iff_iff.mpr ⟨fun h => ?_, fun h => ?_⟩)
    · exact (hknown.mp (Or.inl h)).resolve_right hr
    · exact (hknown.mpr (Or.inl h)).resolve_right hr

theorem Twins.commit (hc : store.Coherent) (hother : other.Coherent) : other.commit = store.commit := by
  refine ext_node ?_ ?_ ?_ fun id => ?_
  · simp [commit_eq, Store.size, show other.nodes.size = store.nodes.size from ht.size]
  · rw [version_commit, version_commit, ht.clock.1]
  · rw [newest_commit, newest_commit, ht.clock.1]
  · rw [node_commit, node_commit, ht.clock.1, ht.clock.2]
    exact Node.commit_congr (hc.endsBy id) hc.version_le ht.node (ht.pending hc hother)

theorem Twins.restore? : other.restore? version = store.restore? version := by
  rw [← restore?_marked, ht.marked, restore?_marked]

end Twins

theorem Remarked.twins (hr : store.Remarked store.Known other) : store.Twins other := by
  refine ⟨ext_node ?_ hr.alike.version hr.alike.newest fun id => ?_, fun id => hr.known_iff⟩
  · rw [size_marked, size_marked, hr.size]
  · rw [node_marked, node_marked, hr.size]
    have hmarked : (other.node id).marked = (store.node id).marked :=
      congrArg (fun node : Node => { node with pending := true }) (hr.unmarked id)
    split
    · exact hmarked
    · rename_i h
      rw [node_of_size_le (Nat.le_of_not_lt h), node_of_size_le (hr.size ▸ Nat.le_of_not_lt h)]

-- Twins stay such by the same steps.
theorem Twins.grows {after other' : Store} (ht : store.Twins other) (hmarked : other'.marked = after.marked)
    (hg : store.Grows after) (hg' : other.Grows other') : after.Twins other' := by
  have hsize : other'.size = after.size := by rw [← size_marked, hmarked, size_marked]
  refine ⟨hmarked, fun id => ?_⟩
  rw [hg.known_iff, hg'.known_iff, WithNew, WithNew, ht.known_iff, ht.size, hsize]

end Store

end IncrementalLR
