import IncrementalLR.Proofs.Parse.Rollback
import IncrementalLR.Proofs.Tree.Logs
import IncrementalLR.Proofs.Tree.Marks

namespace IncrementalLR

namespace Node

variable {node : Node} {version bound : Nat}

-- Whether a node has been recorded by a version, and whether it is as it was recorded
-- last.
def RecordedAt (node : Node) (version : Nat) : Prop := (node.history.deleted.at? version).isSome = true

instance : Decidable (node.RecordedAt version) :=
  inferInstanceAs (Decidable ((node.history.deleted.at? version).isSome = true))

structure HeldAt (node : Node) (version : Nat) : Prop where
  attributes : node.history.attributes.at? version = some node.toAttributes
  deleted : node.history.deleted.at? version = some node.deleted

-- Whether a node has no record newer than a version.
structure EndsBy (node : Node) (bound : Nat) : Prop where
  attributes : node.history.attributes.EndsBy bound
  deleted : node.history.deleted.EndsBy bound

theorem not_recordedAt_default : ¬(default : Node).RecordedAt version := nofun

theorem endsBy_default : (default : Node).EndsBy bound := ⟨nofun, nofun⟩

end Node

namespace Store

-- The nodes that exist at the version of a store, and those that are not yet recorded.
def Known (store : Store) (id : Nat) : Prop :=
  (store.node id).pending = true ∨ (store.node id).RecordedAt store.version

instance (store : Store) (id : Nat) : Decidable (store.Known id) :=
  inferInstanceAs (Decidable ((store.node id).pending = true ∨ (store.node id).RecordedAt store.version))

-- What holds of the logs of a store. Nothing is recorded after the newest version, and
-- a node is left to the next commit if it is not as it was recorded.
structure Logged (store : Store) : Prop where
  version_le : store.version ≤ store.newest
  endsBy : ∀ id, (store.node id).EndsBy store.newest
  held : ∀ id, (store.node id).pending = false → (store.node id).RecordedAt store.version →
    (store.node id).HeldAt store.version
  recorded : ∀ version id, (store.node id).RecordedAt version →
    ∃ attributes, (store.node id).history.attributes.at? version = some attributes

-- The same for a store whose nodes are used only while they exist. What exists at some
-- version leads to nothing that did not exist then.
structure Coherent (store : Store) : Prop extends store.Logged where
  closed : store.Closed store.Known
  past : ∀ version id attributes, (store.node id).RecordedAt version →
    (store.node id).history.attributes.at? version = some attributes →
    attributes.Within fun link => (store.node link).RecordedAt version

theorem logged_empty : empty.Logged where
  version_le := Nat.le_refl _
  endsBy _ := Node.endsBy_default
  held _ _ h := (Node.not_recordedAt_default h).elim
  recorded _ _ h := (Node.not_recordedAt_default h).elim

theorem coherent_empty : empty.Coherent where
  toLogged := logged_empty
  closed _ h := (h.elim nofun Node.not_recordedAt_default : False).elim
  past _ _ _ h := (Node.not_recordedAt_default h).elim

variable {store middle after other : Store} {id version : Nat}

theorem not_known_of_size_le (h : store.size ≤ id) : ¬store.Known id := by
  rw [Known, node_of_size_le h]
  exact fun hk => hk.elim nofun Node.not_recordedAt_default

theorem Evolves.history {inside : Nat → Prop} (he : store.Evolves inside after) :
    (after.node id).history = (store.node id).history := by
  by_cases hlt : id < store.size
  · rcases he.node hlt with h | h
    · exact h.history
    · exact h.2.2
  · rw [node_of_size_le (Nat.le_of_not_lt hlt)]
    by_cases hnew : id < after.size
    · exact (he.node_new (Nat.le_of_not_lt hlt) hnew).2.2
    · rw [node_of_size_le (Nat.le_of_not_lt hnew)]

theorem Evolves.recordedAt {inside : Nat → Prop} (he : store.Evolves inside after) :
    (after.node id).RecordedAt version ↔ (store.node id).RecordedAt version := by
  rw [Node.RecordedAt, Node.RecordedAt, he.history]

-- The nodes that become known are the new ones.
theorem Evolves.known_iff (he : store.Evolves (store.WithNew after store.Known) after) :
    after.Known id ↔ store.WithNew after store.Known id := by
  rw [Known, he.versions.1, he.recordedAt]
  by_cases hlt : id < store.size
  · rcases he.node hlt with h | ⟨hinside, hpending, -⟩
    · rw [h.pending]
      exact ⟨Or.inl, fun h => h.resolve_right fun hnew => absurd hlt (Nat.not_lt.mpr hnew.1)⟩
    · exact ⟨fun _ => hinside, fun _ => Or.inl hpending⟩
  · have hge := Nat.le_of_not_lt hlt
    by_cases hnew : id < after.size
    · exact ⟨fun _ => Or.inr ⟨hge, hnew⟩, fun _ => Or.inl (he.node_new hge hnew).2.1⟩
    · rw [node_of_size_le (Nat.le_of_not_lt hnew), node_of_size_le hge]
      refine ⟨fun h => (h.elim nofun Node.not_recordedAt_default : False).elim, fun h => ?_⟩
      exact h.elim (fun hknown => absurd hknown (not_known_of_size_le hge)) fun h => absurd h.2 hnew

theorem Logged.evolves {inside : Nat → Prop} (hl : store.Logged) (he : store.Evolves inside after) : after.Logged where
  version_le := by
    rw [he.versions.1, he.versions.2]
    exact hl.version_le
  endsBy id := by
    have h := hl.endsBy id
    rw [he.versions.2]
    exact ⟨he.history ▸ h.attributes, he.history ▸ h.deleted⟩
  held id hpending hrecorded := by
    rw [he.versions.1] at hrecorded ⊢
    have hold := he.recordedAt.mp hrecorded
    have hlt : id < store.size := by
      by_contra hge
      rw [node_of_size_le (Nat.le_of_not_lt hge)] at hold
      exact Node.not_recordedAt_default hold
    rcases he.node hlt with h | ⟨-, h, -⟩
    · have hheld := hl.held id (h.pending ▸ hpending) hold
      constructor
      · rw [h.history, h.attributes, hheld.attributes]
      · rw [h.history, h.deleted, hheld.deleted]
    · rw [h] at hpending
      cases hpending
  recorded version id hrecorded := by
    rw [he.history]
    exact hl.recorded version id (he.recordedAt.mp hrecorded)

theorem Coherent.evolves (hc : store.Coherent) (he : store.Evolves (store.WithNew after store.Known) after) :
    after.Coherent where
  toLogged := hc.toLogged.evolves he
  closed id hid := by
    rw [he.known_iff] at hid
    exact (he.closed hc.closed.withNew id hid).imp fun _ => he.known_iff.mpr
  past version id attributes hrecorded hattributes := by
    rw [he.history] at hattributes
    exact (hc.past version id attributes (he.recordedAt.mp hrecorded) hattributes).imp fun _ => he.recordedAt.mpr

section Still

variable (hs : store.Still after)

include hs

theorem Still.recordedAt : (after.node id).RecordedAt version ↔ (store.node id).RecordedAt version := by
  rw [Node.RecordedAt, Node.RecordedAt, (hs.node id).history]

theorem Still.known_iff : after.Known id ↔ store.Known id := by
  rw [Known, Known, (hs.node id).pending, hs.versions.1, hs.recordedAt]

theorem Logged.still (hl : store.Logged) : after.Logged where
  version_le := by
    rw [hs.versions.1, hs.versions.2]
    exact hl.version_le
  endsBy id := by
    have h := hl.endsBy id
    rw [hs.versions.2]
    exact ⟨(hs.node id).history ▸ h.attributes, (hs.node id).history ▸ h.deleted⟩
  held id hpending hrecorded := by
    rw [hs.versions.1] at hrecorded ⊢
    have hheld := hl.held id ((hs.node id).pending ▸ hpending) (hs.recordedAt.mp hrecorded)
    constructor
    · rw [(hs.node id).history, (hs.node id).attributes, hheld.attributes]
    · rw [(hs.node id).history, (hs.node id).deleted, hheld.deleted]
  recorded version id hrecorded := by
    rw [(hs.node id).history]
    exact hl.recorded version id (hs.recordedAt.mp hrecorded)

theorem Coherent.still (hc : store.Coherent) : after.Coherent where
  toLogged := hc.toLogged.still hs
  closed id hid := by
    rw [(hs.node id).attributes]
    exact (hc.closed id (hs.known_iff.mp hid)).imp fun _ => hs.known_iff.mpr
  past version id attributes hrecorded hattributes := by
    rw [(hs.node id).history] at hattributes
    exact (hc.past version id attributes (hs.recordedAt.mp hrecorded) hattributes).imp fun _ => hs.recordedAt.mpr

end Still

section Remarked

variable {inside : Nat → Prop} (hr : store.Remarked inside after)

include hr

theorem Remarked.history : (after.node id).history = (store.node id).history :=
  show (after.node id).unmarked.history = (store.node id).unmarked.history by rw [hr.unmarked]

theorem Remarked.deleted : (after.node id).deleted = (store.node id).deleted :=
  show (after.node id).unmarked.deleted = (store.node id).unmarked.deleted by rw [hr.unmarked]

theorem Remarked.recordedAt : (after.node id).RecordedAt version ↔ (store.node id).RecordedAt version := by
  rw [Node.RecordedAt, Node.RecordedAt, hr.history]

theorem Logged.remarked (hl : store.Logged) : after.Logged where
  version_le := by
    rw [hr.alike.version, hr.alike.newest]
    exact hl.version_le
  endsBy id := by
    have h := hl.endsBy id
    rw [hr.alike.newest]
    exact ⟨hr.history ▸ h.attributes, hr.history ▸ h.deleted⟩
  held id hpending hrecorded := by
    rw [hr.alike.version] at hrecorded ⊢
    have hold : (store.node id).pending = false := by
      rcases hr.pending id with h | ⟨-, h⟩
      · exact h ▸ hpending
      · cases h.symm.trans hpending
    have hheld := hl.held id hold (hr.recordedAt.mp hrecorded)
    constructor
    · rw [hr.history, hr.attributes, hheld.attributes]
    · rw [hr.history, hr.deleted, hheld.deleted]
  recorded version id hrecorded := by
    rw [hr.history]
    exact hl.recorded version id (hr.recordedAt.mp hrecorded)

end Remarked

section Known

variable (hr : store.Remarked store.Known after)

include hr

theorem Remarked.known_iff : after.Known id ↔ store.Known id := by
  rw [Known, hr.recordedAt, hr.alike.version]
  rcases hr.pending id with h | ⟨hknown, h⟩
  · rw [h]
    exact Iff.rfl
  · exact ⟨fun _ => hknown, fun _ => Or.inl h⟩

theorem Coherent.remarked (hc : store.Coherent) : after.Coherent where
  toLogged := hc.toLogged.remarked hr
  closed id hid := by
    rw [hr.attributes]
    exact (hc.closed id (hr.known_iff.mp hid)).imp fun _ => hr.known_iff.mpr
  past version id attributes hrecorded hattributes := by
    rw [hr.history] at hattributes
    exact (hc.past version id attributes (hr.recordedAt.mp hrecorded) hattributes).imp fun _ => hr.recordedAt.mpr

end Known

-- Whether a step keeps a store coherent, with its new nodes as the only ones that
-- become known.
structure Grows (store after : Store) : Prop where
  size_le : store.size ≤ after.size
  known_iff : ∀ id, after.Known id ↔ store.WithNew after store.Known id
  coherent : store.Coherent → after.Coherent

theorem Evolves.grows (he : store.Evolves (store.WithNew after store.Known) after) : store.Grows after :=
  ⟨he.size_le, fun _ => he.known_iff, fun hc => hc.evolves he⟩

theorem withNew_of_size (h : after.size = store.size) : store.WithNew after store.Known id ↔ store.Known id :=
  ⟨fun hknown => hknown.resolve_right fun hnew => Nat.not_lt.mpr hnew.1 (h ▸ hnew.2), Or.inl⟩

theorem Remarked.grows (hr : store.Remarked store.Known after) : store.Grows after :=
  ⟨Nat.le_of_eq hr.size.symm, fun _ => hr.known_iff.trans (withNew_of_size hr.size).symm, fun hc => hc.remarked hr⟩

theorem Still.grows (hs : store.Still after) : store.Grows after :=
  ⟨Nat.le_of_eq hs.size.symm, fun _ => hs.known_iff.trans (withNew_of_size hs.size).symm, fun hc => hc.still hs⟩

theorem Grows.trans (hfirst : store.Grows middle) (hsecond : middle.Grows after) : store.Grows after := by
  refine ⟨Nat.le_trans hfirst.size_le hsecond.size_le, fun id => ?_, fun hc => hsecond.coherent (hfirst.coherent hc)⟩
  have hfirstle := hfirst.size_le
  have hsecondle := hsecond.size_le
  rw [hsecond.known_iff, WithNew, hfirst.known_iff, WithNew, WithNew, or_assoc]
  refine or_congr_right ⟨fun h => ?_, fun h => ?_⟩
  · omega
  · omega

end Store

end IncrementalLR
