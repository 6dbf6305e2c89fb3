import IncrementalLR.Proofs.Tree.Records

namespace IncrementalLR

namespace Node

variable {node : Node} {version newest later : Nat}

-- What forgetting the versions that are not reached any more makes of a node.
def branch (version newest : Nat) (node : Node) : Node :=
  { node with history := if version < newest then node.history.truncateAfter version else node.history }

theorem endsBy_branch (he : node.EndsBy newest) (hle : version ≤ newest) :
    (node.branch version newest).EndsBy version := by
  by_cases h : version < newest
  · rw [branch, if_pos h]
    exact ⟨AttrLog.endsBy_upTo, AttrLog.endsBy_upTo⟩
  · rw [branch, if_neg h]
    obtain rfl : version = newest := by omega
    exact he

theorem at?_branch (he : node.EndsBy newest) (hle : version ≤ newest) :
    (node.branch version newest).history.attributes.at? later = node.history.attributes.at? (min later version) ∧
      (node.branch version newest).history.deleted.at? later = node.history.deleted.at? (min later version) := by
  by_cases h : version < newest
  · rw [branch, if_pos h]
    exact ⟨AttrLog.at?_truncateAfter, AttrLog.at?_truncateAfter⟩
  · rw [branch, if_neg h]
    obtain rfl : version = newest := by omega
    by_cases hlater : later ≤ version
    · rw [Nat.min_eq_left hlater]
      exact ⟨rfl, rfl⟩
    · have hle := Nat.le_of_not_le hlater
      rw [Nat.min_eq_right hle]
      exact ⟨he.attributes.at? hle, he.deleted.at? hle⟩

-- What a commit makes of a node.
def commit (version newest : Nat) (node : Node) : Node :=
  if node.pending then { (node.branch version newest).record (version + 1) with pending := false }
  else node.branch version newest

theorem commit_spec : (node.commit version newest).toAttributes = node.toAttributes ∧
    (node.commit version newest).deleted = node.deleted ∧ (node.commit version newest).pending = false := by
  unfold commit
  split
  · exact ⟨rfl, rfl, rfl⟩
  · rename_i h
    exact ⟨rfl, rfl, eq_false_of_ne_true h⟩

theorem endsBy_commit (he : node.EndsBy newest) (hle : version ≤ newest) :
    (node.commit version newest).EndsBy (version + 1) := by
  have hbranch := endsBy_branch he hle
  unfold commit
  split
  · exact ⟨AttrLog.endsBy_record, AttrLog.endsBy_record⟩
  · exact ⟨hbranch.attributes.mono (Nat.le_succ _), hbranch.deleted.mono (Nat.le_succ _)⟩

theorem at?_commit (he : node.EndsBy newest) (hle : version ≤ newest) :
    (node.commit version newest).history.attributes.at? later =
        (if node.pending = true ∧ version < later then some node.toAttributes
          else node.history.attributes.at? (min later version)) ∧
      (node.commit version newest).history.deleted.at? later =
        if node.pending = true ∧ version < later then some node.deleted
        else node.history.deleted.at? (min later version) := by
  have hbranch := @at?_branch node version newest later he hle
  unfold commit
  by_cases hpending : node.pending = true
  · rw [if_pos hpending]
    change ((node.branch version newest).history.attributes.record _ _).at? later = _ ∧
      ((node.branch version newest).history.deleted.record _ _).at? later = _
    rw [AttrLog.at?_record, AttrLog.at?_record, hbranch.1, hbranch.2]
    by_cases hlater : version + 1 ≤ later
    · rw [if_pos hlater, if_pos hlater, if_pos ⟨hpending, hlater⟩, if_pos ⟨hpending, hlater⟩]
      exact ⟨rfl, rfl⟩
    · rw [if_neg hlater, if_neg hlater, if_neg fun h => hlater h.2, if_neg fun h => hlater h.2]
      exact ⟨rfl, rfl⟩
  · rw [if_neg hpending, if_neg fun h => hpending h.1, if_neg fun h => hpending h.1]
    exact hbranch

theorem recordedAt_commit (he : node.EndsBy newest) (hle : version ≤ newest) :
    (node.commit version newest).RecordedAt later ↔
      node.pending = true ∧ version < later ∨ node.RecordedAt (min later version) := by
  rw [RecordedAt, (at?_commit he hle).2, RecordedAt]
  split
  · rename_i h
    exact ⟨fun _ => Or.inl h, fun _ => rfl⟩
  · rename_i h
    exact ⟨Or.inr, fun hor => hor.resolve_left h⟩

-- A node that is as it was recorded is not recorded anew.
theorem HeldAt.commit (hh : node.HeldAt version) (he : node.EndsBy newest) (hle : version ≤ newest) (pending : Bool) :
    ({ node with pending := pending } : Node).commit version newest = { node.branch version newest with pending := false } := by
  have hends := endsBy_branch he hle
  have hat := @at?_branch node version newest version he hle
  rw [Nat.min_self] at hat
  have hrecord : (node.branch version newest).history.record (version + 1) node.toAttributes node.deleted =
      (node.branch version newest).history := by
    rw [History.record, AttrLog.record_of_at? hends.attributes (hat.1.trans hh.attributes) (Nat.lt_succ_self _),
      AttrLog.record_of_at? hends.deleted (hat.2.trans hh.deleted) (Nat.lt_succ_self _)]
  unfold Node.commit
  cases pending with
  | false => rfl
  | true =>
      exact congrArg (fun history => { node.branch version newest with pending := false, history := history }) hrecord

@[simp] theorem history_load : (node.load version).history = node.history := by
  unfold load
  split
  · rfl
  · rfl

-- A node that was recorded by a version is loaded as it was recorded last.
theorem load_heldAt {attributes : Attributes} (hr : node.RecordedAt version)
    (ha : node.history.attributes.at? version = some attributes) : (node.load version).HeldAt version := by
  obtain ⟨deleted, hdeleted⟩ := Option.isSome_iff_exists.mp hr
  have hload : node.load version = { node with toAttributes := attributes, deleted := deleted } := by
    rw [load, hdeleted, ha]
    rfl
  rw [hload]
  exact ⟨ha, hdeleted⟩

end Node

namespace Store

variable {store : Store} {id version : Nat}

theorem node_map {nodes : Array Node} {change : Node → Node} {version newest : Nat} :
    (Store.mk (nodes.map change) version newest).node id =
      if id < nodes.size then change (nodes.getD id default) else default := by
  rw [node, Array.getD_eq_getD_getElem?, Array.getElem?_map, Array.getD_eq_getD_getElem?]
  split
  · rename_i h
    rw [Array.getElem?_eq_getElem h]
    rfl
  · rename_i h
    rw [Array.getElem?_eq_none (Nat.le_of_not_lt h)]
    rfl

theorem commit_eq : store.commit =
    ⟨store.nodes.map (Node.commit store.version store.newest), store.nextVersion, store.nextVersion⟩ := by
  unfold commit forgetAfter recordPending
  split
  · rename_i h
    simp only [Array.map_map, nextVersion, Store.mk.injEq, and_self, and_true]
    refine congrArg (fun change => store.nodes.map change) (funext fun node => ?_)
    simp only [Function.comp, Node.commit, Node.branch, if_pos h]
  · rename_i h
    simp only [nextVersion, Store.mk.injEq, and_self, and_true]
    refine congrArg (fun change => store.nodes.map change) (funext fun node => ?_)
    simp only [Node.commit, Node.branch, if_neg h]

@[simp] theorem version_commit : store.commit.version = store.version + 1 := by
  rw [commit_eq]
  rfl

@[simp] theorem newest_commit : store.commit.newest = store.version + 1 := by
  rw [commit_eq]
  rfl

theorem node_commit : store.commit.node id = (store.node id).commit store.version store.newest := by
  rw [commit_eq, node_map]
  by_cases h : id < store.nodes.size
  · rw [if_pos h]
    rfl
  · have hdefault : (default : Node).commit store.version store.newest = default := by
      change (default : Node).branch store.version store.newest = default
      unfold Node.branch
      split
      · rfl
      · rfl
    rw [if_neg h, node_of_size_le (Nat.le_of_not_lt h), hdefault]

section Commit

variable (hl : store.Logged)

include hl

theorem Logged.known_commit : store.commit.Known id ↔ store.Known id := by
  rw [Known, node_commit, Node.commit_spec.2.2, Node.recordedAt_commit (hl.endsBy id) hl.version_le, version_commit,
    Nat.min_eq_right (Nat.le_succ _), Known]
  refine ⟨fun h => ?_, fun h => Or.inr (h.imp_left fun h => ⟨h, Nat.lt_succ_self _⟩)⟩
  exact (h.resolve_left Bool.false_ne_true).imp_left fun h => h.1

theorem Logged.recordedAt_commit : (store.commit.node id).RecordedAt version ↔
    (store.node id).pending = true ∧ store.version < version ∨ (store.node id).RecordedAt (min version store.version) := by
  rw [node_commit]
  exact Node.recordedAt_commit (hl.endsBy id) hl.version_le

theorem Logged.attributes_commit : (store.commit.node id).history.attributes.at? version =
    if (store.node id).pending = true ∧ store.version < version then some (store.node id).toAttributes
    else (store.node id).history.attributes.at? (min version store.version) := by
  rw [node_commit]
  exact (Node.at?_commit (hl.endsBy id) hl.version_le).1

theorem Logged.deleted_commit : (store.commit.node id).history.deleted.at? version =
    if (store.node id).pending = true ∧ store.version < version then some (store.node id).deleted
    else (store.node id).history.deleted.at? (min version store.version) := by
  rw [node_commit]
  exact (Node.at?_commit (hl.endsBy id) hl.version_le).2

-- What is known is recorded as it is.
theorem Logged.heldAt_commit (hk : store.Known id) : (store.commit.node id).HeldAt (store.version + 1) := by
  have hattributes := @attributes_commit store id (store.version + 1) hl
  have hdeleted := @deleted_commit store id (store.version + 1) hl
  have hsame := @Node.commit_spec (store.node id) store.version store.newest
  rw [← node_commit] at hsame
  rw [Nat.min_eq_right (Nat.le_succ _)] at hattributes hdeleted
  by_cases hpending : (store.node id).pending = true
  · rw [if_pos ⟨hpending, Nat.lt_succ_self _⟩] at hattributes hdeleted
    exact ⟨hattributes.trans (congrArg some hsame.1.symm), hdeleted.trans (congrArg some hsame.2.1.symm)⟩
  · rw [if_neg fun h => hpending h.1] at hattributes hdeleted
    have hheld := hl.held id (eq_false_of_ne_true hpending) (hk.resolve_left hpending)
    constructor
    · rw [hattributes, hheld.attributes, hsame.1]
    · rw [hdeleted, hheld.deleted, hsame.2.1]

theorem Logged.commit : store.commit.Logged where
  version_le := by
    rw [version_commit, newest_commit]
  endsBy id := by
    rw [node_commit, newest_commit]
    exact Node.endsBy_commit (hl.endsBy id) hl.version_le
  held id _ hrecorded := by
    rw [version_commit] at hrecorded ⊢
    rw [hl.recordedAt_commit, Nat.min_eq_right (Nat.le_succ _)] at hrecorded
    exact hl.heldAt_commit (hrecorded.imp_left And.left)
  recorded version id hrecorded := by
    rw [hl.recordedAt_commit] at hrecorded
    rw [hl.attributes_commit]
    split
    · exact ⟨_, rfl⟩
    · rename_i h
      exact hl.recorded _ id (hrecorded.resolve_left h)

end Commit

theorem Coherent.commit (hc : store.Coherent) : store.commit.Coherent where
  toLogged := hc.toLogged.commit
  closed id hid := by
    rw [node_commit, Node.commit_spec.1]
    exact (hc.closed id (hc.known_commit.mp hid)).imp fun _ => hc.known_commit.mpr
  past version id attributes hrecorded hattributes := by
    rw [hc.recordedAt_commit] at hrecorded
    rw [hc.attributes_commit] at hattributes
    split at hattributes
    · rename_i h
      obtain rfl := Option.some_inj.mp hattributes
      refine (hc.closed id (Or.inl h.1)).imp fun link hknown => hc.recordedAt_commit.mpr ?_
      rw [Nat.min_eq_right (Nat.le_of_lt h.2)]
      exact hknown.imp_left fun hpending => ⟨hpending, h.2⟩
    · rename_i h
      exact (hc.past _ id attributes (hrecorded.resolve_left h) hattributes).imp
        fun link hrecorded => hc.recordedAt_commit.mpr (Or.inr hrecorded)

-- What restoring a version comes to.
structure Restored (store : Store) (version : Nat) (after : Store) : Prop where
  version_le : version ≤ store.newest
  size : after.size = store.size
  clock : after.version = version ∧ after.newest = store.newest
  node : ∀ id, id < store.size → after.node id = { (store.node id).load version with pending := false }

theorem restored_of_restore? {after : Store} (h : store.restore? version = some after) :
    store.Restored version after := by
  unfold restore? at h
  split at h
  · cases h
  · rename_i hle
    obtain rfl := Option.some_inj.mp h
    refine ⟨Nat.not_lt.mp hle, by simp [size], ⟨rfl, rfl⟩, fun id hlt => ?_⟩
    exact node_map.trans (if_pos hlt)

section Restored

variable {after : Store} (hr : store.Restored version after)

include hr

theorem Restored.kept : (after.node id).history = (store.node id).history ∧ (after.node id).pending = false := by
  by_cases hlt : id < store.size
  · rw [hr.node id hlt]
    exact ⟨Node.history_load, rfl⟩
  · rw [node_of_size_le (Nat.le_of_not_lt hlt), node_of_size_le (hr.size ▸ Nat.le_of_not_lt hlt)]
    exact ⟨rfl, rfl⟩

theorem Restored.recordedAt {later : Nat} : (after.node id).RecordedAt later ↔ (store.node id).RecordedAt later := by
  rw [Node.RecordedAt, Node.RecordedAt, hr.kept.1]

theorem Restored.known_iff : after.Known id ↔ (store.node id).RecordedAt version := by
  rw [Known, hr.kept.2, hr.clock.1, hr.recordedAt]
  exact ⟨fun h => h.resolve_left Bool.false_ne_true, Or.inr⟩

theorem Restored.heldAt (hl : store.Logged) (h : (store.node id).RecordedAt version) :
    (after.node id).HeldAt version := by
  have hlt : id < store.size := by
    by_contra hge
    rw [node_of_size_le (Nat.le_of_not_lt hge)] at h
    exact Node.not_recordedAt_default h
  obtain ⟨attributes, hattributes⟩ := hl.recorded version id h
  have hload := Node.load_heldAt h hattributes
  rw [hr.node id hlt]
  exact ⟨hload.attributes, hload.deleted⟩

theorem Logged.restored (hl : store.Logged) : after.Logged where
  version_le := by
    rw [hr.clock.1, hr.clock.2]
    exact hr.version_le
  endsBy id := by
    rw [hr.clock.2]
    exact ⟨hr.kept.1 ▸ (hl.endsBy id).attributes, hr.kept.1 ▸ (hl.endsBy id).deleted⟩
  held id _ hid := by
    rw [hr.clock.1] at hid ⊢
    exact hr.heldAt hl (hr.recordedAt.mp hid)
  recorded later id hid := by
    rw [hr.kept.1]
    exact hl.recorded later id (hr.recordedAt.mp hid)

-- Each node that was recorded by a version is given back as it was then.
theorem Coherent.restored (hc : store.Coherent) : after.Coherent where
  toLogged := hc.toLogged.restored hr
  closed id hid := by
    have hrecorded := hr.known_iff.mp hid
    obtain ⟨attributes, hattributes⟩ := hc.recorded version id hrecorded
    have hsame : some (after.node id).toAttributes = some attributes :=
      (hr.heldAt hc.toLogged hrecorded).attributes.symm.trans (hr.kept.1 ▸ hattributes)
    rw [Option.some_inj.mp hsame]
    exact (hc.past version id attributes hrecorded hattributes).imp fun _ => hr.known_iff.mpr
  past later id attributes hid hattributes := by
    rw [hr.kept.1] at hattributes
    exact (hc.past later id attributes (hr.recordedAt.mp hid) hattributes).imp fun _ => hr.recordedAt.mpr

end Restored

-- Whether certain nodes have been recorded at the version of a store, and nothing else
-- has changed.
structure Saved (store : Store) (ids : List Nat) (other : Store) : Prop where
  size : other.size = store.size
  version : other.version = store.version
  newest : other.newest = store.newest
  kept : ∀ id, other.node id = { store.node id with history := (other.node id).history }
  attributes : ∀ id later, (other.node id).history.attributes.at? later =
    if id ∈ ids ∧ store.version ≤ later then some (store.node id).toAttributes
    else (store.node id).history.attributes.at? later
  deleted : ∀ id later, (other.node id).history.deleted.at? later =
    if id ∈ ids ∧ store.version ≤ later then some (store.node id).deleted
    else (store.node id).history.deleted.at? later
  endsBy : ∀ id bound, store.version ≤ bound → (store.node id).EndsBy bound → (other.node id).EndsBy bound

theorem saved_save (hlt : id < store.size) : store.Saved [id] (store.save id store.version) := by
  have hnode : ∀ other, (store.save id store.version).node other =
      if other = id then (store.node other).record store.version else store.node other := by
    intro other
    rw [save, node_update]
    simp only [hlt, and_true]
  have hcases : ∀ other later, (other ∈ [id] ∧ store.version ≤ later) = (other = id ∧ store.version ≤ later) := by
    intro other later
    rw [List.mem_singleton]
  refine ⟨size_update _, rfl, rfl, fun other => ?_, fun other later => ?_, fun other later => ?_,
    fun other bound hbound he => ?_⟩
  · rw [hnode]
    split
    · rfl
    · rfl
  · simp only [hcases, hnode]
    by_cases h : other = id
    · simp only [h, if_true, true_and]
      exact AttrLog.at?_record
    · simp only [h, if_false, false_and]
  · simp only [hcases, hnode]
    by_cases h : other = id
    · simp only [h, if_true, true_and]
      exact AttrLog.at?_record
    · simp only [h, if_false, false_and]
  · rw [hnode]
    split
    · exact ⟨AttrLog.endsBy_record.mono hbound, AttrLog.endsBy_record.mono hbound⟩
    · exact he

theorem saved_saveAll {ids : List Nat} (hlt : ∀ id ∈ ids, id < store.size) :
    store.Saved ids (ids.foldl (fun store id => store.save id store.version) store) := by
  induction ids generalizing store with
  | nil =>
      exact ⟨rfl, rfl, rfl, fun _ => rfl, fun _ _ => (if_neg fun h => nomatch h.1).symm,
        fun _ _ => (if_neg fun h => nomatch h.1).symm, fun _ _ _ h => h⟩
  | cons first rest ih =>
      obtain ⟨hfirst, hrest⟩ := List.forall_mem_cons.mp hlt
      have hs := saved_save hfirst
      rw [List.foldl_cons]
      generalize store.save first store.version = middle at hs ⊢
      have hr := ih (fun id h => hs.size.symm ▸ hrest id h)
      generalize rest.foldl (fun store id => store.save id store.version) middle = last at hr ⊢
      have hmiddle : ∀ id, (middle.node id).toAttributes = (store.node id).toAttributes ∧
          (middle.node id).deleted = (store.node id).deleted := by
        intro id
        rw [hs.kept id]
        exact ⟨rfl, rfl⟩
      refine ⟨hr.size.trans hs.size, hr.version.trans hs.version, hr.newest.trans hs.newest, fun id => ?_,
        fun id later => ?_, fun id later => ?_, fun id bound hbound he => ?_⟩
      · conv_lhs => rw [hr.kept id, hs.kept id]
      · rw [hr.attributes, hs.attributes, hs.version, (hmiddle id).1]
        simp only [List.mem_cons, List.not_mem_nil, or_false]
        by_cases hle : store.version ≤ later
        · by_cases hid : id ∈ rest
          · simp [hle, hid]
          · simp [hle, hid]
        · simp [hle]
      · rw [hr.deleted, hs.deleted, hs.version, (hmiddle id).2]
        simp only [List.mem_cons, List.not_mem_nil, or_false]
        by_cases hle : store.version ≤ later
        · by_cases hid : id ∈ rest
          · simp [hle, hid]
          · simp [hle, hid]
        · simp [hle]
      · exact hr.endsBy id bound (hs.version ▸ hbound) (hs.endsBy id bound hbound he)

section Saved

variable {other : Store} {ids : List Nat} (hs : store.Saved ids other)

include hs

theorem Saved.recordedAt {later : Nat} : (other.node id).RecordedAt later ↔
    id ∈ ids ∧ store.version ≤ later ∨ (store.node id).RecordedAt later := by
  rw [Node.RecordedAt, hs.deleted, Node.RecordedAt]
  split
  · rename_i h
    exact ⟨fun _ => Or.inl h, fun _ => rfl⟩
  · rename_i h
    exact ⟨Or.inr, fun hor => hor.resolve_left h⟩

theorem Saved.pending : (other.node id).pending = (store.node id).pending := by
  rw [hs.kept id]

theorem Saved.toAttributes : (other.node id).toAttributes = (store.node id).toAttributes := by
  rw [hs.kept id]

theorem Saved.known_iff (hpending : ∀ id ∈ ids, (store.node id).pending = true) : other.Known id ↔ store.Known id := by
  rw [Known, hs.pending, hs.version, hs.recordedAt]
  refine ⟨fun h => h.elim Or.inl fun h => ?_, fun h => h.imp_right Or.inr⟩
  exact h.imp_left fun h => hpending id h.1

theorem Logged.saved (hl : store.Logged) (hpending : ∀ id ∈ ids, (store.node id).pending = true) : other.Logged where
  version_le := by
    rw [hs.version, hs.newest]
    exact hl.version_le
  endsBy id := by
    rw [hs.newest]
    exact hs.endsBy id _ hl.version_le (hl.endsBy id)
  held id hfree hrecorded := by
    have hpend := hs.pending.symm.trans hfree
    have hid : id ∉ ids := fun h => by
      rw [hpending id h] at hpend
      cases hpend
    have hdeleted : (other.node id).deleted = (store.node id).deleted := by rw [hs.kept id]
    rw [hs.version] at hrecorded ⊢
    have hheld := hl.held id hpend ((hs.recordedAt.mp hrecorded).resolve_left fun h => hid h.1)
    constructor
    · rw [hs.attributes, if_neg fun h => hid h.1, hs.toAttributes]
      exact hheld.attributes
    · rw [hs.deleted, if_neg fun h => hid h.1, hdeleted]
      exact hheld.deleted
  recorded later id hrecorded := by
    rw [hs.attributes]
    split
    · exact ⟨_, rfl⟩
    · rename_i h
      exact hl.recorded later id ((hs.recordedAt.mp hrecorded).resolve_left h)

-- Nodes that are recorded as they are, all at once, stay coherent if they lead to no
-- others.
theorem Coherent.saved (hc : store.Coherent) (hpending : ∀ id ∈ ids, (store.node id).pending = true)
    (hlinks : ∀ id ∈ ids, (store.node id).Within (· ∈ ids)) : other.Coherent where
  toLogged := hc.toLogged.saved hs hpending
  closed id hid := by
    rw [hs.toAttributes]
    exact (hc.closed id ((hs.known_iff hpending).mp hid)).imp fun _ => (hs.known_iff hpending).mpr
  past later id attributes hrecorded hattributes := by
    rw [hs.attributes] at hattributes
    split at hattributes
    · rename_i h
      obtain rfl := Option.some_inj.mp hattributes
      exact (hlinks id h.1).imp fun link hlink => hs.recordedAt.mpr (Or.inl ⟨hlink, h.2⟩)
    · rename_i h
      exact (hc.past later id attributes ((hs.recordedAt.mp hrecorded).resolve_left h) hattributes).imp
        fun link hlink => hs.recordedAt.mpr (Or.inr hlink)

end Saved

end Store

end IncrementalLR
