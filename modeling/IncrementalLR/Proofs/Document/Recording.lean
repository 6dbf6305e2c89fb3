import IncrementalLR.Proofs.Document.Drafts
import IncrementalLR.Proofs.Tree.Texts

namespace IncrementalLR

-- What documents were when they were recorded as a version, with the store right after that.
structure Recording where
  version : Nat
  store : Store
  documents : List Document

namespace Document

-- The nodes of the tree of a document.
def Has (document : Document) (store : Store) (id : Nat) : Prop := id = document.root ∨ store.Below document.root id

-- Whether a document is in a store what it was when it was recorded: each node of its tree
-- with all that versions keep, what is copied from it, and its tokens.
structure Regains (document : Document) (recorded store : Store) : Prop where
  nodes : ∀ id, document.Has recorded id → (store.node id).toAttributes = (recorded.node id).toAttributes ∧
    (store.node id).deleted = (recorded.node id).deleted
  snapshot : store.snapshot document.root = recorded.snapshot document.root
  tokens : document.tokens store = document.tokens recorded

-- Whether its text is what it was. The text of a document that is embedded in itself has no
-- end, but is the same down to any depth.
structure RegainsText (document : Document) (recorded store : Store) : Prop where
  depth : ∀ depth, store.textBelow depth document.root = recorded.textBelow depth document.root
  text : ¬recorded.Loops document.root → document.text store = document.text recorded

-- Whether the logs of a store have a version of a document as it was recorded.
def Logs (document : Document) (store : Store) (version : Nat) (recorded : Store) : Prop :=
  ∀ id, document.Has recorded id →
    (store.node id).history.attributes.at? version = some (recorded.node id).toAttributes ∧
      (store.node id).history.deleted.at? version = some (recorded.node id).deleted

def ExistedAt (document : Document) (store : Store) (version : Nat) : Prop :=
  (store.node document.root).history.deleted.at? version = some false

variable {document : Document} {store after recorded result : Store} {version later : Nat} {forest : Forest}

theorem ExistedAt.of_history (he : document.ExistedAt store version)
    (hhistory : (after.node document.root).history = (store.node document.root).history) :
    document.ExistedAt after version := by
  rw [ExistedAt, hhistory]
  exact he

theorem has_iff (ht : document.Threaded store forest) {id : Nat} :
    document.Has store id ↔ id ∈ document.root :: forest.ids := by
  rw [Has, ht.toPlanted.below_iff, List.mem_cons]

theorem Logs.congr (hl : document.Logs store version recorded)
    (hsame : ∀ id, id < store.size →
      (after.node id).history.attributes.at? later = (store.node id).history.attributes.at? version ∧
        (after.node id).history.deleted.at? later = (store.node id).history.deleted.at? version) :
    document.Logs after later recorded := by
  intro id hid
  have hlogged := hl id hid
  have hlt : id < store.size := by
    by_contra hge
    rw [Store.node_of_size_le (Nat.le_of_not_lt hge)] at hlogged
    cases hlogged.1
  rw [(hsame id hlt).1, (hsame id hlt).2]
  exact hlogged

-- Going to a version gives back what the logs have of it.
theorem Logs.restored (hl : document.Logs store version recorded) (hlogged : store.Logged)
    (hr : store.Restored version result) {id : Nat} (hid : document.Has recorded id) :
    (result.node id).toAttributes = (recorded.node id).toAttributes ∧
      (result.node id).deleted = (recorded.node id).deleted := by
  obtain ⟨hattributes, hdeleted⟩ := hl id hid
  have hheld := hr.heldAt hlogged (show (store.node id).RecordedAt version by rw [Node.RecordedAt, hdeleted]; rfl)
  exact ⟨Option.some_inj.mp (hheld.attributes.symm.trans (hr.kept.1 ▸ hattributes)),
    Option.some_inj.mp (hheld.deleted.symm.trans (hr.kept.1 ▸ hdeleted))⟩

theorem ExistedAt.restored (he : document.ExistedAt store version) (hlt : document.root < store.size)
    (hr : store.Restored version result) : (result.node document.root).deleted = false := by
  rw [hr.deleted hlt, show (store.node document.root).history.deleted.at? version = some false from he]
  rfl

theorem existedAt_of_restored (hlt : document.root < store.size) (hr : store.Restored version result)
    (hexists : (result.node document.root).deleted = false) : document.ExistedAt store version := by
  rw [hr.deleted hlt] at hexists
  rw [ExistedAt]
  cases h : (store.node document.root).history.deleted.at? version with
  | none =>
      rw [h] at hexists
      cases hexists
  | some deleted =>
      rw [h] at hexists
      exact congrArg some hexists

end Document

-- Whether a recording is one of trees, in which nothing is embedded but what it is of itself.
structure Recording.Sound (recording : Recording) : Prop where
  threaded : ∀ document ∈ recording.documents, ∃ forest, document.Threaded recording.store forest
  boxes : ∀ document ∈ recording.documents, ∀ id, recording.store.Below document.root id → ∀ inner,
    (recording.store.node id).box = some inner →
      ∃ other ∈ recording.documents, other.root = inner ∧ (recording.store.node inner).deleted = false

-- Whether a recording is still one of the current branch of a store.
structure Recording.Stays (recording : Recording) (documents : List Document) (store : Store) : Prop where
  known : ∀ document ∈ recording.documents, document ∈ documents
  version_le : recording.version ≤ store.newest
  size_le : recording.store.size ≤ store.size
  box : ∀ id, id < recording.store.size → (store.node id).box = (recording.store.node id).box
  logs : ∀ document ∈ recording.documents, document.Logs store recording.version recording.store

-- Whether the nodes of a store are there after a step, and their logs are as they were, up
-- to some version.
structure Store.Retains (store after : Store) (latest : Nat) : Prop where
  size_le : store.size ≤ after.size
  box : ∀ id, id < store.size → (after.node id).box = (store.node id).box
  logs : ∀ version, version ≤ latest → ∀ id, id < store.size →
    (after.node id).history.attributes.at? version = (store.node id).history.attributes.at? version ∧
      (after.node id).history.deleted.at? version = (store.node id).history.deleted.at? version

section Retains

variable {store after recorded : Store} {latest version : Nat} {document : Document} {documents others : List Document}
  {recording : Recording}

theorem Store.Remembers.retains (hr : store.Remembers after) : store.Retains after latest where
  size_le := hr.size_le
  box := hr.box
  logs version _ id _ := by
    rw [hr.history]
    exact ⟨rfl, rfl⟩

theorem Document.Opens.retains {ids : List Nat} (ho : Document.Opens store ids after) : store.Retains after latest where
  size_le := ho.spans.1
  box _ _ := ho.box
  logs version _ id hlt := (ho.recorded version).2 id fun h => Nat.not_lt.mpr (ho.spans.2.2.2 id h) hlt

-- A commit leaves the logs as they are up to the version that it is made on.
theorem Store.Logged.retains_commit (hl : store.Logged) : store.Retains store.commit store.version where
  size_le := Nat.le_of_eq Store.size_commit.symm
  box _ _ := Store.box_commit
  logs version hle id _ := by
    rw [hl.attributes_commit, hl.deleted_commit, if_neg fun h => Nat.not_lt.mpr hle h.2,
      if_neg fun h => Nat.not_lt.mpr hle h.2, Nat.min_eq_left hle]
    exact ⟨rfl, rfl⟩

namespace Store.Retains

theorem documentLogs (hr : store.Retains after latest) (hle : version ≤ latest) (hl : document.Logs store version recorded) :
    document.Logs after version recorded :=
  hl.congr (hr.logs version hle)

theorem existedAt_iff (hr : store.Retains after latest) (hle : version ≤ latest) (hlt : document.root < store.size) :
    document.ExistedAt after version ↔ document.ExistedAt store version := by
  rw [Document.ExistedAt, (hr.logs version hle _ hlt).2, Document.ExistedAt]

theorem stays (hr : store.Retains after latest) (hs : recording.Stays documents store) (hle : recording.version ≤ latest)
    (hnewest : recording.version ≤ after.newest) (hsub : documents ⊆ others) : recording.Stays others after where
  known document hd := hsub (hs.known document hd)
  version_le := hnewest
  size_le := Nat.le_trans hs.size_le hr.size_le
  box id hlt := (hr.box id (Nat.lt_of_lt_of_le hlt hs.size_le)).trans (hs.box id hlt)
  logs document hd := hr.documentLogs hle (hs.logs document hd)

end Store.Retains

end Retains

namespace Document

variable {document : Document} {recorded result : Store} {forest : Forest} {recording : Recording}

-- The same nodes make up the same tree.
theorem regains_of_nodes (ht : document.Threaded recorded forest) (hsize : recorded.size ≤ result.size)
    (hnodes : ∀ id, document.Has recorded id → (result.node id).toAttributes = (recorded.node id).toAttributes ∧
      (result.node id).deleted = (recorded.node id).deleted) : document.Regains recorded result := by
  have hresult := ht.congr (fun id h => Nat.lt_of_lt_of_le (ht.lt_size id h) hsize)
    fun id h => (hnodes id ((has_iff ht).mpr h)).1
  refine ⟨hnodes, ?_, ?_⟩
  · rw [hresult.toPlanted.snapshot, ht.toPlanted.snapshot, Forest.snapshots_reflag]
  · rw [Document.tokens, Document.tokens, hresult.thread, ht.thread, hresult.toPlanted.leaves, ht.toPlanted.leaves,
      Forest.leaves_reflag, List.map_map]
    rfl

theorem below_of_nodes (ht : document.Threaded recorded forest) (hsize : recorded.size ≤ result.size)
    (hnodes : ∀ id, document.Has recorded id → (result.node id).toAttributes = (recorded.node id).toAttributes) {id : Nat}
    (h : result.Below document.root id) : recorded.Below document.root id := by
  have hresult := ht.congr (fun id h => Nat.lt_of_lt_of_le (ht.lt_size id h) hsize)
    fun id h => hnodes id ((has_iff ht).mpr h)
  rw [ht.toPlanted.below_iff, ← Forest.ids_reflag]
  exact hresult.mem_of_below h

-- With the documents that it embeds, a document has its text back.
theorem regainsText (hs : recording.Sound) (hd : document ∈ recording.documents)
    (hsize : recording.store.size ≤ result.size)
    (hnodes : ∀ document ∈ recording.documents, ∀ id, document.Has recording.store id →
      (result.node id).toAttributes = (recording.store.node id).toAttributes)
    (hbox : ∀ id, id < recording.store.size → (result.node id).box = (recording.store.node id).box) :
    document.RegainsText recording.store result := by
  have hdepth : ∀ depth, result.textBelow depth document.root = recording.store.textBelow depth document.root := by
    intro depth
    refine @Store.textBelow_congr recording.store result _ _ (fun id => ∃ document ∈ recording.documents,
      document.Has recording.store id) (fun id hid => ?_) (fun id hid next hnext => ?_) ⟨document, hd, Or.inl rfl⟩
    · obtain ⟨other, hother, hid⟩ := hid
      obtain ⟨forest, ht⟩ := hs.threaded other hother
      exact ⟨hnodes other hother id hid, fun _ => hbox id (ht.lt_size id ((has_iff ht).mp hid))⟩
    · obtain ⟨other, hother, hid⟩ := hid
      obtain ⟨forest, ht⟩ := hs.threaded other hother
      cases hnext with
      | child _ hchild =>
          rcases hid with rfl | hid
          · exact ⟨other, hother, Or.inr (.child hchild)⟩
          · exact ⟨other, hother, Or.inr (.further hid hchild)⟩
      | box hleaf hinner =>
          rcases hid with rfl | hid
          · rw [Node.isLeaf, show (recording.store.node other.root).symbol = rootSymbol from
              congrArg Label.symbol ht.label] at hleaf
            cases hleaf
          · obtain ⟨embedded, hembedded, rfl, -⟩ := hs.boxes other hother id hid next hinner
            exact ⟨embedded, hembedded, Or.inl rfl⟩
  refine ⟨hdepth, fun hloops => ?_⟩
  rw [Document.text, Store.text, hdepth, Store.textBelow_eq_text hloops hsize, Document.text]

end Document

end IncrementalLR
