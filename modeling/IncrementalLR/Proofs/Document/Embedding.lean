import IncrementalLR.Proofs.Document.Timeline

namespace IncrementalLR

-- What may become of documents that share one store, with recordings of the versions of the
-- current branch, where documents are also embedded in terminals that there are, and others
-- in their place.
inductive Chronicle : List Document → Store → List Recording → Prop where
  | empty : Chronicle [] .empty []
  | create {documents : List Document} {store : Store} {recordings : List Recording} (tokens : List Token) :
      Chronicle documents store recordings →
      Chronicle ((Document.ofTokens store tokens).2 :: documents) (Document.ofTokens store tokens).1
        (⟨store.version, (Document.ofTokens store tokens).1, [(Document.ofTokens store tokens).2]⟩ :: recordings)
  | edit {documents : List Document} {store after : Store} {recordings : List Recording} {edit : Edit} :
      Chronicle documents store recordings → edit.Fits documents store → (∀ tokens, edit ≠ .create tokens) →
      edit.run store = some after → Chronicle documents after recordings
  | commit {documents : List Document} {store : Store} {recordings : List Recording} :
      Chronicle documents store recordings →
      Chronicle documents store.commit
        (store.commit.recording documents :: recordings.filter fun recording => recording.version ≤ store.version)
  | undo {documents : List Document} {store after : Store} {recordings : List Recording} {document : Document}
      {version : Nat} :
      Chronicle documents store recordings → document.undoTo? store version = some after →
      Chronicle documents after recordings
  | redo {documents : List Document} {store after : Store} {recordings : List Recording} {document : Document}
      {version : Nat} :
      Chronicle documents store recordings → document.redoTo? store version = some after →
      Chronicle documents after recordings

-- Whether a store has a version of the trees of a recording, whatever has been embedded in them.
structure Recording.Told (recording : Recording) (store : Store) : Prop where
  threaded : ∀ document ∈ recording.documents, ∃ forest, document.Threaded recording.store forest
  version_le : recording.version ≤ store.newest
  size_le : recording.store.size ≤ store.size
  logs : ∀ document ∈ recording.documents, document.Logs store recording.version recording.store

section

variable {store after : Store} {documents : List Document} {recording : Recording} {region : Document → Nat → Prop}
  {edit : Edit} {version : Nat}

theorem Recording.Told.step (ht : recording.Told store) (hsize : store.size ≤ after.size)
    (hnewest : recording.version ≤ after.newest)
    (hlogs : ∀ id, id < store.size →
      (after.node id).history.attributes.at? recording.version = (store.node id).history.attributes.at? recording.version ∧
        (after.node id).history.deleted.at? recording.version = (store.node id).history.deleted.at? recording.version) :
    recording.Told after :=
  ⟨ht.threaded, hnewest, Nat.le_trans ht.size_le hsize, fun document hd => (ht.logs document hd).congr hlogs⟩

-- Whether a step to some version records nothing, whatever it embeds.
structure Store.Unrecorded (store : Store) (version : Nat) (after : Store) : Prop where
  size_le : store.size ≤ after.size
  version : after.version = version
  newest : after.newest = store.newest
  history : ∀ id, (after.node id).history = (store.node id).history

theorem Recording.Told.unrecorded (ht : recording.Told store) (hu : store.Unrecorded version after) :
    recording.Told after :=
  ht.step hu.size_le (hu.newest ▸ ht.version_le) fun id _ => by
    rw [hu.history]
    exact ⟨rfl, rfl⟩

theorem Edit.run_unrecorded (hne : ∀ tokens, edit ≠ .create tokens) (h : edit.run store = some after) :
    store.Unrecorded store.version after := by
  have hdrafts : ∀ {documents}, edit.Embeds true documents store → store.Unrecorded store.version after := fun he =>
    ⟨(run_drafts he h).size_le, (run_drafts he h).version, (run_drafts he h).newest, (run_drafts he h).history⟩
  cases edit with
  | create tokens => exact absurd rfl (hne tokens)
  | insertBox document anchor language inner => exact @hdrafts [inner] ⟨List.mem_singleton_self _, nofun⟩
  | embed terminal inner =>
      obtain rfl := Option.some_inj.mp h
      have hstill : store.Still (Document.embed store terminal inner) := Document.embed_still
      exact ⟨Nat.le_of_eq hstill.size.symm, hstill.versions.1, hstill.versions.2, fun id => (hstill.node id).history⟩
  | insert _ _ _ | remove _ _ | replace _ _ _ | parse _ _ _ _ => exact @hdrafts [] trivial

theorem Document.undoTo?_unrecorded {document : Document} (h : document.undoTo? store version = some after) :
    store.Unrecorded version after := by
  obtain ⟨restored, hr, he⟩ := undoTo?_spec h
  have hs := he.still
  exact ⟨Nat.le_of_eq (hs.size.trans hr.size).symm, hs.versions.1.trans hr.clock.1, hs.versions.2.trans hr.clock.2,
    fun id => (hs.node id).history.trans hr.kept.1⟩

theorem Edit.opened_of_ne_create (hne : ∀ tokens, edit ≠ .create tokens) : edit.opened documents store = documents := by
  cases edit with
  | create tokens => exact absurd rfl (hne tokens)
  | _ => rfl

-- A commit has all that exists in the logs of the new version.
theorem Store.Houses.told_commit (hh : store.Houses documents region) :
    (store.commit.recording documents).Told store.commit where
  threaded document hd := by
    obtain ⟨hd, hexists⟩ := (Store.Records.mem_recording hh.commit).mp hd
    obtain ⟨forest, ht, -⟩ := (hh.commit.owns document hd).alive hexists
    exact ⟨forest, ht⟩
  version_le := (Store.Records.stays_recording_commit hh).version_le
  size_le := Nat.le_refl _
  logs := (Store.Records.stays_recording_commit hh).logs

-- A new document is recorded at once.
theorem Store.Houses.told_create (hh : store.Houses documents region) (tokens : List Token) :
    (⟨store.version, (Document.ofTokens store tokens).1, [(Document.ofTokens store tokens).2]⟩ : Recording).Told
        (Document.ofTokens store tokens).1 ∧
      (Document.ofTokens store tokens).1.newest = store.newest ∧
      ∀ recording : Recording, recording.Told store → recording.Told (Document.ofTokens store tokens).1 := by
  have hleaf := @Document.symbol_tokenContents tokens
  obtain ⟨-, ids, hopens, hnew, -⟩ := Document.owns_ofLeaves hh.logged hleaf
  have hthreaded := Document.threaded_ofLeaves store hleaf
  change Document.Opens store ids (Document.ofTokens store tokens).1 at hopens
  change (Document.ofTokens store tokens).2.Owns (Document.ofTokens store tokens).1 _ at hnew
  change (Document.ofTokens store tokens).2.Threaded (Document.ofTokens store tokens).1 _ at hthreaded
  generalize (Document.ofTokens store tokens).1 = after at hopens hnew hthreaded ⊢
  obtain ⟨hsize, -, hnewest, -⟩ := hopens.spans
  refine ⟨⟨List.forall_mem_singleton.mpr ⟨_, hthreaded⟩, hnewest ▸ hh.logged.version_le, Nat.le_refl _,
    List.forall_mem_singleton.mpr (Store.Records.logs_opened hopens hnew (Nat.le_refl _))⟩, hnewest, fun recording ht => ?_⟩
  exact ht.step hsize (hnewest ▸ ht.version_le) (hopens.retains.logs recording.version (Nat.le_refl _))

-- Whether terminals that the text of a document goes through have in them what they had when
-- it was recorded, and that was recorded as well.
def Document.SameBoxes (document : Document) (recording : Recording) (store : Store) : Prop :=
  ∀ id, Relation.ReflTransGen recording.store.Enters document.root id → (recording.store.node id).isLeaf = true →
    (store.node id).box = (recording.store.node id).box ∧
      ∀ inner, (recording.store.node id).box = some inner → ∃ other ∈ recording.documents, other.root = inner

-- All that the text of a document goes through is of documents that were recorded.
theorem Document.SameBoxes.has {document : Document} (hb : document.SameBoxes recording store)
    (hd : document ∈ recording.documents) {id : Nat} (hid : Relation.ReflTransGen recording.store.Enters document.root id) :
    ∃ other ∈ recording.documents, other.Has recording.store id := by
  induction hid with
  | refl => exact ⟨document, hd, Or.inl rfl⟩
  | @tail id next hreach hnext ih =>
      obtain ⟨other, hother, hid⟩ := ih
      cases hnext with
      | child _ hchild =>
          rcases hid with rfl | hid
          · exact ⟨other, hother, Or.inr (.child hchild)⟩
          · exact ⟨other, hother, Or.inr (.further hid hchild)⟩
      | box hleaf hinner =>
          obtain ⟨inner, hmem, hroot⟩ := (hb id hreach hleaf).2 next hinner
          exact ⟨inner, hmem, Or.inl hroot.symm⟩

-- Going to a version gives back the trees of a recording. It does not give back what was
-- embedded in them, so that a text is there again if that has stayed.
theorem Recording.Told.regains (ht : recording.Told store) (hl : store.Logged) {host document : Document}
    (h : host.undoTo? store recording.version = some after) (hd : document ∈ recording.documents) :
    document.Regains recording.store after ∧
      (document.SameBoxes recording store → document.RegainsText recording.store after) := by
  obtain ⟨restored, hr, he⟩ := Document.undoTo?_spec h
  have hbox : ∀ id, (after.node id).box = (store.node id).box := fun id => he.box.trans hr.box
  have hstill := he.still
  have hsize : recording.store.size ≤ after.size := by
    rw [hstill.size, hr.size]
    exact ht.size_le
  have hnodes : ∀ document ∈ recording.documents, ∀ id, document.Has recording.store id →
      (after.node id).toAttributes = (recording.store.node id).toAttributes ∧
        (after.node id).deleted = (recording.store.node id).deleted := fun document hd id hid => by
    obtain ⟨hattributes, hdeleted⟩ := (ht.logs document hd).restored hl hr hid
    exact ⟨(hstill.node id).attributes.trans hattributes, (hstill.node id).deleted.trans hdeleted⟩
  obtain ⟨forest, hthreaded⟩ := ht.threaded document hd
  refine ⟨Document.regains_of_nodes hthreaded hsize (hnodes document hd), fun hb => ?_⟩
  have hdepth : ∀ depth, after.textBelow depth document.root = recording.store.textBelow depth document.root := by
    intro depth
    refine @Store.textBelow_congr recording.store after _ _
      (Relation.ReflTransGen recording.store.Enters document.root) (fun id hid => ?_) (fun id hid next hnext => hid.tail hnext)
      .refl
    obtain ⟨other, hother, hhas⟩ := hb.has hd hid
    exact ⟨(hnodes other hother id hhas).1, fun hleaf => (hbox id).trans (hb id hid hleaf).1⟩
  refine ⟨hdepth, fun hloops => ?_⟩
  rw [Document.text, Store.text, hdepth, Store.textBelow_eq_text hloops hsize, Document.text]

end

def Document.spare : Document :=
  (Document.ofTokens (Document.ofTokens (Document.ofTokens .empty [.matched none "x" 0 1]).1 [.matched none "a" 0 1]).1
    [.matched none "b" 0 1]).2

namespace Chronicle

variable {documents : List Document} {store : Store} {recordings : List Recording}

theorem told (hc : Chronicle documents store recordings) :
    (∃ region, store.Houses documents region) ∧ (∀ recording ∈ recordings, recording.Told store) ∧
      ∀ version, 0 < version → version ≤ store.newest → ∃ recording ∈ recordings, recording.version = version := by
  induction hc with
  | empty =>
      exact ⟨⟨fun _ _ => False, Store.logged_empty, nofun, nofun⟩, nofun,
        fun version hpos hle => absurd hpos (Nat.not_lt.mpr hle)⟩
  | @create documents store recordings tokens _ ih =>
      obtain ⟨⟨region, hh⟩, htold, hcomplete⟩ := ih
      obtain ⟨hnew, hnewest, hothers⟩ := hh.told_create tokens
      refine ⟨(hh.create tokens).1, List.forall_mem_cons.mpr ⟨hnew, fun recording h => hothers recording (htold recording h)⟩,
        fun version hpos hle => ?_⟩
      obtain ⟨recording, h, hat⟩ := hcomplete version hpos (hnewest ▸ hle)
      exact ⟨recording, List.mem_cons_of_mem _ h, hat⟩
  | @edit documents store after recordings edit _ hf hne hrun ih =>
      obtain ⟨⟨region, hh⟩, htold, hcomplete⟩ := ih
      have hu := Edit.run_unrecorded hne hrun
      have hafter := (Edit.run_houses hh hf hrun).1
      rw [Edit.opened_of_ne_create hne] at hafter
      exact ⟨hafter, fun recording h => (htold recording h).unrecorded hu,
        fun version hpos hle => hcomplete version hpos (hu.newest ▸ hle)⟩
  | @commit documents store recordings _ ih =>
      obtain ⟨⟨region, hh⟩, htold, hcomplete⟩ := ih
      refine ⟨⟨region, hh.commit⟩, List.forall_mem_cons.mpr ⟨hh.told_commit, fun recording h => ?_⟩, fun version hpos hle => ?_⟩
      · obtain ⟨h, hle⟩ := List.mem_filter.mp h
        rw [decide_eq_true_eq] at hle
        refine (htold recording h).step (Nat.le_of_eq Store.size_commit.symm) ?_ fun id hlt =>
          hh.logged.retains_commit.logs recording.version hle id hlt
        rw [Store.newest_commit]
        exact Nat.le_succ_of_le hle
      · rcases Store.Records.le_or_eq_of_le_commit hle with hle | rfl
        · obtain ⟨recording, h, rfl⟩ := hcomplete version hpos (Nat.le_trans hle hh.logged.version_le)
          exact ⟨recording, Recording.mem_kept h hle, rfl⟩
        · exact ⟨_, List.mem_cons_self, rfl⟩
  | undo _ hundo ih =>
      obtain ⟨⟨region, hh⟩, htold, hcomplete⟩ := ih
      have hu := Document.undoTo?_unrecorded hundo
      exact ⟨⟨region, hh.undoTo? hundo⟩, fun recording h => (htold recording h).unrecorded hu,
        fun version hpos hle => hcomplete version hpos (hu.newest ▸ hle)⟩
  | redo _ hredo ih =>
      obtain ⟨⟨region, hh⟩, htold, hcomplete⟩ := ih
      have hundo := Document.undoTo?_of_redoTo? hredo
      have hu := Document.undoTo?_unrecorded hundo
      exact ⟨⟨region, hh.undoTo? hundo⟩, fun recording h => (htold recording h).unrecorded hu,
        fun version hpos hle => hcomplete version hpos (hu.newest ▸ hle)⟩

-- Each version of the current branch has been recorded. Going to it gives back the trees and
-- the tokens that it was recorded with, and the texts as far as they go through documents
-- that are embedded as they were then.
theorem texts_regained (hc : Chronicle documents store recordings) :
    (∀ version, 0 < version → version ≤ store.newest → ∃ recording ∈ recordings, recording.version = version) ∧
      ∀ recording ∈ recordings, ∀ (host : Document) (after : Store),
        host.undoTo? store recording.version = some after ∨ host.redoTo? store recording.version = some after →
        ∀ document ∈ recording.documents, document.Regains recording.store after ∧
          (document.SameBoxes recording store → document.RegainsText recording.store after) := by
  obtain ⟨⟨region, hh⟩, htold, hcomplete⟩ := hc.told
  refine ⟨hcomplete, fun recording h host after hafter document hd => ?_⟩
  exact (htold recording h).regains hh.logged (hafter.elim id Document.undoTo?_of_redoTo?) hd

-- A document that is embedded in another gives way to a third one and is put back. Both have
-- been edited by then, and so has the one that they are embedded in.
theorem texts_regained_returned :
    ∃ store recordings recording after, Chronicle [Document.spare, Document.inner, Document.outer] store recordings ∧
      recording ∈ recordings ∧ Document.outer ∈ recording.documents ∧
      Document.outer.undoTo? store recording.version = some after ∧ Document.outer.SameBoxes recording store ∧
      Document.outer.RegainsText recording.store after ∧ Document.outer.text recording.store = "xa" ∧
      Document.outer.text store = "yd" := by
  have hsteps : ((Edit.insertBox Document.outer 2 "l" Document.inner).run
      (Document.ofTokens (Document.ofTokens (Document.ofTokens .empty [.matched none "x" 0 1]).1
        [.matched none "a" 0 1]).1 [.matched none "b" 0 1]).1).bind (fun boxed =>
    ((Edit.embed 12 Document.spare).run boxed.commit).bind fun other =>
      ((Edit.replace 10 none "c").run other).bind fun edited =>
        ((Edit.embed 12 Document.inner).run edited.commit).bind fun returned =>
          ((Edit.replace 6 none "d").run returned).bind fun later =>
            ((Edit.replace 2 none "y").run later).bind fun store =>
              (Document.outer.undoTo? store boxed.commit.version).map fun after =>
                ((Document.spare.tokens other, Document.inner.tokens returned, Document.outer.tokens later),
                  (decide (∀ id ∈ ([3, 0, 2, 12, 1, 7, 4, 6, 5] : List Nat),
                      (boxed.commit.node id).children ⊆ [3, 0, 2, 12, 1, 7, 4, 6, 5] ∧
                        (store.node id).box = (boxed.commit.node id).box ∧ (boxed.commit.node id).box ∈ [none, some 7]) &&
                    (boxed.commit.node 3).history.existedAt boxed.commit.version &&
                    (boxed.commit.node 7).history.existedAt boxed.commit.version &&
                    decide (boxed.commit.version ≤ edited.version)),
                  (Document.outer.text boxed.commit, Document.outer.text store))) =
      some (([10], [6], [2, 12]), true, ("xa", "yd")) := by
    decide +kernel
  obtain ⟨boxed, hbox, hrest⟩ := Option.bind_eq_some_iff.mp hsteps
  obtain ⟨other, hother, hrest⟩ := Option.bind_eq_some_iff.mp hrest
  obtain ⟨edited, hedit, hrest⟩ := Option.bind_eq_some_iff.mp hrest
  obtain ⟨returned, hreturn, hrest⟩ := Option.bind_eq_some_iff.mp hrest
  obtain ⟨later, hlater, hrest⟩ := Option.bind_eq_some_iff.mp hrest
  obtain ⟨store, hstore, hrest⟩ := Option.bind_eq_some_iff.mp hrest
  obtain ⟨after, hundo, hresult⟩ := Option.map_eq_some_iff.mp hrest
  simp only [Prod.mk.injEq, Bool.and_eq_true] at hresult
  obtain ⟨⟨hspare, hinner, houter⟩, ⟨⟨⟨hreached, hexisted⟩, hinnerexisted⟩, hle⟩, hbefore, hafter⟩ := hresult
  replace hreached := of_decide_eq_true hreached
  have hboxes : ∀ id ∈ [3, 0, 2, 12, 1, 7, 4, 6, 5], ∀ inner, (boxed.commit.node id).box = some inner → inner = 7 := by
    intro id hid inner hinner
    have hmem := (hreached id hid).2.2
    rw [hinner] at hmem
    simpa using hmem
  obtain ⟨recordings, hopened⟩ : ∃ recordings, Chronicle [Document.spare, Document.inner, Document.outer] _ recordings :=
    ⟨_, ((Chronicle.empty.create [.matched none "x" 0 1]).create [.matched none "a" 0 1]).create [.matched none "b" 0 1]⟩
  have houtermem : Document.outer ∈ [Document.spare, Document.inner, Document.outer] := by decide
  have hinnermem : Document.inner ∈ [Document.spare, Document.inner, Document.outer] := by decide
  have hboxed := @Chronicle.edit _ _ _ _ (.insertBox Document.outer 2 "l" Document.inner) hopened
    ⟨houtermem, .child (by decide), by decide⟩ nofun hbox
  have hothers := @Chronicle.edit _ _ _ _ (.embed 12 Document.spare) hboxed.commit trivial nofun hother
  have hedited := @Chronicle.edit _ _ _ _ (.replace 10 none "c") hothers
    ⟨Document.spare, List.mem_cons_self, hspare ▸ List.mem_singleton_self _⟩ nofun hedit
  have hreturned := @Chronicle.edit _ _ _ _ (.embed 12 Document.inner) hedited.commit trivial nofun hreturn
  have hinneredited := @Chronicle.edit _ _ _ _ (.replace 6 none "d") hreturned
    ⟨Document.inner, hinnermem, hinner ▸ List.mem_singleton_self _⟩ nofun hlater
  have hlast := @Chronicle.edit _ _ _ _ (.replace 2 none "y") hinneredited
    ⟨Document.outer, houtermem, houter ▸ List.mem_cons_self⟩ nofun hstore
  have hrecorded : Document.outer ∈ (boxed.commit.recording [Document.spare, Document.inner, Document.outer]).documents :=
    List.mem_filter.mpr ⟨houtermem, hexisted⟩
  have hinnerrecorded : Document.inner ∈
      (boxed.commit.recording [Document.spare, Document.inner, Document.outer]).documents :=
    List.mem_filter.mpr ⟨hinnermem, hinnerexisted⟩
  have hsame : Document.outer.SameBoxes (boxed.commit.recording [Document.spare, Document.inner, Document.outer]) store := by
    have hthrough : ∀ id, Relation.ReflTransGen boxed.commit.Enters 3 id → id ∈ [3, 0, 2, 12, 1, 7, 4, 6, 5] := by
      intro id hid
      induction hid with
      | refl => exact List.mem_cons_self
      | @tail id next _ hnext ih =>
          cases hnext with
          | child _ hchild => exact (hreached id ih).1 hchild
          | box _ hbox =>
              obtain rfl := hboxes id ih next hbox
              decide
    exact fun id hid _ => ⟨(hreached id (hthrough id hid)).2.1, fun inner hbox =>
      ⟨Document.inner, hinnerrecorded, (hboxes id (hthrough id hid) inner hbox).symm⟩⟩
  have hmem : boxed.commit.recording [Document.spare, Document.inner, Document.outer] ∈
      edited.commit.recording [Document.spare, Document.inner, Document.outer] ::
        (boxed.commit.recording [Document.spare, Document.inner, Document.outer] ::
          recordings.filter fun recording => recording.version ≤ boxed.version).filter
            fun recording => recording.version ≤ edited.version :=
    Recording.mem_kept List.mem_cons_self (of_decide_eq_true hle)
  exact ⟨store, _, _, after, hlast, hmem, hrecorded, hundo, hsame,
    ((texts_regained hlast).2 _ hmem Document.outer after (Or.inl hundo) Document.outer hrecorded).2 hsame, hbefore, hafter⟩

-- Another document is embedded in the place of one that a version was recorded with. Going
-- to the version leaves it there.
theorem texts_regained_reembedded :
    ∃ documents store recordings recording document after, Chronicle documents store recordings ∧
      recording ∈ recordings ∧ document ∈ recording.documents ∧ document.undoTo? store recording.version = some after ∧
      document.text recording.store = "xa" ∧ document.text after = "xb" := by
  have hsteps : ((Edit.insertBox Document.outer 2 "l" Document.inner).run
      (Document.ofTokens (Document.ofTokens (Document.ofTokens .empty [.matched none "x" 0 1]).1
        [.matched none "a" 0 1]).1 [.matched none "b" 0 1]).1).bind (fun boxed =>
    ((Edit.embed 12 Document.spare).run boxed.commit).bind fun other =>
      (Document.outer.undoTo? other.commit boxed.commit.version).map fun after =>
        ((boxed.commit.node 3).history.existedAt boxed.commit.version, decide (boxed.commit.version ≤ other.version),
          Document.outer.text boxed.commit, Document.outer.text after)) =
      some (true, true, "xa", "xb") := by
    decide +kernel
  obtain ⟨boxed, hbox, hrest⟩ := Option.bind_eq_some_iff.mp hsteps
  obtain ⟨other, hother, hrest⟩ := Option.bind_eq_some_iff.mp hrest
  obtain ⟨after, hundo, hresult⟩ := Option.map_eq_some_iff.mp hrest
  simp only [Prod.mk.injEq] at hresult
  obtain ⟨hexisted, hle, hbefore, hafter⟩ := hresult
  obtain ⟨recordings, hopened⟩ : ∃ recordings, Chronicle [Document.spare, Document.inner, Document.outer] _ recordings :=
    ⟨_, ((Chronicle.empty.create [.matched none "x" 0 1]).create [.matched none "a" 0 1]).create [.matched none "b" 0 1]⟩
  have houtermem : Document.outer ∈ [Document.spare, Document.inner, Document.outer] := by decide
  have hboxed := @Chronicle.edit _ _ _ _ (.insertBox Document.outer 2 "l" Document.inner) hopened
    ⟨houtermem, .child (by decide), by decide⟩ nofun hbox
  have hothers := @Chronicle.edit _ _ _ _ (.embed 12 Document.spare) hboxed.commit trivial nofun hother
  exact ⟨_, other.commit, _, boxed.commit.recording [Document.spare, Document.inner, Document.outer], Document.outer, after,
    hothers.commit, Recording.mem_kept List.mem_cons_self (of_decide_eq_true hle),
    List.mem_filter.mpr ⟨houtermem, hexisted⟩, hundo, hbefore, hafter⟩

end Chronicle

end IncrementalLR
