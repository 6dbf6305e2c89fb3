import IncrementalLR.Proofs.Document.Recording

namespace IncrementalLR

-- A store with those of its documents that exist at its version.
def Store.recording (store : Store) (documents : List Document) : Recording :=
  ⟨store.version, store,
    documents.filter fun document => (store.node document.root).history.existedAt store.version⟩

-- What may become of documents that share one store, with recordings of the versions of the
-- current branch. A new document is recorded as the version that the store is at. A commit on
-- top of an older version leaves the later ones behind, and records all that exists.
inductive Timeline (stray : Bool) : List Document → Store → List Recording → Prop where
  | empty : Timeline stray [] .empty []
  | create {documents : List Document} {store : Store} {recordings : List Recording} (tokens : List Token) :
      Timeline stray documents store recordings →
      Timeline stray ((Document.ofTokens store tokens).2 :: documents) (Document.ofTokens store tokens).1
        (⟨store.version, (Document.ofTokens store tokens).1, [(Document.ofTokens store tokens).2]⟩ :: recordings)
  | edit {documents : List Document} {store after : Store} {recordings : List Recording} {edit : Edit} :
      Timeline stray documents store recordings → edit.Fits documents store → edit.Embeds stray documents store →
      edit.run store = some after → Timeline stray documents after recordings
  | commit {documents : List Document} {store : Store} {recordings : List Recording} :
      Timeline stray documents store recordings →
      Timeline stray documents store.commit
        (store.commit.recording documents :: recordings.filter fun recording => recording.version ≤ store.version)
  | undo {documents : List Document} {store after : Store} {recordings : List Recording} {document : Document}
      {version : Nat} :
      Timeline stray documents store recordings → document.undoTo? store version = some after →
      Timeline stray documents after recordings
  | redo {documents : List Document} {store after : Store} {recordings : List Recording} {document : Document}
      {version : Nat} :
      Timeline stray documents store recordings → document.redoTo? store version = some after →
      Timeline stray documents after recordings

-- Whether whatever is embedded in a document that exists is a document that exists.
def Store.Hosts (store : Store) (documents : List Document) : Prop :=
  ∀ document ∈ documents, (store.node document.root).deleted = false → ∀ id, store.Below document.root id →
    ∀ inner, (store.node id).box = some inner →
      ∃ other ∈ documents, other.root = inner ∧ (store.node inner).deleted = false

-- What holds of the recordings of a store. Whatever existed at a version has been recorded by
-- then, and has been there since.
structure Store.Records (store : Store) (documents : List Document) (recordings : List Recording) : Prop where
  sound : ∀ recording ∈ recordings, recording.Sound
  stays : ∀ recording ∈ recordings, recording.Stays documents store
  told : ∀ version, version ≤ store.newest → ∀ document ∈ documents, document.ExistedAt store version →
    ∃ recording ∈ recordings, recording.version ≤ version ∧ document ∈ recording.documents ∧
      document.Logs store version recording.store
  lasting : ∀ document ∈ documents, ∀ earlier later, earlier ≤ later → later ≤ store.newest →
    document.ExistedAt store earlier → document.ExistedAt store later
  complete : ∀ version, 0 < version → version ≤ store.newest → ∃ recording ∈ recordings, recording.version = version
  hosts : store.Hosts documents

-- Recordings are kept by a commit on top of them.
theorem Recording.mem_kept {recording new : Recording} {recordings : List Recording} {version : Nat}
    (h : recording ∈ recordings) (hle : recording.version ≤ version) :
    recording ∈ new :: recordings.filter fun recording => recording.version ≤ version :=
  List.mem_cons_of_mem _ (List.mem_filter.mpr ⟨h, decide_eq_true hle⟩)

theorem Edit.Embeds.opened {stray : Bool} {documents : List Document} {store : Store} {edit : Edit}
    (he : edit.Embeds stray documents store) : edit.opened documents store = documents := by
  cases edit with
  | create _ => exact he.elim
  | _ => rfl

namespace Store.Records

variable {store after : Store} {documents : List Document} {recordings : List Recording} {region : Document → Nat → Prop}
  {edit : Edit} {version latest : Nat} {document : Document}

-- What existed at a version that a step retains has been recorded by then.
theorem told_retains (hs : store.Records documents recordings) (hh : store.Houses documents region)
    (hr : store.Retains after latest) (hle : version ≤ latest) (hnewest : version ≤ store.newest)
    (hd : document ∈ documents) (he : document.ExistedAt after version) :
    ∃ recording ∈ recordings, recording.version ≤ version ∧ document ∈ recording.documents ∧
      document.Logs after version recording.store := by
  rw [hr.existedAt_iff hle (hh.owns document hd).root_lt] at he
  obtain ⟨recording, h, hversion, hmem, hlogs⟩ := hs.told version hnewest document hd he
  exact ⟨recording, h, hversion, hmem, hr.documentLogs hle hlogs⟩

theorem lasting_retains (hs : store.Records documents recordings) (hh : store.Houses documents region)
    (hr : store.Retains after latest) {earlier later : Nat} (hle : earlier ≤ later) (hlater : later ≤ latest)
    (hnewest : later ≤ store.newest) (hd : document ∈ documents) (he : document.ExistedAt after earlier) :
    document.ExistedAt after later := by
  have hlt := (hh.owns document hd).root_lt
  rw [hr.existedAt_iff (Nat.le_trans hle hlater) hlt] at he
  exact (hr.existedAt_iff hlater hlt).mpr (hs.lasting document hd earlier later hle hnewest he)

-- A step that records nothing.
theorem remembers (hs : store.Records documents recordings) (hh : store.Houses documents region)
    (hr : store.Remembers after) (hhosts : after.Hosts documents) : after.Records documents recordings where
  sound := hs.sound
  stays recording h :=
    hr.retains.stays (hs.stays recording h) (Nat.le_refl _) (hr.newest ▸ (hs.stays recording h).version_le) (List.Subset.refl _)
  told _ hle _ hd he := hs.told_retains hh hr.retains (Nat.le_refl _) (hr.newest ▸ hle) hd he
  lasting _ hd _ _ hle hnewest he :=
    hs.lasting_retains hh hr.retains hle (Nat.le_refl _) (hr.newest ▸ hnewest) hd he
  complete version hpos hle := hs.complete version hpos (hr.newest ▸ hle)
  hosts := hhosts

-- Edits embed nothing but what exists.
theorem hosts_edit (hs : store.Records documents recordings) (hh : store.Houses documents region)
    (hf : edit.Fits documents store) (he : edit.Embeds false documents store) (h : edit.run store = some after) :
    after.Hosts documents := by
  obtain ⟨⟨region', hafter⟩, heffect⟩ := Edit.run_houses hh hf h
  have hdrafts := Edit.run_drafts he h
  rw [he.opened] at hafter
  have hsame : ∀ document ∈ documents,
      (after.node document.root).deleted = false ↔ (store.node document.root).deleted = false := fun document hd => by
    rw [(hafter.owns document hd).existed, (hh.owns document hd).existed, hdrafts.history, hdrafts.version]
  intro document hd hexists id hbelow inner hbox
  replace hexists := (hsame document hd).mp hexists
  rcases (heffect document hd hexists).2 id hbelow with hold | hnew
  · obtain ⟨forest, ht, -⟩ := (hh.owns document hd).alive hexists
    have hlt := ht.lt_size id (List.mem_cons_of_mem _ (ht.mem_of_below hold))
    obtain ⟨other, hother, rfl, hinner⟩ := hs.hosts document hd hexists id hold inner (hdrafts.box id hlt ▸ hbox)
    exact ⟨other, hother, rfl, (hsame other hother).mpr hinner⟩
  · have hinner := hdrafts.boxes id inner hnew hbox
    cases edit with
    | insertBox host anchor language embedded =>
        obtain rfl := Option.some_inj.mp hinner
        have hexisted := (hh.owns embedded he.1).existed.mpr (beq_iff_eq.mp (he.2 rfl))
        exact ⟨embedded, he.1, rfl, (hsame embedded he.1).mpr hexisted⟩
    | _ => cases hinner

-- Going to a version gives back trees that have been recorded, with what was embedded in them.
theorem hosts_restored (hs : store.Records documents recordings) (hh : store.Houses documents region)
    (hr : store.Restored version after) : after.Hosts documents := by
  intro document hd hexists id hbelow inner hbox
  have hexisted := Document.existedAt_of_restored (hh.owns document hd).root_lt hr hexists
  obtain ⟨recording, hmem, hle, hdocument, hlogs⟩ := hs.told version hr.version_le document hd hexisted
  obtain ⟨forest, ht⟩ := (hs.sound recording hmem).threaded document hdocument
  have hstays := hs.stays recording hmem
  have hold := Document.below_of_nodes ht (hr.size.symm ▸ hstays.size_le)
    (fun id hid => (hlogs.restored hh.logged hr hid).1) hbelow
  have hlt := ht.lt_size id (List.mem_cons_of_mem _ (ht.mem_of_below hold))
  rw [hr.box, hstays.box id hlt] at hbox
  obtain ⟨other, hother, rfl, hpresent⟩ := (hs.sound recording hmem).boxes document hdocument id hold inner hbox
  have hknown := hstays.known other hother
  have hrecorded : other.ExistedAt store recording.version := by
    rw [Document.ExistedAt, (hstays.logs other hother other.root (Or.inl rfl)).2, hpresent]
  exact ⟨other, hknown, rfl,
    (hs.lasting other hknown _ _ hle hr.version_le hrecorded).restored (hh.owns other hknown).root_lt hr⟩

theorem hosts_still (hh : store.Hosts documents) (hs : store.Still after) (hbox : ∀ id, (after.node id).box = (store.node id).box) :
    after.Hosts documents := by
  intro document hd hexists id hbelow inner hinner
  rw [hbox] at hinner
  obtain ⟨other, hother, hroot, hpresent⟩ := hh document hd ((hs.node _).deleted ▸ hexists) id
    (hbelow.of_attributes fun id => (hs.node id).attributes) inner hinner
  exact ⟨other, hother, hroot, (hs.node _).deleted.trans hpresent⟩

theorem undoTo? (hs : store.Records documents recordings) (hh : store.Houses documents region)
    (h : document.undoTo? store version = some after) : after.Records documents recordings := by
  obtain ⟨restored, hr, hmarked⟩ := Document.undoTo?_spec h
  exact hs.remembers hh (hr.remembers.trans hmarked.remembers)
    (hosts_still (hs.hosts_restored hh hr) hmarked.still fun _ => hmarked.box)

section Commit

theorem mem_recording (hh : store.Houses documents region) : document ∈ (store.recording documents).documents ↔
    document ∈ documents ∧ (store.node document.root).deleted = false := by
  rw [Store.recording, List.mem_filter]
  exact and_congr_right fun hd => beq_iff_eq.trans (hh.owns document hd).existed.symm

theorem sound_recording (hh : store.Houses documents region) (hhosts : store.Hosts documents) :
    (store.recording documents).Sound where
  threaded document hd := by
    obtain ⟨hd, hexists⟩ := (mem_recording hh).mp hd
    obtain ⟨forest, ht, -⟩ := (hh.owns document hd).alive hexists
    exact ⟨forest, ht⟩
  boxes document hd id hbelow inner hinner := by
    obtain ⟨hd, hexists⟩ := (mem_recording hh).mp hd
    obtain ⟨other, hother, rfl, hpresent⟩ := hhosts document hd hexists id hbelow inner hinner
    exact ⟨other, (mem_recording hh).mpr ⟨hother, hpresent⟩, rfl, hpresent⟩

-- A commit has all that exists in the logs of the new version.
theorem stays_recording_commit (hh : store.Houses documents region) :
    (store.commit.recording documents).Stays documents store.commit where
  known document hd := ((mem_recording hh.commit).mp hd).1
  version_le := Nat.le_of_eq (Store.version_commit.trans Store.newest_commit.symm)
  size_le := Nat.le_refl _
  box _ _ := rfl
  logs document hd id hid := by
    obtain ⟨hd, hexists⟩ := (mem_recording hh.commit).mp hd
    obtain ⟨forest, ht, hk⟩ := (hh.commit.owns document hd).alive hexists
    have hheld := hh.logged.heldAt_commit (hh.logged.known_commit.mp (hk id ((Document.has_iff ht).mp hid)))
    rw [show (store.commit.recording documents).version = store.version + 1 from Store.version_commit]
    exact ⟨hheld.attributes, hheld.deleted⟩

theorem hosts_commit (hh : store.Hosts documents) : store.commit.Hosts documents := by
  intro document hd hexists id hbelow inner hinner
  have hdeleted : ∀ id, (store.commit.node id).deleted = (store.node id).deleted := fun id => by
    rw [Store.node_commit, Node.commit_spec.2.1]
  rw [Store.box_commit] at hinner
  obtain ⟨other, hother, hroot, hpresent⟩ := hh document hd (hdeleted _ ▸ hexists) id
    (hbelow.of_attributes fun id => by rw [Store.node_commit, Node.commit_spec.1]) inner hinner
  exact ⟨other, hother, hroot, (hdeleted _).trans hpresent⟩

theorem le_or_eq_of_le_commit (hle : version ≤ store.commit.newest) :
    version ≤ store.version ∨ version = store.commit.version := by
  rw [Store.newest_commit] at hle
  rw [Store.version_commit]
  omega

theorem lasting_commit (hs : store.Records documents recordings) (hh : store.Houses documents region) {earlier later : Nat}
    (hle : earlier ≤ later) (hnewest : later ≤ store.commit.newest) (hd : document ∈ documents)
    (he : document.ExistedAt store.commit earlier) : document.ExistedAt store.commit later := by
  have hr := hh.logged.retains_commit
  rcases le_or_eq_of_le_commit hnewest with hlater | rfl
  · exact hs.lasting_retains hh hr hle hlater (Nat.le_trans hlater hh.logged.version_le) hd he
  · rcases le_or_eq_of_le_commit (Nat.le_trans hle hnewest) with hearlier | rfl
    · -- it exists at the version that is committed on, and the commit deletes nothing
      have hthen := (hr.existedAt_iff hearlier (hh.owns document hd).root_lt).mp he
      have hnow := hs.lasting document hd earlier store.version hearlier hh.logged.version_le hthen
      refine (hh.commit.owns document hd).existed.mp ?_
      rw [Store.node_commit, Node.commit_spec.2.1]
      exact (hh.owns document hd).existed.mpr hnow
    · exact he

theorem commit (hs : store.Records documents recordings) (hh : store.Houses documents region) :
    store.commit.Records documents
      (store.commit.recording documents :: recordings.filter fun recording => recording.version ≤ store.version) where
  sound := List.forall_mem_cons.mpr ⟨sound_recording hh.commit (hosts_commit hs.hosts),
    fun recording h => hs.sound recording (List.mem_filter.mp h).1⟩
  stays := by
    refine List.forall_mem_cons.mpr ⟨stays_recording_commit hh, fun recording h => ?_⟩
    obtain ⟨h, hle⟩ := List.mem_filter.mp h
    rw [decide_eq_true_eq] at hle
    refine hh.logged.retains_commit.stays (hs.stays recording h) hle ?_ (List.Subset.refl _)
    rw [Store.newest_commit]
    exact Nat.le_succ_of_le hle
  told version hle document hd he := by
    rcases le_or_eq_of_le_commit hle with hle | rfl
    · obtain ⟨recording, h, hearly, hrecorded⟩ :=
        hs.told_retains hh hh.logged.retains_commit hle (Nat.le_trans hle hh.logged.version_le) hd he
      exact ⟨recording, Recording.mem_kept h (Nat.le_trans hearly hle), hearly, hrecorded⟩
    · have hmem := (mem_recording hh.commit).mpr ⟨hd, (hh.commit.owns document hd).existed.mpr he⟩
      exact ⟨_, List.mem_cons_self, Nat.le_refl _, hmem, (stays_recording_commit hh).logs document hmem⟩
  lasting _ hd _ _ hle hnewest he := hs.lasting_commit hh hle hnewest hd he
  complete version hpos hle := by
    rcases le_or_eq_of_le_commit hle with hle | rfl
    · obtain ⟨recording, h, rfl⟩ := hs.complete version hpos (Nat.le_trans hle hh.logged.version_le)
      exact ⟨recording, Recording.mem_kept h hle, rfl⟩
    · exact ⟨_, List.mem_cons_self, rfl⟩
  hosts := hosts_commit hs.hosts

end Commit

section Create

variable {fresh : Document} {ids : List Nat} {forest : Forest}

theorem mem_of_has (hnew : fresh.Owns after (· ∈ ids)) {id : Nat} (hid : fresh.Has after id) : id ∈ ids := by
  rcases hid with rfl | hid
  · exact hnew.within.root
  · exact hid.within hnew.closed hnew.within.root

theorem box_opened (hopens : Document.Opens store ids after) {id : Nat} (hge : store.size ≤ id) :
    (after.node id).box = none := by
  rw [hopens.box, Store.node_of_size_le hge]
  rfl

theorem box_below_opened (hopens : Document.Opens store ids after) (hnew : fresh.Owns after (· ∈ ids)) {id : Nat}
    (hbelow : after.Below fresh.root id) : (after.node id).box = none :=
  box_opened hopens (hopens.spans.2.2.2 id (mem_of_has hnew (Or.inr hbelow)))

-- A new document is in the logs of all versions from that on which it is created.
theorem logs_opened (hopens : Document.Opens store ids after) (hnew : fresh.Owns after (· ∈ ids))
    (hle : store.version ≤ version) : fresh.Logs after version after := by
  intro id hid
  obtain ⟨hattributes, hdeleted⟩ := (hopens.recorded version).1 id (mem_of_has hnew hid)
  rw [if_pos hle] at hattributes hdeleted
  exact ⟨hattributes, hdeleted⟩

theorem existedAt_opened (hopens : Document.Opens store ids after) (hnew : fresh.Owns after (· ∈ ids)) :
    fresh.ExistedAt after version ↔ store.version ≤ version ∧ (after.node fresh.root).deleted = false := by
  rw [Document.ExistedAt, ((hopens.recorded version).1 _ hnew.within.root).2]
  by_cases hle : store.version ≤ version
  · simp [hle]
  · simp [hle]

theorem hosts_opened (hs : store.Records documents recordings) (hh : store.Houses documents region)
    (hopens : Document.Opens store ids after) (hnew : fresh.Owns after (· ∈ ids))
    (hothers : ∀ document ∈ documents, document.Owns after (region document) ∧
      ((store.node document.root).deleted = false → document.Renews store after)) :
    after.Hosts (fresh :: documents) := by
  have hsame : ∀ document ∈ documents,
      (after.node document.root).deleted = false ↔ (store.node document.root).deleted = false := fun document hd => by
    rw [(hothers document hd).1.existed, (hh.owns document hd).existed, hopens.spans.2.1]
    exact hopens.retains.existedAt_iff (Nat.le_refl _) (hh.owns document hd).root_lt
  refine List.forall_mem_cons.mpr ⟨fun _ id hbelow inner hinner => ?_, fun document hd hexists id hbelow inner hinner => ?_⟩
  · cases (box_below_opened hopens hnew hbelow).symm.trans hinner
  · replace hexists := (hsame document hd).mp hexists
    rcases (hothers document hd).2 hexists id hbelow with hthere | hadded
    · obtain ⟨other, hother, rfl, hpresent⟩ := hs.hosts document hd hexists id hthere inner (hopens.box ▸ hinner)
      exact ⟨other, List.mem_cons_of_mem _ hother, rfl, (hsame other hother).mpr hpresent⟩
    · cases (box_opened hopens hadded).symm.trans hinner

-- A new document is recorded at once, as it is, and with nothing embedded in it.
theorem create_of_opens (hs : store.Records documents recordings) (hh : store.Houses documents region)
    (hopens : Document.Opens store ids after) (ht : fresh.Threaded after forest) (hnew : fresh.Owns after (· ∈ ids))
    (hothers : ∀ document ∈ documents, document.Owns after (region document) ∧
      ((store.node document.root).deleted = false → document.Renews store after)) :
    after.Records (fresh :: documents) (⟨store.version, after, [fresh]⟩ :: recordings) := by
  obtain ⟨hsize, hversion, hnewest, hids⟩ := hopens.spans
  constructor
  case sound =>
    refine List.forall_mem_cons.mpr ⟨⟨List.forall_mem_singleton.mpr ⟨forest, ht⟩, ?_⟩, hs.sound⟩
    refine List.forall_mem_singleton.mpr fun id hbelow inner hinner => ?_
    cases (box_below_opened hopens hnew hbelow).symm.trans hinner
  case stays =>
    refine List.forall_mem_cons.mpr ⟨⟨?_, ?_, Nat.le_refl _, fun _ _ => rfl, ?_⟩, fun recording h => ?_⟩
    · exact List.forall_mem_singleton.mpr List.mem_cons_self
    · exact hnewest ▸ hh.logged.version_le
    · exact List.forall_mem_singleton.mpr (logs_opened hopens hnew (Nat.le_refl _))
    · have hstays := hs.stays recording h
      exact hopens.retains.stays hstays (Nat.le_refl _) (hnewest ▸ hstays.version_le) (List.subset_cons_self _ _)
  case told =>
    refine fun version hle => List.forall_mem_cons.mpr ⟨fun he => ?_, fun document hd he => ?_⟩
    · have hlate := ((existedAt_opened hopens hnew).mp he).1
      exact ⟨_, List.mem_cons_self, hlate, List.mem_singleton_self _, logs_opened hopens hnew hlate⟩
    · obtain ⟨recording, h, hrecorded⟩ := hs.told_retains hh hopens.retains (Nat.le_refl _) (hnewest ▸ hle) hd he
      exact ⟨recording, List.mem_cons_of_mem _ h, hrecorded⟩
  case lasting =>
    refine List.forall_mem_cons.mpr ⟨fun earlier later hle _ he => ?_, fun document hd earlier later hle hlast he => ?_⟩
    · obtain ⟨hearly, hexists⟩ := (existedAt_opened hopens hnew).mp he
      exact (existedAt_opened hopens hnew).mpr ⟨Nat.le_trans hearly hle, hexists⟩
    · exact hs.lasting_retains hh hopens.retains hle (Nat.le_refl _) (hnewest ▸ hlast) hd he
  case complete =>
    intro version hpos hle
    obtain ⟨recording, h, hat⟩ := hs.complete version hpos (hnewest ▸ hle)
    exact ⟨recording, List.mem_cons_of_mem _ h, hat⟩
  case hosts => exact hosts_opened hs hh hopens hnew hothers

theorem create (hs : store.Records documents recordings) (hh : store.Houses documents region) (tokens : List Token) :
    (Document.ofTokens store tokens).1.Records ((Document.ofTokens store tokens).2 :: documents)
      (⟨store.version, (Document.ofTokens store tokens).1, [(Document.ofTokens store tokens).2]⟩ :: recordings) := by
  have hleaf := @Document.symbol_tokenContents tokens
  obtain ⟨-, ids, hopens, hnew, hothers⟩ := Document.owns_ofLeaves hh.logged hleaf
  refine hs.create_of_opens hh hopens (Document.threaded_ofLeaves store hleaf) hnew fun document hd => ?_
  obtain ⟨howns, -, hrenews⟩ := hothers document _ (hh.owns document hd)
  exact ⟨howns, fun hexists => (hrenews hexists).2⟩

end Create

theorem run (hs : store.Records documents recordings) (hh : store.Houses documents region) (hf : edit.Fits documents store)
    (he : edit.Embeds false documents store) (h : edit.run store = some after) : after.Records documents recordings :=
  hs.remembers hh (Edit.run_drafts he h).toRemembers (hs.hosts_edit hh hf he h)

-- Whatever exists once a version is gone back to is what it was when it was recorded.
theorem regains (hs : store.Records documents recordings) (hh : store.Houses documents region)
    (hr : store.Restored version after) (hd : document ∈ documents) (hexists : (after.node document.root).deleted = false) :
    ∃ recording ∈ recordings, recording.version ≤ version ∧ document ∈ recording.documents ∧
      document.Regains recording.store after := by
  have hexisted := Document.existedAt_of_restored (hh.owns document hd).root_lt hr hexists
  obtain ⟨recording, h, hle, hmem, hlogs⟩ := hs.told version hr.version_le document hd hexisted
  obtain ⟨forest, ht⟩ := (hs.sound recording h).threaded document hmem
  exact ⟨recording, h, hle, hmem, Document.regains_of_nodes ht (hr.size.symm ▸ (hs.stays recording h).size_le)
    fun id hid => hlogs.restored hh.logged hr hid⟩

-- All that a recording has is there again once its version is gone back to.
theorem regains_recording (hs : store.Records documents recordings) (hl : store.Logged) {recording : Recording}
    (h : recording ∈ recordings) (hr : store.Restored recording.version after) (hd : document ∈ recording.documents) :
    document.Regains recording.store after ∧ document.RegainsText recording.store after := by
  have hsound := hs.sound recording h
  have hstays := hs.stays recording h
  have hsize : recording.store.size ≤ after.size := hr.size.symm ▸ hstays.size_le
  have hnodes : ∀ document ∈ recording.documents, ∀ id, document.Has recording.store id →
      (after.node id).toAttributes = (recording.store.node id).toAttributes ∧
        (after.node id).deleted = (recording.store.node id).deleted :=
    fun document hd id hid => (hstays.logs document hd).restored hl hr hid
  obtain ⟨forest, ht⟩ := hsound.threaded document hd
  exact ⟨Document.regains_of_nodes ht hsize (hnodes document hd),
    Document.regainsText hsound hd hsize (fun document hd id hid => (hnodes document hd id hid).1)
      fun id hlt => hr.box.trans (hstays.box id hlt)⟩

end Store.Records

namespace Timeline

variable {stray : Bool} {documents : List Document} {store : Store} {recordings : List Recording}

theorem recorded (ht : Timeline false documents store recordings) :
    store.Records documents recordings ∧ ∃ region, store.Houses documents region := by
  induction ht with
  | empty =>
      refine ⟨⟨nofun, nofun, fun _ _ => nofun, nofun, fun version hpos hle => ?_, nofun⟩,
        fun _ _ => False, Store.logged_empty, nofun, nofun⟩
      exact absurd hpos (Nat.not_lt.mpr hle)
  | create tokens _ ih =>
      obtain ⟨hs, region, hh⟩ := ih
      exact ⟨hs.create hh tokens, (hh.create tokens).1⟩
  | @edit documents store after recordings edit _ hf he hrun ih =>
      obtain ⟨hs, region, hh⟩ := ih
      refine ⟨hs.run hh hf he hrun, ?_⟩
      have hafter := (Edit.run_houses hh hf hrun).1
      rwa [he.opened] at hafter
  | commit _ ih =>
      obtain ⟨hs, region, hh⟩ := ih
      exact ⟨hs.commit hh, region, hh.commit⟩
  | undo _ h ih =>
      obtain ⟨hs, region, hh⟩ := ih
      exact ⟨hs.undoTo? hh h, region, hh.undoTo? h⟩
  | redo _ h ih =>
      obtain ⟨hs, region, hh⟩ := ih
      have hundo := Document.undoTo?_of_redoTo? h
      exact ⟨hs.undoTo? hh hundo, region, hh.undoTo? hundo⟩

-- Each version of the current branch has been recorded, and going to it gives back the trees
-- and the texts that it was recorded with, whatever has been done since. All that exists then
-- is of the current branch, and nothing of it is left to the next commit. What a commit
-- leaves behind cannot be gone to any more.
theorem recordings_regained (ht : Timeline false documents store recordings) :
    (∀ version, 0 < version → version ≤ store.newest → ∃ recording ∈ recordings, recording.version = version) ∧
      (∀ recording ∈ recordings, ∃ after, store.restore? recording.version = some after ∧
        ∀ document ∈ recording.documents, document.Regains recording.store after ∧
          document.RegainsText recording.store after) ∧
      (∀ version after, store.restore? version = some after → (∀ id, id < after.size → (after.node id).pending = false) ∧
        ∀ document ∈ documents, (after.node document.root).deleted = false →
          ∃ recording ∈ recordings, recording.version ≤ version ∧ document ∈ recording.documents ∧
            document.Regains recording.store after) ∧
      ∀ version, store.version + 1 < version → store.commit.restore? version = none := by
  obtain ⟨hs, region, hh⟩ := ht.recorded
  refine ⟨hs.complete, fun recording h => ?_, fun version after hrestore => ?_, fun version hlater => ?_⟩
  · refine ⟨_, if_neg (Nat.not_lt.mpr (hs.stays recording h).version_le), fun document hd => ?_⟩
    exact hs.regains_recording hh.logged h
      (Store.restored_of_restore? (if_neg (Nat.not_lt.mpr (hs.stays recording h).version_le))) hd
  · have hr := Store.restored_of_restore? hrestore
    refine ⟨fun id hlt => ?_, fun document hd hexists => hs.regains hh hr hd hexists⟩
    rw [hr.node id (hr.size ▸ hlt)]
  · exact if_pos (Store.newest_commit ▸ hlater)

end Timeline

def Document.outer : Document := (Document.ofTokens .empty [.matched none "x" 0 1]).2

def Document.inner : Document :=
  (Document.ofTokens (Document.ofTokens .empty [.matched none "x" 0 1]).1 [.matched none "a" 0 1]).2

-- A document is embedded in another and both are recorded. What is committed after that is
-- left behind by another commit, and an edit of what is embedded is under way.
theorem Timeline.recordings_regained_embedded :
    ∃ store recordings recording after, Timeline false [Document.inner, Document.outer] store recordings ∧
      recording ∈ recordings ∧ Document.outer ∈ recording.documents ∧ store.restore? recording.version = some after ∧
      Document.outer.Regains recording.store after ∧ Document.outer.RegainsText recording.store after ∧
      Document.outer.text recording.store = "xa" ∧ Document.outer.text store = "yc" := by
  have hsteps : (((Edit.insertBox Document.outer 2 "l" Document.inner).run
      (Document.ofTokens (Document.ofTokens .empty [.matched none "x" 0 1]).1 [.matched none "a" 0 1]).1).bind fun boxed =>
    ((Edit.replace 6 none "b").run boxed.commit).bind fun later =>
      (Document.outer.undoTo? later.commit 1).bind fun undone =>
        ((Edit.replace 2 none "y").run undone).bind fun branched =>
          ((Edit.replace 6 none "c").run branched.commit).map fun store =>
            ((boxed.commit.version, later.version, branched.version),
              (Document.inner.tokens boxed.commit, Document.outer.tokens undone, Document.inner.tokens branched.commit),
              (boxed.commit.node 3).history.existedAt boxed.commit.version,
              Document.outer.text boxed.commit, Document.outer.text store)) =
      some ((1, 1, 1), ([6], [2, 8], [6]), true, "xa", "yc") := by
    decide +kernel
  obtain ⟨boxed, hbox, hrest⟩ := Option.bind_eq_some_iff.mp hsteps
  obtain ⟨later, hlater, hrest⟩ := Option.bind_eq_some_iff.mp hrest
  obtain ⟨undone, hundo, hrest⟩ := Option.bind_eq_some_iff.mp hrest
  obtain ⟨branched, hbranch, hrest⟩ := Option.bind_eq_some_iff.mp hrest
  obtain ⟨store, hedit, hresult⟩ := Option.map_eq_some_iff.mp hrest
  simp only [Prod.mk.injEq] at hresult
  obtain ⟨⟨hfirst, hsecond, hthird⟩, ⟨hone, htwo, hthree⟩, hexisted, hbefore, hafter⟩ := hresult
  have hopened := ((@Timeline.empty false).create [.matched none "x" 0 1]).create [.matched none "a" 0 1]
  have hboxed := @Timeline.edit _ _ _ _ _ (.insertBox Document.outer 2 "l" Document.inner) hopened
    ⟨List.mem_cons_of_mem _ (List.mem_singleton_self _), .child (by decide), by decide⟩
    ⟨List.mem_cons_self, fun _ => by decide⟩ hbox
  have hleft := @Timeline.edit _ _ _ _ _ (.replace 6 none "b") hboxed.commit
    ⟨Document.inner, List.mem_cons_self, hone ▸ List.mem_singleton_self _⟩ trivial hlater
  have hbranched := @Timeline.edit _ _ _ _ _ (.replace 2 none "y") (hleft.commit.undo hundo)
    ⟨Document.outer, List.mem_cons_of_mem _ (List.mem_singleton_self _), htwo ▸ List.mem_cons_self⟩ trivial hbranch
  have hstore := @Timeline.edit _ _ _ _ _ (.replace 6 none "c") hbranched.commit
    ⟨Document.inner, List.mem_cons_self, hthree ▸ List.mem_singleton_self _⟩ trivial hedit
  have hkept : ∀ {recordings : List Recording}, boxed.commit.recording [Document.inner, Document.outer] ∈ recordings →
      ∀ documents, boxed.commit.recording [Document.inner, Document.outer] ∈ branched.commit.recording documents ::
        (later.commit.recording documents :: recordings.filter fun recording => recording.version ≤ later.version).filter
          fun recording => recording.version ≤ branched.version := fun h documents =>
    Recording.mem_kept (Recording.mem_kept h (Nat.le_of_eq (hfirst.trans hsecond.symm)))
      (Nat.le_of_eq (hfirst.trans hthird.symm))
  obtain ⟨after, hrestore, hall⟩ := hstore.recordings_regained.2.1 _ (hkept List.mem_cons_self _)
  have hin : Document.outer ∈ (boxed.commit.recording [Document.inner, Document.outer]).documents :=
    List.mem_filter.mpr ⟨List.mem_cons_of_mem _ (List.mem_singleton_self _), hexisted⟩
  exact ⟨store, _, _, after, hstore, hkept List.mem_cons_self _, hin, hrestore, (hall _ hin).1, (hall _ hin).2, hbefore,
    hafter⟩

-- A document is embedded that does not exist at the version of the store. The commit
-- leaves it behind, so that nothing of it is recorded until it is edited.
theorem Timeline.recordings_regained_stray :
    ∃ documents store recordings recording document after, Timeline true documents store recordings ∧
      recording ∈ recordings ∧ document ∈ recording.documents ∧ store.restore? recording.version = some after ∧
      document.text recording.store = "xa" ∧ document.text after = "xb" := by
  have hsteps : ((Document.outer.undoTo? (Document.ofTokens (Document.ofTokens .empty [.matched none "x" 0 1]).1.commit
      [.matched none "a" 0 1]).1 0).bind fun undone =>
    ((Edit.insertBox Document.outer 2 "l" Document.inner).run undone).bind fun boxed =>
      ((Edit.replace 6 none "b").run boxed.commit).bind fun later =>
        (later.commit.restore? boxed.commit.version).map fun after =>
          ((undone.node 3).children, Document.inner.tokens boxed.commit,
            (boxed.commit.node 3).history.existedAt boxed.commit.version, decide (boxed.commit.version ≤ later.version),
            Document.outer.text boxed.commit, Document.outer.text after)) =
      some ([0, 2, 1], [6], true, true, "xa", "xb") := by
    decide +kernel
  obtain ⟨undone, hundo, hrest⟩ := Option.bind_eq_some_iff.mp hsteps
  obtain ⟨boxed, hbox, hrest⟩ := Option.bind_eq_some_iff.mp hrest
  obtain ⟨later, hlater, hrest⟩ := Option.bind_eq_some_iff.mp hrest
  obtain ⟨after, hrestore, hresult⟩ := Option.map_eq_some_iff.mp hrest
  simp only [Prod.mk.injEq] at hresult
  obtain ⟨hchildren, htokens, hexisted, hle, hbefore, hafter⟩ := hresult
  have hinner : Document.inner = (Document.ofTokens (Document.ofTokens .empty [.matched none "x" 0 1]).1.commit
      [.matched none "a" 0 1]).2 := by decide +kernel
  have hopened := ((@Timeline.empty true).create [.matched none "x" 0 1]).commit.create [.matched none "a" 0 1]
  rw [← hinner] at hopened
  have hboxed := @Timeline.edit _ _ _ _ _ (.insertBox Document.outer 2 "l" Document.inner) (hopened.undo hundo)
    ⟨List.mem_cons_of_mem _ (List.mem_singleton_self _),
      .child (show 2 ∈ (undone.node 3).children by rw [hchildren]; decide), by decide⟩
    ⟨List.mem_cons_self, nofun⟩ hbox
  have hlast := @Timeline.edit _ _ _ _ _ (.replace 6 none "b") hboxed.commit
    ⟨Document.inner, List.mem_cons_self, htokens ▸ List.mem_singleton_self _⟩ trivial hlater
  refine ⟨_, _, _, boxed.commit.recording [Document.inner, Document.outer], Document.outer, after, hlast.commit,
    Recording.mem_kept List.mem_cons_self (of_decide_eq_true hle), ?_, hrestore, hbefore, hafter⟩
  exact List.mem_filter.mpr ⟨List.mem_cons_of_mem _ (List.mem_singleton_self _), hexisted⟩

end IncrementalLR
