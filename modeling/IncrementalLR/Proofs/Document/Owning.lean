import IncrementalLR.Proofs.Document.Acts
import IncrementalLR.Proofs.Document.Derivation
import IncrementalLR.Proofs.Document.Threaded
import IncrementalLR.Proofs.Tree.Region

namespace IncrementalLR

namespace Store

variable {store other built last : Store} {root : Nat} {forest : Forest}

theorem leavesBelow_congr {fuel id : Nat} (ha : ∀ id, (other.node id).toAttributes = (store.node id).toAttributes) :
    other.leavesBelow fuel id = store.leavesBelow fuel id := by
  induction fuel generalizing id with
  | zero => rfl
  | succ fuel ih =>
      rw [leavesBelow, leavesBelow, Node.isLeaf, Node.isLeaf, ha, funext fun child => @ih child]

theorem leavesBelow_of_view {fuel id : Nat} (hv : ∀ id, other.view id = store.view id) :
    other.leavesBelow fuel id = store.leavesBelow fuel id := by
  induction fuel generalizing id with
  | zero => rfl
  | succ fuel ih =>
      rw [leavesBelow, leavesBelow, Node.isLeaf, Node.isLeaf,
        show (other.node id).symbol = (store.node id).symbol from congrArg (fun view => view.label.symbol) (hv id),
        show (other.node id).children = (store.node id).children from congrArg View.children (hv id),
        funext fun child => @ih child]

theorem attributes_saveAll {version : Store → Nat} {ids : List Nat} {id : Nat} :
    ((ids.foldl (fun store node => store.save node (version store)) store).node id).toAttributes =
      (store.node id).toAttributes := by
  induction ids generalizing store with
  | nil => rfl
  | cons first rest ih =>
      rw [List.foldl_cons, ih, save, node_update]
      split <;> rfl

-- The leaves below a root that were threaded anew.
theorem threads_relink (hp : last.Planted root forest) (hsize : last.size = built.size)
    (ha : ∀ id, (last.node id).toAttributes = ((built.relink root).node id).toAttributes) :
    last.Threads none none (forest.leaves.map Prod.fst) := by
  have hleaves : built.leaves root = forest.leaves.map Prod.fst := by
    have hrelinked : (built.relink root).leaves root = last.leaves root := by
      rw [Store.leaves, Store.leaves, leavesBelow_congr ha, hsize, relink, size_threadLeaves]
    rw [← hp.leaves, ← hrelinked, Store.leaves, Store.leaves, relink, size_threadLeaves,
      leavesBelow_of_view fun id => view_threadLeaves]
  have hn := (List.nodup_cons.mp hp.nodup).2.sublist Forest.leaves_sublist
  have hlt : ∀ id ∈ forest.leaves.map Prod.fst, id < built.size :=
    fun id h => hsize ▸ hp.lt_size id (List.mem_cons_of_mem _ (Forest.leaves_sublist.subset h))
  have hthreads := (@threads_threadLeaves built none _ hn (by simp) hlt (by simp)).1
  rw [relink, hleaves] at ha
  refine hthreads.congr fun id _ => ?_
  rw [SameThread, ha]
  exact ⟨rfl, rfl⟩

end Store

namespace Document

variable {contents : List (Symbol × Option String × String)}

-- A flat document has the leaves as its content.
theorem threaded_ofLeaves (store : Store) (hleaf : ∀ content ∈ contents, content.1.isNonterminal = false ∧ content.1 ≠ .finish) :
    (ofLeaves store contents).2.Threaded (ofLeaves store contents).1
      ((ofLeaves store contents).2.whole (.ofLeaves (enumerate (store.size + 2) contents))) := by
  have hp := (rooted_ofLeaves store fun content h => (hleaf content h).1).toPlanted
  refine ⟨hp, ⟨bosLabel, eosLabel, _, rfl, ⟨rfl, rfl⟩, fun entry h => ?_⟩, ?_⟩
  · rw [Forest.leaves_ofLeaves] at h
    have hlabel := List.mem_map_of_mem (f := Prod.snd) h
    rw [enumerate_labels, List.mem_map] at hlabel
    obtain ⟨content, hmem, he⟩ := hlabel
    rw [← he]
    exact (hleaf content hmem).2
  · generalize (ofLeaves store contents).2.whole _ = forest at hp ⊢
    unfold ofLeaves at hp ⊢
    simp only [Store.allocate, Store.allocateNode_snd, Store.size_push] at hp ⊢
    generalize allocateLeaves contents _ = allocated at hp ⊢
    obtain ⟨filled, nodes⟩ := allocated
    dsimp only at hp ⊢
    generalize (filled.allocateNode rootSymbol (store.size :: (nodes ++ [store.size + 1]))).1 = built at hp ⊢
    have hmark : (built.relink filled.size).Evolves (fun _ => False)
        ((built.relink filled.size).markChanged filled.size built.version) := Store.Evolves.refl.markChanged
    refine @Store.threads_relink built _ _ _ hp ?_ fun id => ?_
    · rw [Store.size_saveAll, hmark.still.size, Store.relink, Store.size_threadLeaves]
    · rw [Store.attributes_saveAll]
      exact (hmark.still.node id).attributes

end Document

namespace Store

variable {store after other : Store} {others : Nat → Prop} {ids : List Nat} {id version : Nat}

theorem lt_size_of_known (hk : store.Known id) : id < store.size :=
  Nat.lt_of_not_le fun hge => not_known_of_size_le hge hk

-- What is known stays so between two versions.
theorem Evolves.known (he : store.Evolves others after) (hk : store.Known id) : after.Known id := by
  rcases he.node (lt_size_of_known hk) with h | ⟨-, hpending, -⟩
  · rw [Known, h.pending, Node.RecordedAt, h.history, he.versions.1]
    exact hk
  · exact Or.inl hpending

theorem Evolves.known_new (he : store.Evolves others after) (hge : store.size ≤ id) (hlt : id < after.size) :
    after.Known id := Or.inl (he.node_new hge hlt).2.1

theorem Remarked.known (hr : store.Remarked others after) (hk : store.Known id) : after.Known id := by
  rw [Known, hr.recordedAt, hr.alike.version]
  rcases hr.pending id with h | ⟨-, h⟩
  · rw [h]
    exact hk
  · exact Or.inl h

theorem Saved.known (hs : store.Saved ids after) (hk : store.Known id) : after.Known id := by
  rw [Known, hs.pending, hs.version, hs.recordedAt]
  exact hk.imp_right Or.inr

theorem Planted.below_iff {forest : Forest} {root : Nat} (hp : store.Planted root forest) :
    store.Below root id ↔ id ∈ forest.ids := by
  refine ⟨hp.mem_of_below, fun h => ?_⟩
  have hinside : ∀ id ∈ root :: forest.ids, id = root ∨ store.Below root id :=
    hp.ids_inside (fun id hid child hchild => Or.inr ?_) (Or.inl rfl)
  · exact (hinside id (List.mem_cons_of_mem _ h)).resolve_left fun he => (List.nodup_cons.mp hp.nodup).1 (he ▸ h)
  · rcases hid with rfl | hid
    · exact .child hchild
    · exact .further hid hchild

theorem exists_restored (h : version ≤ store.newest) : ∃ restored, store.Restored version restored := by
  have hrestore : ∃ restored, store.restore? version = some restored := by
    rw [restore?, if_neg (Nat.not_lt.mpr h)]
    exact ⟨_, rfl⟩
  obtain ⟨restored, hrestore⟩ := hrestore
  exact ⟨restored, restored_of_restore? hrestore⟩

theorem Restored.deleted (hr : store.Restored version after) (hlt : id < store.size) :
    (after.node id).deleted = ((store.node id).history.deleted.at? version).getD true := by
  rw [hr.node id hlt]
  change ((store.node id).load version).deleted = _
  unfold Node.load
  cases (store.node id).history.deleted.at? version with
  | none => rfl
  | some deleted => rfl

end Store

namespace Document

variable {document : Document} {store after other result : Store} {inside others : Nat → Prop} {version : Nat}
  {ids : List Nat}

-- Whether the tree of a document is in a store, made of what exists.
def Alive (document : Document) (store : Store) : Prop :=
  ∃ forest, document.Threaded store forest ∧ ∀ id ∈ document.root :: forest.ids, store.Known id

-- Whether the nodes of the tree of a document have been in it, or are new.
def Renews (document : Document) (store after : Store) : Prop :=
  ∀ id, after.Below document.root id → store.Below document.root id ∨ store.size ≤ id

-- The nodes of a document may be in another store as they are, and so may its tokens.
theorem Alive.congr (ha : document.Alive store) (hc : store.Closed inside) (hroot : inside document.root)
    (hsame : ∀ id, inside id → store.Known id →
      (other.node id).toAttributes = (store.node id).toAttributes ∧ other.Known id) :
    document.Alive other ∧ document.sequence other = document.sequence store ∧ document.Renews store other := by
  obtain ⟨forest, ht, hk⟩ := ha
  have hinside := ht.ids_inside (fun id h => (hc id h).children) hroot
  have hknown : ∀ id ∈ document.root :: forest.ids, other.Known id := fun id h => (hsame id (hinside id h) (hk id h)).2
  have hother := ht.congr (fun id h => Store.lt_size_of_known (hknown id h)) fun id h => (hsame id (hinside id h) (hk id h)).1
  refine ⟨⟨_, hother, ?_⟩, ?_, fun id hbelow => Or.inl ?_⟩
  · rw [Forest.ids_reflag]
    exact hknown
  · rw [hother.sequence, Forest.tokens_reflag, ht.sequence]
  · rw [ht.toPlanted.below_iff, ← Forest.ids_reflag]
    exact hother.mem_of_below hbelow

-- What holds of a document with the nodes that are its own, at all versions.
structure Owns (document : Document) (store : Store) (inside : Nat → Prop) : Prop extends store.Encloses inside where
  within : document.Within inside
  alive : (store.node document.root).deleted = false → document.Alive store
  past : ∀ version result, store.Restored version result → (result.node document.root).deleted = false →
    document.Alive result
  existed : (store.node document.root).deleted = false ↔
    (store.node document.root).history.deleted.at? store.version = some false

namespace Owns

theorem root_lt (ho : document.Owns store inside) : document.root < store.size := ho.lt_size _ ho.within.root

-- Versions are given back alike where the logs are alike.
theorem past_congr (ho : document.Owns store inside) (hl : store.Logged) (hlafter : after.Logged)
    (hsize : store.size ≤ after.size) (hversion : version ≤ store.newest)
    (hsame : ∀ id, inside id → (store.node id).RecordedAt version →
      (after.node id).history.attributes.at? version = (store.node id).history.attributes.at? version ∧
        (after.node id).RecordedAt version)
    (hdeleted : (after.node document.root).history.deleted.at? version =
      (store.node document.root).history.deleted.at? version)
    (hr : after.Restored version result) (hexists : (result.node document.root).deleted = false) :
    document.Alive result := by
  obtain ⟨old, hold⟩ := Store.exists_restored hversion
  have hlt := ho.root_lt
  rw [hr.deleted (Nat.lt_of_lt_of_le hlt hsize), hdeleted, ← hold.deleted hlt] at hexists
  refine ((ho.past version old hold hexists).congr (ho.toEncloses.restored hold).closed ho.within.root
    fun id hid hknown => ?_).1
  have hrecorded := hold.known_iff.mp hknown
  obtain ⟨hattributes, hafter⟩ := hsame id hid hrecorded
  have hheld := (hold.heldAt hl hrecorded).attributes
  have hheldafter := (hr.heldAt hlafter hafter).attributes
  rw [hold.kept.1] at hheld
  rw [hr.kept.1, hattributes, hheld] at hheldafter
  exact ⟨(Option.some_inj.mp hheldafter).symm, hr.known_iff.mpr hafter⟩

theorem past_of_history (ho : document.Owns store inside) (hl : store.Logged) (hlafter : after.Logged)
    (hsize : store.size ≤ after.size) (hnewest : after.newest = store.newest)
    (hhistory : ∀ id, (after.node id).history = (store.node id).history) :
    ∀ version result, after.Restored version result → (result.node document.root).deleted = false →
      document.Alive result := by
  intro version result hr
  refine ho.past_congr hl hlafter hsize (hnewest ▸ hr.version_le) (fun id _ h => ?_) (by rw [hhistory]) hr
  rw [Node.RecordedAt, hhistory]
  exact ⟨rfl, h⟩

-- What becomes of other nodes leaves the document alone.
theorem apart (ho : document.Owns store inside) (hl : store.Logged) (he : store.Evolves others after)
    (hd : ∀ id, inside id → ¬others id) : document.Owns after inside := by
  have hsame : ∀ id, inside id → (store.node id).SamePast (after.node id) :=
    fun id hid => (he.node (ho.lt_size id hid)).resolve_right fun h => hd id hid h.1
  have hroot := hsame _ ho.within.root
  refine ⟨ho.toEncloses.apart he hd, ho.within, fun hexists => ?_, ?_, ?_⟩
  · rw [hroot.deleted] at hexists
    exact ((ho.alive hexists).congr ho.closed ho.within.root fun id hid hk => ⟨(hsame id hid).attributes, he.known hk⟩).1
  · exact ho.past_of_history hl (hl.evolves he) he.size_le he.versions.2 fun _ => he.history
  · rw [hroot.deleted, hroot.history, he.versions.1]
    exact ho.existed

-- What becomes of the document itself.
theorem grows (ho : document.Owns store inside) (hl : store.Logged)
    (he : store.Evolves (store.WithNew after inside) after)
    (hdeleted : (after.node document.root).deleted = (store.node document.root).deleted)
    (halive : (store.node document.root).deleted = false → document.Alive after) :
    document.Owns after (store.WithNew after inside) := by
  refine ⟨ho.toEncloses.grows he, ?_, fun hexists => halive (hdeleted ▸ hexists), ?_, ?_⟩
  · exact ⟨Or.inl ho.within.root, Or.inl ho.within.bos, Or.inl ho.within.eos⟩
  · exact ho.past_of_history hl (hl.evolves he) he.size_le he.versions.2 fun _ => he.history
  · rw [hdeleted, he.history, he.versions.1]
    exact ho.existed

theorem remarked (ho : document.Owns store inside) (hl : store.Logged) (hr : store.Remarked others after) :
    document.Owns after inside := by
  refine ⟨ho.toEncloses.remarked hr, ho.within, fun hexists => ?_, ?_, ?_⟩
  · rw [hr.deleted] at hexists
    exact ((ho.alive hexists).congr ho.closed ho.within.root fun id _ hk => ⟨hr.attributes, hr.known hk⟩).1
  · exact ho.past_of_history hl (hl.remarked hr) (Nat.le_of_eq hr.size.symm) hr.alike.newest fun _ => hr.history
  · rw [hr.deleted, hr.history, hr.alike.version]
    exact ho.existed

theorem still (ho : document.Owns store inside) (hl : store.Logged) (hs : store.Still after) :
    document.Owns after inside := by
  refine ⟨ho.toEncloses.still hs, ho.within, fun hexists => ?_, ?_, ?_⟩
  · rw [(hs.node _).deleted] at hexists
    exact ((ho.alive hexists).congr ho.closed ho.within.root
      fun id _ hk => ⟨(hs.node id).attributes, hs.known_iff.mpr hk⟩).1
  · exact ho.past_of_history hl (hl.still hs) (Nat.le_of_eq hs.size.symm) hs.versions.2 fun id => (hs.node id).history
  · rw [(hs.node _).deleted, (hs.node _).history, hs.versions.1]
    exact ho.existed

theorem saved (ho : document.Owns store inside) (hl : store.Logged) (hlafter : after.Logged) (hs : store.Saved ids after)
    (hd : ∀ id, inside id → id ∉ ids) : document.Owns after inside := by
  have hroot := hd _ ho.within.root
  have hdeleted : (after.node document.root).deleted = (store.node document.root).deleted := by rw [hs.kept]
  refine ⟨ho.toEncloses.saved hs, ho.within, fun hexists => ?_, fun version result hr hexists => ?_, ?_⟩
  · rw [hdeleted] at hexists
    exact ((ho.alive hexists).congr ho.closed ho.within.root fun id _ hk => ⟨hs.toAttributes, hs.known hk⟩).1
  · refine ho.past_congr hl hlafter (Nat.le_of_eq hs.size.symm) (hs.newest ▸ hr.version_le) (fun id hid h => ?_)
      (by rw [hs.deleted, if_neg fun h => hroot h.1]) hr hexists
    rw [hs.attributes, if_neg fun h => hd id hid h.1]
    exact ⟨rfl, hs.recordedAt.mpr (Or.inr h)⟩
  · rw [hdeleted, hs.deleted, if_neg fun h => hroot h.1, hs.version]
    exact ho.existed

theorem restored (ho : document.Owns store inside) (hl : store.Logged) (hr : store.Restored version after) :
    document.Owns after inside := by
  refine ⟨ho.toEncloses.restored hr, ho.within, ho.past version after hr, ?_, ?_⟩
  · exact ho.past_of_history hl (hl.restored hr) (Nat.le_of_eq hr.size.symm) hr.clock.2 fun _ => hr.kept.1
  · rw [hr.deleted ho.root_lt, hr.kept.1, hr.clock.1]
    cases (store.node document.root).history.deleted.at? version with
    | none => exact ⟨nofun, nofun⟩
    | some deleted => exact Option.some_inj.symm

-- A commit records what exists.
theorem commit (ho : document.Owns store inside) (hl : store.Logged) : document.Owns store.commit inside := by
  have hattributes : ∀ id, (store.commit.node id).toAttributes = (store.node id).toAttributes := fun id => by
    rw [Store.node_commit, Node.commit_spec.1]
  have hdeleted : (store.commit.node document.root).deleted = (store.node document.root).deleted := by
    rw [Store.node_commit, Node.commit_spec.2.1]
  have hexisted : (store.node document.root).deleted = false ↔
      (store.commit.node document.root).history.deleted.at? (store.version + 1) = some false := by
    rw [hl.deleted_commit, Nat.min_eq_right (Nat.le_succ _)]
    split
    · exact Option.some_inj.symm
    · exact ho.existed
  have halive : (store.node document.root).deleted = false → document.Alive store.commit := fun hexists =>
    ((ho.alive hexists).congr ho.closed ho.within.root fun id _ hk => ⟨hattributes id, hl.known_commit.mpr hk⟩).1
  refine ⟨ho.toEncloses.commit hl, ho.within, fun hexists => halive (hdeleted ▸ hexists), fun version result hr hexists => ?_, ?_⟩
  · have hle := hr.version_le
    rw [Store.newest_commit] at hle
    rcases Nat.lt_or_ge store.version version with hlt | hle
    · obtain rfl : version = store.version + 1 := by omega
      rw [hr.deleted (Store.size_commit.symm ▸ ho.root_lt)] at hexists
      have hroot : (store.commit.node document.root).history.deleted.at? (store.version + 1) = some false := by
        cases h : (store.commit.node document.root).history.deleted.at? (store.version + 1) with
        | none =>
            rw [h] at hexists
            cases hexists
        | some deleted =>
            rw [h] at hexists
            exact congrArg some hexists
      refine ((ho.alive (hexisted.mpr hroot)).congr ho.closed ho.within.root fun id _ hk => ?_).1
      have hheld := hl.heldAt_commit hk
      have hrecorded : (store.commit.node id).RecordedAt (store.version + 1) := by
        rw [Node.RecordedAt, hheld.deleted]
        rfl
      have hrestored := (hr.heldAt hl.commit hrecorded).attributes
      rw [hr.kept.1, hheld.attributes] at hrestored
      exact ⟨(Option.some_inj.mp hrestored).symm.trans (hattributes id), hr.known_iff.mpr hrecorded⟩
    · refine ho.past_congr hl hl.commit (Nat.le_of_eq Store.size_commit.symm) (Nat.le_trans hle hl.version_le)
        (fun id _ h => ?_) ?_ hr hexists
      · rw [hl.attributes_commit, if_neg fun h => Nat.not_lt.mpr hle h.2, Nat.min_eq_left hle, hl.recordedAt_commit,
          Nat.min_eq_left hle]
        exact ⟨rfl, Or.inr h⟩
      · rw [hl.deleted_commit, if_neg fun h => Nat.not_lt.mpr hle h.2, Nat.min_eq_left hle]
  · rw [hdeleted, Store.version_commit]
    exact hexisted

end Owns

-- New nodes are recorded from the version of the store on, and what is recorded of others
-- stays.
theorem Opens.recorded (ho : Opens store ids after) (version : Nat) :
    (∀ id ∈ ids, ((after.node id).history.attributes.at? version =
      if store.version ≤ version then some (after.node id).toAttributes else none) ∧
      (after.node id).history.deleted.at? version =
        if store.version ≤ version then some (after.node id).deleted else none) ∧
      ∀ id, id ∉ ids →
        (after.node id).history.attributes.at? version = (store.node id).history.attributes.at? version ∧
          (after.node id).history.deleted.at? version = (store.node id).history.deleted.at? version := by
  obtain ⟨linked, hsaved, hnew, hevolves⟩ := ho
  have he := hevolves _ (Opens.closed fun id hid => (hnew id hid).1) fun _ hid => hid
  refine ⟨fun id hid => ?_, fun id hid => ?_⟩
  · have hdeleted : (after.node id).deleted = (linked.node id).deleted := by rw [hsaved.kept]
    rw [hsaved.attributes, hsaved.deleted, (he.node_new (hnew id hid).1 (hnew id hid).2).2.2, hsaved.toAttributes, hdeleted,
      he.versions.1]
    simp only [hid, true_and]
    exact ⟨rfl, rfl⟩
  · rw [hsaved.attributes, hsaved.deleted, he.history, if_neg fun h => hid h.1, if_neg fun h => hid h.1]
    exact ⟨rfl, rfl⟩

-- A new document has nodes of its own, which are recorded at once.
theorem owns_ofLeaves {contents : List (Symbol × Option String × String)} (hl : store.Logged)
    (hleaf : ∀ content ∈ contents, content.1.isNonterminal = false ∧ content.1 ≠ .finish) :
    (ofLeaves store contents).1.Logged ∧
      ∃ ids : List Nat, Opens store ids (ofLeaves store contents).1 ∧
        (ofLeaves store contents).2.Owns (ofLeaves store contents).1 (· ∈ ids) ∧
        ∀ other inside, Owns other store inside →
          other.Owns (ofLeaves store contents).1 inside ∧ (∀ id, inside id → id ∉ ids) ∧
            ((store.node other.root).deleted = false →
              other.sequence (ofLeaves store contents).1 = other.sequence store ∧
                other.Renews store (ofLeaves store contents).1) := by
  obtain ⟨ids, hopens, hwithin⟩ := exists_opens store contents
  have hthreaded := threaded_ofLeaves store hleaf
  generalize (ofLeaves store contents).2.whole _ = forest at hthreaded
  generalize ofLeaves store contents = opened at hopens hwithin hthreaded ⊢
  obtain ⟨after, document⟩ := opened
  dsimp only at hopens hwithin hthreaded ⊢
  have hlogged := fun id hid version => (hopens.recorded version).1 id hid
  obtain ⟨linked, hsaved, hnew, hevolves⟩ := id hopens
  have hclosed := Opens.closed fun id hid => (hnew id hid).1
  have he := hevolves _ hclosed fun _ hid => hid
  have hfresh : ∀ id ∈ ids, (linked.node id).pending = true ∧ (linked.node id).history = default :=
    fun id hid => (he.node_new (hnew id hid).1 (hnew id hid).2).2
  have hlinked := hl.evolves he
  have hafter := hlinked.saved hsaved fun id hid => (hfresh id hid).1
  have hencloses : after.Encloses (· ∈ ids) := by
    refine Store.Encloses.saved ⟨he.closed hclosed, fun id hid version attributes h => ?_, fun id hid => (hnew id hid).2⟩ hsaved
    rw [(hfresh id hid).2] at h
    cases h
  have halive : document.Alive after := by
    refine ⟨forest, hthreaded, fun id h => hsaved.known (Or.inl (hfresh id ?_).1)⟩
    exact hthreaded.ids_inside (fun id h => (hencloses.closed id h).children) hwithin.root id h
  refine ⟨hafter, ids, hopens, ⟨hencloses, hwithin, fun _ => halive, fun version result hr hexists => ?_, ?_⟩,
    fun other inside ho => ?_⟩
  · have hversion : store.version ≤ version := by
      by_contra hlt
      rw [hr.deleted (hencloses.lt_size _ hwithin.root), (hlogged _ hwithin.root version).2, if_neg hlt] at hexists
      cases hexists
    refine (halive.congr hencloses.closed hwithin.root fun id hid _ => ?_).1
    have hat := hlogged id hid version
    rw [if_pos hversion, if_pos hversion] at hat
    have hrecorded : (after.node id).RecordedAt version := by
      rw [Node.RecordedAt, hat.2]
      rfl
    have hheld := (hr.heldAt hafter hrecorded).attributes
    rw [hr.kept.1, hat.1] at hheld
    exact ⟨(Option.some_inj.mp hheld).symm, hr.known_iff.mpr hrecorded⟩
  · have hversion : after.version = store.version := hsaved.version.trans he.versions.1
    rw [(hlogged _ hwithin.root _).2, hversion, if_pos (Nat.le_refl _)]
    exact Option.some_inj.symm
  · have hapart : ∀ id, inside id → id ∉ ids := fun id hid h => by
      have := ho.lt_size id hid
      have := (hnew id h).1
      omega
    refine ⟨(ho.apart hl he hapart).saved hlinked hafter hsaved hapart, hapart, fun hexists => ?_⟩
    refine ((ho.alive hexists).congr ho.closed ho.within.root fun id hid hk => ⟨?_, hsaved.known (he.known hk)⟩).2
    have hsame := (he.node (ho.lt_size id hid)).resolve_right fun h => hapart id hid h.1
    exact hsaved.toAttributes.trans hsame.attributes

end Document

end IncrementalLR
