import IncrementalLR.Proofs.Document.Embedding
import IncrementalLR.Proofs.Document.Raising
import IncrementalLR.Proofs.Document.Termination

namespace IncrementalLR

section Deleted

variable {store : Store} {id : Nat}

@[simp] theorem Store.deleted_push {symbol : Symbol} {rule : Option String} {text : String} :
    ((store.push (.new symbol rule text)).node id).deleted = (store.node id).deleted := by
  rw [node_push]
  split
  · rename_i he
    rw [he, node_of_size_le (Nat.le_refl _)]
    rfl
  · rfl

@[simp] theorem Store.deleted_linkChildren {parent : Nat} {left : Option Nat} {children : List Nat} :
    ((linkChildren parent left children store).node id).deleted = (store.node id).deleted := by
  induction children generalizing left store with
  | nil => rfl
  | cons child rest ih => rw [linkChildren, ih, deleted_reviseAll, deleted_revise]

@[simp] theorem Store.deleted_threadLeaves {before : Option Nat} {leaves : List Nat} :
    ((threadLeaves before leaves store).node id).deleted = (store.node id).deleted := by
  induction leaves generalizing before store with
  | nil => rfl
  | cons leaf rest ih => rw [threadLeaves, ih, deleted_reviseAll, deleted_revise]

@[simp] theorem Store.deleted_saveAll {ids : List Nat} :
    ((ids.foldl (fun store id => store.save id store.version) store).node id).deleted = (store.node id).deleted := by
  induction ids generalizing store with
  | nil => rfl
  | cons first rest ih =>
      rw [List.foldl_cons, ih, save, node_update]
      split
      · rfl
      · rfl

@[simp] theorem Document.deleted_allocateLeaves {contents : List (Symbol × Option String × String)} :
    ((allocateLeaves contents store).1.node id).deleted = (store.node id).deleted := by
  induction contents generalizing store with
  | nil => rfl
  | cons content rest ih => exact ih.trans Store.deleted_push

-- A new document exists, and no other one ceases to.
theorem Document.deleted_ofLeaves {contents : List (Symbol × Option String × String)} :
    ((ofLeaves store contents).1.node id).deleted = (store.node id).deleted := by
  unfold ofLeaves
  simp only [Store.allocate, Store.allocateNode, Store.setChildren, Store.relink, Store.deleted_saveAll, deleted_markChanged,
    Store.deleted_threadLeaves, Store.deleted_revise, Store.deleted_linkChildren, Store.deleted_push, deleted_allocateLeaves]

end Deleted

namespace Store

variable {store : Store} {forest : Forest} {parent : Nat} {left : Option Nat}

-- Trees under a node without a flag have none, if all flags in them go up.
theorem Linked.still (hl : store.Linked parent left forest) (hparent : (store.node parent).changed = false)
    (h : ∀ id ∈ forest.ids, ∀ above, (store.node id).parent = some above → (store.node id).changed = true →
      (store.node above).changed = true) : forest.Still := by
  induction forest generalizing parent left with
  | nil => trivial
  | leaf id label after ih =>
      obtain ⟨hview, -, hafter⟩ := hl
      obtain ⟨hfirst, hrest⟩ := List.forall_mem_cons.mp h
      refine ⟨?_, ih hafter hparent hrest⟩
      by_contra hne
      have hchanged : (store.node id).changed = true :=
        (congrArg (fun view => view.label.changed) hview).trans (eq_true_of_ne_false hne)
      cases hparent.symm.trans (hfirst parent (congrArg View.parent hview) hchanged)
  | node id symbol changed below after ihbelow ih =>
      obtain ⟨hview, -, hbelow, hafter⟩ := hl
      obtain ⟨hfirst, hrest⟩ := List.forall_mem_cons.mp h
      obtain ⟨hinner, hrest⟩ := List.forall_mem_append.mp hrest
      have hid : (store.node id).changed = changed := congrArg (fun view => view.label.changed) hview
      have hchanged : changed = false := by
        by_contra hne
        cases hparent.symm.trans (hfirst parent (congrArg View.parent hview) (hid.trans (eq_true_of_ne_false hne)))
      exact ⟨hchanged, ihbelow hbelow (hid.trans hchanged) hinner, ih hafter hparent hrest⟩

theorem Kept.settled (hk : store.Kept forest)
    (h : ∀ id ∈ forest.ids, ∀ above, (store.node id).parent = some above → (store.node id).changed = true →
      (store.node above).changed = true) : forest.Settled fun _ below => below.Still := by
  induction forest with
  | nil => trivial
  | leaf id label after ih => exact ih hk.2 (List.forall_mem_cons.mp h).2
  | node id symbol changed below after ihbelow ih =>
      obtain ⟨hholds, hafter⟩ := hk
      obtain ⟨hinner, hrest⟩ := List.forall_mem_append.mp (List.forall_mem_cons.mp h).2
      have hid : (store.node id).changed = changed := congrArg Label.changed hholds.1
      exact ⟨fun hchanged => hholds.2.2.2.still (hid.trans hchanged) hinner, ihbelow hholds.2.2.2.kept hinner, ih hafter hrest⟩

theorem Kept.unflagged (hk : store.Kept forest) (hs : forest.Still) : ∀ id ∈ forest.ids, (store.node id).changed = false := by
  induction forest with
  | nil => exact nofun
  | leaf id label after ih =>
      exact List.forall_mem_cons.mpr ⟨(congrArg Label.changed hk.1.1).trans hs.1, ih hk.2 hs.2⟩
  | node id symbol changed below after ihbelow ih =>
      obtain ⟨hholds, hafter⟩ := hk
      obtain ⟨hchanged, hbelow, hrest⟩ := hs
      exact List.forall_mem_cons.mpr ⟨(congrArg Label.changed hholds.1).trans hchanged,
        List.forall_mem_append.mpr ⟨ihbelow hholds.2.2.2.kept hbelow, ih hafter hrest⟩⟩

end Store

-- The nodes of the tree of a document, but for its two ends.
def Document.Bears (document : Document) (store : Store) (id : Nat) : Prop :=
  document.Has store id ∧ id ≠ document.bos ∧ id ≠ document.eos

namespace Document.Threaded

variable {document : Document} {store after : Store} {forest : Forest} {parser parser' : Parser} {fuel id : Nat}
  {reparse : Bool}

-- Anything below the root has a node of the tree above it, which is no end.
theorem exists_parent (ht : document.Threaded store forest) (hb : store.Below document.root id) :
    ∃ parent, (store.node id).parent = some parent ∧ document.Bears store parent := by
  obtain ⟨parent, hhas, hchild⟩ : ∃ parent, document.Has store parent ∧ id ∈ (store.node parent).children := by
    cases hb with
    | child h => exact ⟨_, Or.inl rfl, h⟩
    | further h hchild => exact ⟨_, Or.inr h, hchild⟩
  have hparent : (store.node id).parent = some parent := (ht.consistent.links parent hhas).parent_mem hchild
  obtain ⟨inner, hleaves⟩ := ht.frames.leaves
  have hends : ∀ leaf ∈ forest.leaves.map Prod.fst, parent ≠ leaf := by
    intro leaf hleaf he
    obtain ⟨entry, hentry, rfl⟩ := List.mem_map.mp hleaf
    have hnone : (store.node entry.1).children = [] := (ht.linked.kept.leaf hentry).2.1
    rw [he, hnone] at hchild
    cases hchild
  rw [hleaves] at hends
  refine ⟨parent, hparent, hhas, hends _ List.mem_cons_self, hends _ ?_⟩
  exact List.mem_cons_of_mem _ (List.mem_append_right _ (List.mem_singleton_self _))

-- An accepted parse leaves no flag in a tree in which flags go up.
theorem unflagged_of_accepted (ht : document.Threaded store forest) (hb : parser.IsBuilt)
    (hflags : ∀ id, document.Bears store id → ∀ parent, (store.node id).parent = some parent →
      (store.node id).changed = true → (store.node parent).changed = true)
    (hp : parser.parse fuel store document reparse = some (parser', after, .ok .accepted)) (hid : document.Bears after id) :
    (after.node id).changed = false := by
  obtain ⟨reparse', middle, first, last, content, scene, hr, hforest, hreach, -, hahead, hplanted, hflag⟩ :=
    ht.exists_scene_of_accepted hb hp
  have hmiddle := ht.congr (fun id h => hr.size.symm ▸ ht.lt_size id h) fun id _ => hr.attributes
  rw [hforest] at hmiddle
  have hapart := (List.nodup_cons.mp hmiddle.nodup).2
  simp only [framed, Forest.ids, Forest.ids_append, List.nodup_cons, List.nodup_append] at hapart
  have hsettled : content.Settled fun _ below => below.Still := by
    refine (Store.kept_append.mp hmiddle.linked.kept.2).1.settled fun id hmem above habove hchanged => ?_
    have hbefore : document.Has store id := by
      refine Or.inr (ht.toPlanted.below_iff.mpr ?_)
      rw [← @Forest.ids_reflag (fun id => (middle.node id).changed) forest, hforest]
      simp only [framed, Forest.ids, Forest.ids_append, List.mem_cons, List.mem_append]
      exact Or.inr (Or.inl hmem)
    have hsame : ∀ id, (middle.node id).changed = (store.node id).changed :=
      fun id => congrArg (fun view => view.label.changed) (hr.view id)
    rw [hsame] at hchanged ⊢
    refine hflags id ⟨hbefore, fun he => ?_, fun he => ?_⟩ above ?_ hchanged
    · exact hapart.1 (List.mem_append_left _ (he ▸ hmem))
    · exact hapart.2.2.2 id hmem document.eos (by simp) he
    · exact (congrArg Attributes.parent hr.attributes).symm.trans habove
  have hstill : scene.Still :=
    Setting.still_reachable hreach ⟨trivial, Forest.settled_append.mpr ⟨hsettled, trivial⟩⟩
  rcases hid with ⟨rfl | hbelow, hbos, heos⟩
  · exact hflag
  · have hmem := hplanted.below_iff.mp hbelow
    simp only [framed, Forest.ids, Forest.ids_append, List.mem_cons, List.mem_append, List.not_mem_nil, or_false] at hmem
    exact (Store.kept_append.mp hplanted.linked.kept.2).1.unflagged hstill.stack id
      ((hmem.resolve_left hbos).resolve_right heos)

end Document.Threaded

-- The nodes of the trees of documents.
def Store.Live (store : Store) (documents : List Document) (id : Nat) : Prop :=
  ∃ document ∈ documents, document.Bears store id

-- Whether one goes up from a node to another in the trees of documents, from each to the one
-- that it is embedded in.
def Store.Climbs (store : Store) (documents : List Document) : Nat → Nat → Prop :=
  Relation.ReflTransGen fun id above => (store.node id).above = some above ∧ store.Live documents above

-- Whether all that is on the way up from a node is flagged, and the node itself.
def Store.Reaches (store : Store) (documents : List Document) (edited : Nat) : Prop :=
  ∀ id, store.Climbs documents edited id → (store.node id).changed = true

-- Whether an edit leaves no document behind that is flagged for the version to come while
-- the one that it is embedded in is not. A parse that is accepted takes off flags, so that
-- the documents embedded in what it parses must have none that are as new.
def Edit.Inward (documents : List Document) (store : Store) : Edit → Prop
  | embed terminal _ => ∃ document ∈ documents, document.Bears store terminal
  | parse parser fuel document reparse =>
      (∃ parser' after, parser.parse fuel store document reparse = some (parser', after, .ok .accepted)) →
        ∀ inner ∈ documents, ∀ terminal, (store.node inner.root).host = some terminal → document.Has store terminal →
          ¬(store.node inner.root).Stamped store.nextVersion
  | _ => True

theorem Edit.run_parse {parser parser' : Parser} {fuel : Nat} {document : Document} {store after : Store} {reparse : Bool}
    {status : Except Fault ParseStatus} (h : parser.parse fuel store document reparse = some (parser', after, status)) :
    (parse parser fuel document reparse).run store = some after := by
  rw [run, h]
  rfl

-- What may become of documents that share one store, by edits, parses and commits, if all
-- that is embedded is parsed before what it is embedded in.
inductive Nested : List Document → Store → Prop where
  | empty : Nested [] .empty
  | edit {documents : List Document} {store after : Store} {edit : Edit} :
      Nested documents store → edit.Fits documents store → edit.Inward documents store → edit.run store = some after →
      Nested (edit.opened documents store) after
  | commit {documents : List Document} {store : Store} : Nested documents store → Nested documents store.commit

namespace Store

variable {store after placed : Store} {documents : List Document} {document : Document} {region : Document → Nat → Prop}
  {start id : Nat}

-- Documents that all exist, and in and between which flags go up.
structure Nests (documents : List Document) (store : Store) : Prop where
  houses : ∃ region, store.Houses documents region
  present : ∀ document ∈ documents, (store.node document.root).deleted = false
  hosted : ∀ document ∈ documents, ∀ terminal, (store.node document.root).host = some terminal → terminal < store.size
  raises : store.Raises (store.Live documents) fun _ => False

theorem Below.of_inside {inside : Nat → Prop} {root : Nat} (hb : after.Below root id) (hc : store.Closed inside)
    (hroot : inside root) (hsame : ∀ id, inside id → after.node id = store.node id) : store.Below root id := by
  induction hb with
  | child h => exact .child (hsame _ hroot ▸ h)
  | further _ h ih => exact .further ih (hsame _ (ih.within hc hroot) ▸ h)

section Houses

variable (hh : store.Houses documents region) (hp : ∀ document ∈ documents, (store.node document.root).deleted = false)

include hh

theorem Houses.region_of_has (hd : document ∈ documents) (hid : document.Has store id) : region document id :=
  hid.within (hh.owns document hd).closed (hh.owns document hd).within.root

theorem Houses.lt_of_live (hl : store.Live documents id) : id < store.size := by
  obtain ⟨document, hd, hhas, -⟩ := hl
  exact (hh.owns document hd).lt_size id (hh.region_of_has hd hhas)

include hp

theorem Houses.threaded (hd : document ∈ documents) : ∃ forest, document.Threaded store forest := by
  obtain ⟨forest, ht, -⟩ := (hh.owns document hd).alive (hp document hd)
  exact ⟨forest, ht⟩

-- What is above a node of a document is one of it, or beyond the root.
theorem Houses.above_of_bears (hd : document ∈ documents) (hb : document.Bears store id) :
    (∃ parent, (store.node id).parent = some parent ∧ document.Bears store parent) ∨
      id = document.root ∧ (store.node id).parent = none := by
  obtain ⟨forest, ht⟩ := hh.threaded hp hd
  rcases hb.1 with rfl | hbelow
  · exact Or.inr ⟨rfl, ht.parent⟩
  · exact Or.inl (ht.exists_parent hbelow)

theorem Houses.live_parent (hl : store.Live documents id) {parent : Nat} (hparent : (store.node id).parent = some parent) :
    store.Live documents parent := by
  obtain ⟨document, hd, hb⟩ := hl
  rcases hh.above_of_bears hp hd hb with ⟨above, habove, hbears⟩ | ⟨-, hnone⟩
  · obtain rfl := Option.some_inj.mp (hparent.symm.trans habove)
    exact ⟨document, hd, hbears⟩
  · cases hnone.symm.trans hparent

end Houses

namespace Nests

theorem above_lt (hn : store.Nests documents) (hl : store.Live documents id) {above : Nat}
    (habove : (store.node id).above = some above) : above < store.size := by
  obtain ⟨region, hh⟩ := hn.houses
  obtain ⟨document, hd, hb⟩ := hl
  rcases hh.above_of_bears hn.present hd hb with ⟨parent, hparent, hbears⟩ | ⟨rfl, hnone⟩
  · obtain rfl := Option.some_inj.mp (habove.symm.trans (above_of_parent hparent))
    exact hh.lt_of_live ⟨document, hd, hbears⟩
  · rw [Node.above, hnone] at habove
    exact hn.hosted document hd above habove

theorem live_of_renews (hrenews : ∀ document ∈ documents, document.Renews store after) (id : Nat)
    (hl : after.Live documents id) : store.Live documents id ∨ store.size ≤ id := by
  obtain ⟨document, hd, rfl | hbelow, hends⟩ := hl
  · exact Or.inl ⟨document, hd, Or.inl rfl, hends⟩
  · exact (hrenews document hd id hbelow).imp_left fun h => ⟨document, hd, Or.inr h, hends⟩

theorem host_lt_of_steady (hn : store.Nests documents) (hs : store.Steady placed) (hd : document ∈ documents) {terminal : Nat}
    (hhost : (placed.node document.root).host = some terminal) : terminal < placed.size := by
  obtain ⟨region, hh⟩ := hn.houses
  have hflags := hs.flags document.root (hh.owns document hd).root_lt
  rw [(Prod.mk.inj (Prod.mk.inj hflags).2).2] at hhost
  exact Nat.lt_of_lt_of_le (hn.hosted document hd terminal hhost) hs.size_le

-- A step that flags nothing in trees that there are.
theorem steady (hn : store.Nests documents) (hs : store.Steady after) (hh : after.Houses documents region)
    (hp : ∀ document ∈ documents, (after.node document.root).deleted = false)
    (hrenews : ∀ document ∈ documents, document.Renews store after) : after.Nests documents := by
  obtain ⟨former, hformer⟩ := hn.houses
  exact ⟨⟨region, hh⟩, hp, fun document hd terminal => hn.host_lt_of_steady hs hd,
    hn.raises.steady hs (live_of_renews hrenews) (fun id => hformer.lt_of_live) fun id hl above => hn.above_lt hl⟩

-- A step that flags nothing in trees that there are, and then all on a way up.
theorem raises_marked (hn : store.Nests documents) (hs : store.Steady placed)
    (hstill : (placed.markChanged start placed.nextVersion).Still after) (hh : after.Houses documents region)
    (hp : ∀ document ∈ documents, (after.node document.root).deleted = false)
    (hrenews : ∀ document ∈ documents, document.Renews store after) :
    (placed.markChanged start placed.nextVersion).Raises (after.Live documents) fun _ => False := by
  obtain ⟨former, hformer⟩ := hn.houses
  have hmarked : placed.Still after := (Evolves.refl.markChanged : placed.Evolves (fun _ => False) _).still.trans hstill
  have hraises : placed.Raises (after.Live documents) fun _ => False :=
    hn.raises.steady hs (live_of_renews hrenews) (fun id => hformer.lt_of_live) fun id hl above => hn.above_lt hl
  refine (hraises.excuse _).mark (fun id hl => hmarked.size ▸ hh.lt_of_live hl) fun id hl parent hparent => ?_
  exact hh.live_parent hp hl ((congrArg Attributes.parent (hmarked.node id).attributes).trans hparent)

theorem marked (hn : store.Nests documents) (hs : store.Steady placed)
    (hh : (placed.markChanged start placed.nextVersion).Houses documents region)
    (hp : ∀ document ∈ documents, ((placed.markChanged start placed.nextVersion).node document.root).deleted = false)
    (hrenews : ∀ document ∈ documents, document.Renews store (placed.markChanged start placed.nextVersion)) :
    (placed.markChanged start placed.nextVersion).Nests documents := by
  have hstill : (placed.markChanged start placed.nextVersion).Still (placed.markChanged start placed.nextVersion) :=
    (Evolves.refl : (placed.markChanged start placed.nextVersion).Evolves (fun _ => False) _).still
  refine ⟨⟨region, hh⟩, hp, fun document hd terminal hhost => ?_, hn.raises_marked hs hstill hh hp hrenews⟩
  rw [host_markChanged] at hhost
  rw [(Evolves.refl.markChanged : placed.Evolves (fun _ => False) _).still.size]
  exact hn.host_lt_of_steady hs hd hhost

theorem insert (hn : store.Nests documents) {anchor : Nat} {token : Token}
    (hh : (document.insertTokenAfter store anchor token).1.Houses documents region)
    (hp : ∀ other ∈ documents, ((document.insertTokenAfter store anchor token).1.node other.root).deleted = false)
    (hrenews : ∀ other ∈ documents, other.Renews store (document.insertTokenAfter store anchor token).1) :
    (document.insertTokenAfter store anchor token).1.Nests documents := by
  unfold Document.insertTokenAfter Document.allocateToken Store.allocate at hh hp hrenews ⊢
  dsimp only at hh hp hrenews ⊢
  cases h : document.insertLeafAfter (store.push (.new (Document.tokenContent token).1 (Document.tokenContent token).2.1
      (Document.tokenContent token).2.2)) anchor store.size with
  | error fault =>
      rw [h] at hh hp hrenews
      exact hn.steady steady_push hh hp hrenews
  | ok after =>
      rw [h] at hh hp hrenews
      obtain ⟨parent, placed, -, hplaced, rfl⟩ := Document.insertLeafAfter_spec h
      exact hn.marked (steady_insertAfter? hplaced) hh hp hrenews

theorem of_embed {terminal : Nat} {inner : Document}
    (hr : store.Raises ((Document.embed store terminal inner).Live documents) fun _ => False)
    (hhosted : ∀ document ∈ documents, ∀ above, (store.node document.root).host = some above → above < store.size)
    (hlt : terminal < store.size) (hh : (Document.embed store terminal inner).Houses documents region)
    (hp : ∀ document ∈ documents, ((Document.embed store terminal inner).node document.root).deleted = false) :
    (Document.embed store terminal inner).Nests documents := by
  have hstill : store.Still (Document.embed store terminal inner) := Document.embed_still
  have hparent : ∀ id, ((Document.embed store terminal inner).node id).parent = (store.node id).parent :=
    fun id => congrArg Attributes.parent (hstill.node id).attributes
  refine ⟨⟨region, hh⟩, hp, fun document hd above hhost => ?_, hr.embed (fun id hl => hstill.size ▸ hh.lt_of_live hl)
    (fun id hl parent hup => hh.live_parent hp hl ((hparent id).trans hup)) terminal inner⟩
  rw [hstill.size]
  rw [Document.embed, host_markChanged, host_setBox] at hhost
  split at hhost
  · exact Option.some_inj.mp hhost ▸ hlt
  · exact hhosted document hd above hhost

-- A box is put in and flagged, and flagged again as it is embedded.
theorem insertBox (hn : store.Nests documents) {anchor : Nat} {language : String} {inner : Document}
    (hh : (document.insertBoxAfter store anchor language inner).1.Houses documents region)
    (hp : ∀ other ∈ documents, ((document.insertBoxAfter store anchor language inner).1.node other.root).deleted = false)
    (hrenews : ∀ other ∈ documents, other.Renews store (document.insertBoxAfter store anchor language inner).1) :
    (document.insertBoxAfter store anchor language inner).1.Nests documents := by
  unfold Document.insertBoxAfter Store.allocate at hh hp hrenews ⊢
  dsimp only at hh hp hrenews ⊢
  cases h : document.insertLeafAfter (store.push (.new (.magic language) none "")) anchor store.size with
  | error fault =>
      rw [h] at hh hp hrenews
      exact hn.steady steady_push hh hp hrenews
  | ok after =>
      rw [h] at hh hp hrenews
      obtain ⟨parent, placed, -, hplaced, rfl⟩ := Document.insertLeafAfter_spec h
      have hs := steady_insertAfter? hplaced
      have hmarked : placed.Evolves (fun _ => False) (placed.markChanged store.size placed.nextVersion) :=
        Evolves.refl.markChanged
      refine of_embed (hn.raises_marked hs Document.embed_still hh hp hrenews) (fun other hother above hhost => ?_) ?_ hh hp
      · rw [host_markChanged] at hhost
        exact hmarked.still.size.symm ▸ hn.host_lt_of_steady hs hother hhost
      · have he := (Evolves.refl : (store.push (.new (.magic language) none "")).Evolves (fun _ => True) _).insertAfter?
          (closed_all _) trivial trivial trivial hplaced
        have hsize := he.size_le
        rw [size_push] at hsize
        rw [hmarked.still.size]
        exact hsize

theorem embed (hn : store.Nests documents) {terminal : Nat} {inner : Document} (hlt : terminal < store.size)
    (hh : (Document.embed store terminal inner).Houses documents region)
    (hp : ∀ document ∈ documents, ((Document.embed store terminal inner).node document.root).deleted = false) :
    (Document.embed store terminal inner).Nests documents := by
  have hstill : store.Still (Document.embed store terminal inner) := Document.embed_still
  refine of_embed (hn.raises.mono fun id hl => ?_) hn.hosted hlt hh hp
  obtain ⟨document, hd, hhas, hends⟩ := hl
  exact ⟨document, hd, hhas.imp_right fun h => h.of_attributes fun id => (hstill.node id).attributes, hends⟩

theorem remove (hn : store.Nests documents) {node : Nat} (h : document.removeToken store node = .ok after)
    (hh : after.Houses documents region) (hp : ∀ other ∈ documents, (after.node other.root).deleted = false)
    (hrenews : ∀ other ∈ documents, other.Renews store after) : after.Nests documents := by
  obtain ⟨parent, placed, -, hplaced, rfl⟩ := Document.removeToken_spec h
  exact hn.marked (steady_removeChild? hplaced) hh hp hrenews

theorem replace (hn : store.Nests documents) {node : Nat} {rule : Option String} {text : String}
    (hh : (Document.replaceToken store node rule text).Houses documents region)
    (hp : ∀ other ∈ documents, ((Document.replaceToken store node rule text).node other.root).deleted = false)
    (hrenews : ∀ other ∈ documents, other.Renews store (Document.replaceToken store node rule text)) :
    (Document.replaceToken store node rule text).Nests documents :=
  hn.marked steady_setToken hh hp hrenews

-- A new document is flagged, and embedded nowhere.
theorem create (hn : store.Nests documents) (tokens : List Token) :
    (Document.ofTokens store tokens).1.Nests ((Document.ofTokens store tokens).2 :: documents) := by
  obtain ⟨former, hformer⟩ := hn.houses
  obtain ⟨⟨region, hh⟩, hothers⟩ := hformer.create tokens
  have hleaf := @Document.symbol_tokenContents tokens
  obtain ⟨-, ids, ⟨linked, -, hids, -⟩, hnew, -⟩ := Document.owns_ofLeaves hformer.logged hleaf
  change (Document.ofTokens store tokens).2.Owns (Document.ofTokens store tokens).1 _ at hnew
  have hs : store.Steady (Document.ofTokens store tokens).1 :=
    Document.steady_ofLeaves fun content hcontent => (hleaf content hcontent).1
  have hdeleted : ∀ id, ((Document.ofTokens store tokens).1.node id).deleted = (store.node id).deleted :=
    fun _ => Document.deleted_ofLeaves
  have hroot := (hids _ hnew.within.root).1
  refine ⟨⟨region, hh⟩, List.forall_mem_cons.mpr ⟨?_, fun document hd => ?_⟩, List.forall_mem_cons.mpr ⟨fun terminal hhost => ?_,
    fun document hd terminal => hn.host_lt_of_steady hs hd⟩, ?_⟩
  · rw [hdeleted, node_of_size_le hroot]
    rfl
  · rw [hdeleted]
    exact hn.present document hd
  · cases (hs.fresh _ hroot).1.symm.trans hhost
  · refine hn.raises.steady hs (fun id hl => ?_) (fun id => hformer.lt_of_live) fun id hl above => hn.above_lt hl
    obtain ⟨document, hd, hb⟩ := hl
    rcases List.mem_cons.mp hd with rfl | hd
    · exact Or.inr (hids id (hb.1.within hnew.closed hnew.within.root)).1
    · exact live_of_renews (fun document hd => (hothers document hd (hn.present document hd)).2) id ⟨document, hd, hb⟩

theorem commit (hn : store.Nests documents) : store.commit.Nests documents := by
  obtain ⟨region, hh⟩ := hn.houses
  have hcommit : ∀ id, (store.commit.node id).toAttributes = (store.node id).toAttributes ∧
      (store.commit.node id).deleted = (store.node id).deleted ∧ (store.commit.node id).flags = (store.node id).flags :=
    fun id => by
      rw [node_commit]
      exact ⟨Node.commit_spec.1, Node.commit_spec.2.1, Node.flags_commit⟩
  have hlive : ∀ id, store.commit.Live documents id → store.Live documents id := by
    rintro id ⟨document, hd, hhas, hends⟩
    exact ⟨document, hd, hhas.imp_right fun h => h.of_attributes fun id => (hcommit id).1, hends⟩
  have hparent : ∀ id, (store.commit.node id).parent = (store.node id).parent := fun id =>
    congrArg Attributes.parent (hcommit id).1
  have hflags := fun id => Prod.mk.inj (hcommit id).2.2
  have hversion : ∀ id, (store.commit.node id).version = (store.node id).version := fun id => (Prod.mk.inj (hflags id).2).1
  refine ⟨⟨region, hh.commit⟩, fun document hd => (hcommit _).2.1.trans (hn.present document hd), fun document hd terminal hhost => ?_,
    fun id hl hchanged => ?_, fun id hl parent hup hchanged => ?_, fun id hl above hup habove hs => ?_⟩
  · rw [(Prod.mk.inj (hflags _).2).2] at hhost
    rw [size_commit]
    exact hn.hosted document hd terminal hhost
  · rw [(hflags id).1] at hchanged
    rw [hversion, Store.nextVersion, Store.version_commit]
    exact Nat.le_succ_of_le (hn.raises.version_le id (hlive id hl) hchanged)
  · rw [hparent] at hup
    rw [(hflags _).1] at hchanged ⊢
    exact hn.raises.changed id (hlive id hl) parent hup hchanged
  · -- no flag is as new as the version to come
    have hle := hn.raises.version_le id (hlive id hl) ((hflags id).1.symm.trans hs.1)
    have hat := hs.2
    rw [hversion, Store.nextVersion, Store.version_commit] at hat
    rw [Store.nextVersion] at hle
    omega

-- An accepted parse takes the flags off its document and does nothing to others.
theorem parse (hn : store.Nests documents) {parser parser' : Parser} {fuel : Nat} {reparse : Bool}
    {status : Except Fault ParseStatus} (hf : (Edit.parse parser fuel document reparse).Fits documents store)
    (hi : (Edit.parse parser fuel document reparse).Inward documents store)
    (h : parser.parse fuel store document reparse = some (parser', after, status)) (hh : after.Houses documents region)
    (hp : ∀ other ∈ documents, (after.node other.root).deleted = false)
    (hrenews : ∀ other ∈ documents, other.Renews store after) : after.Nests documents := by
  obtain ⟨hd, hb⟩ := hf
  obtain ⟨former, hformer⟩ := hn.houses
  have howns := hformer.owns document hd
  rcases Parser.parse_remarks howns.closed howns.within h with ⟨rfl, -⟩ | ⟨-, hr⟩
  · obtain ⟨forest, ht⟩ := hformer.threaded hn.present hd
    have hunflagged : ∀ id, document.Bears after id → (after.node id).changed = false := fun id =>
      ht.unflagged_of_accepted hb (fun id hb parent => hn.raises.changed id ⟨document, hd, hb⟩ parent) h
    have hversion : after.nextVersion = store.nextVersion :=
      congrArg (· + 1) (Steps.version_eq (howns.parse hformer.logged hb h).1)
    have hsame : ∀ other ∈ documents, other ≠ document → ∀ id, former other id → after.node id = store.node id :=
      fun other hother hne id hid => Parser.parse_node_eq howns.closed howns.within h
        ((hformer.owns other hother).lt_size id hid) fun hwithin => hformer.apart other hother document hd hne id hid hwithin
    have hbefore : ∀ other ∈ documents, other ≠ document → ∀ id, other.Bears after id → other.Bears store id ∧ former other id :=
      fun other hother hne id hb => by
        have ho := hformer.owns other hother
        have hhas : other.Has store id := hb.1.imp_right fun hbelow =>
          hbelow.of_inside ho.closed ho.within.root (hsame other hother hne)
        exact ⟨⟨hhas, hb.2⟩, hformer.region_of_has hother hhas⟩
    have hsize : store.size ≤ after.size := (Steps.remembers (howns.parse hformer.logged hb h).1).size_le
    refine ⟨⟨region, hh⟩, hp, fun other hother terminal hhosted => ?_, fun id hl hchanged => ?_,
      fun id hl parent hup hchanged => ?_, fun id hl above hup habove hs => Or.inl ?_⟩
    · have hbefore : (store.node other.root).host = some terminal :=
        (Parser.host_parse h (hformer.owns other hother).root_lt).symm.trans hhosted
      exact Nat.lt_of_lt_of_le (hn.hosted other hother terminal hbefore) hsize
    · obtain ⟨other, hother, hb⟩ := hl
      by_cases hne : other = document
      · cases hchanged.symm.trans (hunflagged id (hne ▸ hb))
      · obtain ⟨hb, hid⟩ := hbefore other hother hne id hb
        rw [hsame other hother hne id hid] at hchanged ⊢
        exact hversion ▸ hn.raises.version_le id ⟨other, hother, hb⟩ hchanged
    · obtain ⟨other, hother, hb⟩ := hl
      by_cases hne : other = document
      · cases hchanged.symm.trans (hunflagged id (hne ▸ hb))
      · obtain ⟨hb, hid⟩ := hbefore other hother hne id hb
        rw [hsame other hother hne id hid] at hup hchanged
        obtain ⟨parent', hparent, hbears⟩ := ((hformer.above_of_bears hn.present hother hb).resolve_right fun h => by
          cases hup.symm.trans h.2)
        obtain rfl := Option.some_inj.mp (hup.symm.trans hparent)
        rw [hsame other hother hne parent (hformer.region_of_has hother hbears.1)]
        exact hn.raises.changed id ⟨other, hother, hb⟩ parent hup hchanged
    · obtain ⟨other, hother, hb⟩ := hl
      by_cases hne : other = document
      · cases hs.1.symm.trans (hunflagged id (hne ▸ hb))
      · obtain ⟨hb, hid⟩ := hbefore other hother hne id hb
        rw [hsame other hother hne id hid] at hup hs
        rw [hversion] at hs ⊢
        obtain ⟨third, hthird, hbears⟩ := habove
        by_cases he : third = document
        · -- what is embedded in the document was not flagged for the version to come
          subst he
          have hhas : third.Has store above := hbears.1.imp_right fun hbelow =>
            (hrenews third hd above hbelow).resolve_right (Nat.not_le.mpr (hn.above_lt ⟨other, hother, hb⟩ hup))
          rcases hformer.above_of_bears hn.present hother hb with ⟨parent, hparent, hparentbears⟩ | ⟨rfl, hnone⟩
          · obtain rfl : parent = above := Option.some_inj.mp ((above_of_parent hparent).symm.trans hup)
            exact absurd (hformer.region_of_has hd hhas)
              (hformer.apart other hother third hd hne parent (hformer.region_of_has hother hparentbears.1))
          · rw [Node.above, hnone] at hup
            exact absurd hs (hi ⟨parser', after, h⟩ other hother above hup hhas)
        · obtain ⟨hbears, hwithin⟩ := hbefore third hthird he above hbears
          rw [hsame third hthird he above hwithin]
          exact (hn.raises.stamped id ⟨other, hother, hb⟩ above hup ⟨third, hthird, hbears⟩ hs).resolve_right not_false
  · exact hn.steady (steady_remarked hr) hh hp hrenews

theorem run (hn : store.Nests documents) {edit : Edit} (hf : edit.Fits documents store) (hi : edit.Inward documents store)
    (h : edit.run store = some after) : after.Nests (edit.opened documents store) := by
  obtain ⟨region, hformer⟩ := hn.houses
  obtain ⟨⟨region', hh⟩, heffect⟩ := Edit.run_houses hformer hf h
  have hrenews : ∀ document ∈ documents, document.Renews store after :=
    fun document hd => (heffect document hd (hn.present document hd)).2
  have hpresent : (∀ tokens, edit ≠ .create tokens) → ∀ document ∈ documents, (after.node document.root).deleted = false :=
    fun hne document hd => by
      rw [Edit.opened_of_ne_create hne] at hh
      rw [(hh.owns document hd).existed, (Edit.run_unrecorded hne h).history, (Edit.run_unrecorded hne h).version,
        ← (hformer.owns document hd).existed]
      exact hn.present document hd
  cases edit with
  | create tokens =>
      obtain rfl := Option.some_inj.mp h
      exact hn.create tokens
  | insert document anchor token =>
      obtain rfl := Option.some_inj.mp h
      exact hn.insert hh (hpresent (by simp)) hrenews
  | insertBox document anchor language inner =>
      obtain rfl := Option.some_inj.mp h
      exact hn.insertBox hh (hpresent (by simp)) hrenews
  | embed terminal inner =>
      obtain rfl := Option.some_inj.mp h
      obtain ⟨document, hd, hhas, -⟩ := hi
      exact hn.embed ((hformer.owns document hd).lt_size terminal (hformer.region_of_has hd hhas)) hh (hpresent (by simp))
  | remove document node =>
      rw [Edit.run] at h
      cases hremove : document.removeToken store node with
      | error fault =>
          rw [hremove] at h
          obtain rfl := Option.some_inj.mp h
          exact hn
      | ok removed =>
          rw [hremove] at h
          obtain rfl := Option.some_inj.mp h
          exact hn.remove hremove hh (hpresent (by simp)) hrenews
  | replace node rule text =>
      obtain rfl := Option.some_inj.mp h
      exact hn.replace hh (hpresent (by simp)) hrenews
  | parse parser fuel document reparse =>
      obtain ⟨⟨parser', last, status⟩, hp, rfl⟩ := Option.map_eq_some_iff.mp h
      exact hn.parse hf hi hp hh (hpresent (by simp)) hrenews

-- Flags go on up from one for the version to come.
theorem reaches (hn : store.Nests documents) (hl : store.Live documents id) (hs : (store.node id).Stamped store.nextVersion) :
    store.Reaches documents id := by
  intro above hclimbs
  suffices h : store.Live documents above ∧ (store.node above).Stamped store.nextVersion from h.2.1
  induction hclimbs with
  | refl => exact ⟨hl, hs⟩
  | @tail id above _ hstep ih =>
      exact ⟨hstep.2, (hn.raises.stamped id ih.1 above hstep.1 hstep.2 ih.2).resolve_right not_false⟩

theorem live_of_leaf (hn : store.Nests documents) (hd : document ∈ documents)
    (hid : id ∈ (document.sequence store).map Prod.fst) (hbos : id ≠ document.bos) (heos : id ≠ document.eos) :
    store.Live documents id := by
  obtain ⟨region, hh⟩ := hn.houses
  obtain ⟨forest, ht⟩ := hh.threaded hn.present hd
  rw [Document.map_fst_sequence] at hid
  exact ⟨document, hd, Or.inr (ht.below_of_mem_leaves hid).1, hbos, heos⟩

end Nests

end Store

-- Edits that are made are made within the tree.
theorem Document.Threaded.fits_insert {document : Document} {store after : Store} {forest : Forest}
    {documents : List Document} {anchor new : Nat} {token : Token} (ht : document.Threaded store forest)
    (hd : document ∈ documents) (hanchor : document.Has store anchor)
    (h : document.insertTokenAfter store anchor token = (after, .ok new)) :
    (Edit.insert document anchor token).Fits documents store := by
  have hroot := ht.root_lt
  have hparent : (store.node document.root).parent = none := ht.parent
  unfold Document.insertTokenAfter Document.allocateToken Store.allocate at h
  dsimp only at h
  cases hinsert : document.insertLeafAfter (store.push (.new (Document.tokenContent token).1 (Document.tokenContent token).2.1
      (Document.tokenContent token).2.2)) anchor store.size with
  | error fault =>
      rw [hinsert] at h
      cases h
  | ok last =>
      obtain ⟨parent, -, habove, -⟩ := Document.insertLeafAfter_spec hinsert
      unfold Document.insertLeafAfter at hinsert
      split at hinsert
      · cases hinsert
      · rename_i heos
        rcases hanchor with rfl | hbelow
        · rw [Store.node_push, if_neg (Nat.ne_of_lt hroot), hparent] at habove
          cases habove
        · exact ⟨hd, hbelow, heos⟩

theorem Document.Threaded.fits_remove {document : Document} {store after : Store} {forest : Forest}
    {documents : List Document} {node : Nat} (ht : document.Threaded store forest) (hd : document ∈ documents)
    (hnode : document.Has store node) (h : document.removeToken store node = .ok after) :
    (Edit.remove document node).Fits documents store := by
  have hparent : (store.node document.root).parent = none := ht.parent
  unfold Document.removeToken at h
  split at h
  · cases h
  · rename_i hends
    obtain ⟨hbos, heos⟩ := not_or.mp hends
    rcases hnode with rfl | hbelow
    · rw [hparent] at h
      cases h
    · exact ⟨hd, hbelow, fun he => (List.nodup_cons.mp ht.nodup).1 (he ▸ ht.mem_of_below hbelow), hbos, heos⟩

-- What was above a node that is taken out stays in the tree.
theorem Document.Threaded.bears_parent {document : Document} {store after : Store} {forest : Forest} {node parent : Nat}
    (ht : document.Threaded store forest) (hnode : document.Has store node) (h : document.removeToken store node = .ok after)
    (hparent : (store.node node).parent = some parent) : document.Bears after parent := by
  obtain ⟨-, hbelow, -, hbos, heos⟩ := ht.fits_remove (List.mem_singleton_self document) hnode h
  obtain ⟨above, placed, habove, hplaced, rfl⟩ := removeToken_spec h
  obtain rfl := Option.some_inj.mp (habove.symm.trans hparent)
  obtain ⟨former, hformer, hbears⟩ := ht.exists_parent hbelow
  obtain rfl := Option.some_inj.mp (hformer.symm.trans hparent)
  obtain ⟨gap, tree, rfl, rfl, -⟩ := ht.frames.exists_gap (ht.mem_of_below hbelow) hbos heos
  have hp := ht.toPlanted
  obtain rfl : former = gap.parent document.root := Option.some_inj.mp (hparent.symm.trans hp.place.1)
  obtain ⟨result, hresult, -, -, hplanted, -⟩ := hp.remove
  obtain rfl := Option.some_inj.mp (hplaced.symm.trans hresult)
  have hhas : document.Has placed (gap.parent document.root) := by
    rcases List.mem_cons.mp (Gap.row_subset_gap List.mem_cons_self) with hroot | hmem
    · exact Or.inl hroot
    · exact Or.inr (hplanted.below_iff.mpr (Gap.ids_fill.mem_iff.mpr (List.mem_append_right _ hmem)))
  have hmarked : placed.Still (placed.markChanged (gap.parent document.root) placed.nextVersion) :=
    (Store.Evolves.refl.markChanged : placed.Evolves (fun _ => False) _).still
  exact ⟨hhas.imp_right fun hb => hb.of_attributes fun id => (hmarked.node id).attributes.symm, hbears.2⟩

namespace Nested

variable {documents : List Document} {store : Store}

theorem nests (hn : Nested documents store) : store.Nests documents := by
  induction hn with
  | empty =>
      exact ⟨⟨fun _ _ => False, Store.logged_empty, nofun, nofun⟩, nofun, nofun, ⟨by simp [Store.Live], by simp [Store.Live],
        by simp [Store.Live]⟩⟩
  | edit _ hf hi hrun ih => exact ih.run hf hi hrun
  | commit _ ih => exact ih.commit

-- Right after an edit all nodes on the way up from it are flagged, also those of documents
-- that its own is embedded in.
theorem edits_reach (hn : Nested documents store) {document : Document} (hd : document ∈ documents) :
    (∀ anchor token after new, document.Has store anchor → document.insertTokenAfter store anchor token = (after, .ok new) →
        after.Reaches documents new) ∧
      (∀ node after, document.Has store node → document.removeToken store node = .ok after →
        ∃ parent, (store.node node).parent = some parent ∧ after.Reaches documents parent) ∧
      ∀ node rule text, node ∈ document.tokens store →
        (Document.replaceToken store node rule text).Reaches documents node := by
  have hnests := hn.nests
  obtain ⟨region, hh⟩ := hnests.houses
  obtain ⟨forest, ht⟩ := hh.threaded hnests.present hd
  have howns := hh.owns document hd
  have hself : ∀ {edit : Edit} {after : Store} {edited : Nat}, (∀ tokens, edit ≠ .create tokens) →
      edit.run store = some after → store.Stamps after edited → edited < after.size →
      (after.node edited).Stamped after.nextVersion := fun {edit after edited} hne hrun hstamps hlt => by
    have hversion : after.nextVersion = store.nextVersion := congrArg (· + 1) (Edit.run_unrecorded hne hrun).version
    exact hversion ▸ hstamps edited .refl hlt
  refine ⟨fun anchor token after new hanchor h => ?_, fun node after hnode h => ?_, fun node rule text hmem => ?_⟩
  · obtain ⟨last, hlast⟩ : ∃ last, (document.insertTokenAfter store anchor token).2 = .ok last := ⟨new, by rw [h]⟩
    have hf : (Edit.insert document anchor token).Fits documents store := ht.fits_insert hd hanchor h
    have hrun : (Edit.insert document anchor token).run store = some after := congrArg (some ∘ Prod.fst) h
    have hafter : after.Nests documents := hnests.run hf trivial hrun
    have heffect := ((Edit.run_houses hh hf hrun).2 document hd (hnests.present document hd)).1
    rw [Edit.Effect, if_pos rfl, h] at heffect
    obtain ⟨hnew, front, back, -, hsequence, -⟩ := heffect
    obtain rfl : new = store.size := Except.ok.inj hnew
    have hlive : after.Live documents store.size := by
      refine hafter.live_of_leaf hd ?_ (Nat.ne_of_gt (howns.lt_size _ howns.within.bos))
        (Nat.ne_of_gt (howns.lt_size _ howns.within.eos))
      rw [hsequence]
      simp
    obtain ⟨region', hhafter⟩ := hafter.houses
    exact hafter.reaches hlive (@hself (.insert document anchor token) _ _ (by simp) hrun
      (Document.stamps_insertTokenAfter h) (hhafter.lt_of_live hlive))
  · obtain ⟨parent, hparent, hstamps⟩ := Document.stamps_removeToken h
    have hrun : (Edit.remove document node).run store = some after := by rw [Edit.run, h]
    have hafter : after.Nests documents := hnests.run (ht.fits_remove hd hnode h) trivial hrun
    obtain ⟨region', hhafter⟩ := hafter.houses
    have hlive : after.Live documents parent := ⟨document, hd, ht.bears_parent hnode h hparent⟩
    exact ⟨parent, hparent, hafter.reaches hlive
      (@hself (.remove document node) _ _ (by simp) hrun hstamps (hhafter.lt_of_live hlive))⟩
  · have hf : (Edit.replace node rule text).Fits documents store := ⟨document, hd, hmem⟩
    have hafter : (Document.replaceToken store node rule text).Nests documents := hnests.run hf trivial rfl
    have heffect := ((Edit.run_houses hh hf rfl).2 document hd (hnests.present document hd)).1
    rw [Edit.Effect, if_pos hmem] at heffect
    obtain ⟨front, label, back, -, hsequence⟩ := heffect
    obtain ⟨-, hends⟩ := ht.mem_tokens hmem
    have hlive : (Document.replaceToken store node rule text).Live documents node := by
      refine hafter.live_of_leaf hd ?_ hends.1 hends.2
      rw [hsequence]
      simp
    obtain ⟨region', hhafter⟩ := hafter.houses
    exact hafter.reaches hlive (@hself (.replace node rule text) _ _ (by simp) rfl
      Document.stamps_replaceToken (hhafter.lt_of_live hlive))

end Nested

-- A word of which a part may be embedded, or another word.
def Declarations.boxed : Declarations := {
  start := none
  rules := [("S", ⟨[.terminal "x", .magic "l"], none, none⟩), ("S", ⟨[.terminal "a"], none, none⟩)]
  precedences := [] }

def Rules.boxed : Rules := {
  symbols := #[.finish, .epsilon, .nonterminal "S", .terminal "x", .magic "l", .terminal "a"]
  productions := #[⟨none, [2], none, none⟩, ⟨some 2, [3, 4], none, none⟩, ⟨some 2, [5], none, none⟩]
  start := 2
  precedences := Array.replicate 6 none }

theorem built_boxed : Rules.boxed.toGrammar.Built :=
  .declared (show Declarations.boxed.build = .ok Rules.boxed.toGrammar from rfl)

def Parser.boxed : Parser := .ofTable (.ofGrammar Rules.boxed.toGrammar .lr1) [] true false

-- What is embedded is edited, both documents are parsed, and it is edited again before a
-- commit. The root of the other document, 3, is flagged for the same version once more.
theorem Nested.edits_reach_parsed :
    ∃ store, Nested [Document.inner, Document.outer] store ∧ 6 ∈ Document.inner.tokens store ∧
      (store.node 3).version = store.nextVersion ∧ (store.node 3).changed = false ∧
      (Document.replaceToken store 6 none "a").Climbs [Document.inner, Document.outer] 6 3 ∧
      ((Document.replaceToken store 6 none "a").node 3).changed = true := by
  have hsteps : ((Edit.insertBox Document.outer 2 "l" Document.inner).run
      (Document.ofTokens (Document.ofTokens .empty [.matched none "x" 0 1]).1 [.matched none "a" 0 1]).1).bind (fun boxed =>
    (Parser.boxed.parse 100 (Document.replaceToken boxed.commit 6 none "a") Document.inner false).bind fun first =>
    (Parser.boxed.parse 100 first.2.1 Document.outer false).map fun second =>
      ([Document.inner.tokens boxed.commit, Document.inner.tokens second.2.1] ++
          [4, 5, 6, 7].map (fun id => ((Document.replaceToken boxed.commit 6 none "a").node id).children) ++
          [7, 3, 10].map fun id => ((Document.replaceToken second.2.1 6 none "a").node id).children,
        [((Document.replaceToken boxed.commit 6 none "a").node 3).host,
          ((Document.replaceToken boxed.commit 6 none "a").node 7).host, (first.2.1.node 3).host] ++
          [6, 9, 7, 8, 10].map fun id => ((Document.replaceToken second.2.1 6 none "a").node id).above,
        ((first.2.1.node 7).changed, (second.2.1.node 3).changed), (second.2.1.node 3).version, second.2.1.version)) =
      some ([[6], [6], [], [], [], [4, 6, 5], [4, 9, 5], [0, 10, 1], [2, 8]],
        [none, some 8, none, some 9, some 7, some 8, some 10, some 3], (false, false), 2, 1) := by
    decide +kernel
  obtain ⟨boxed, hinsert, hrest⟩ := Option.bind_eq_some_iff.mp hsteps
  obtain ⟨⟨parser', first, firstStatus⟩, hfirst, hrest⟩ := Option.bind_eq_some_iff.mp hrest
  obtain ⟨⟨parser'', second, secondStatus⟩, hsecond, hresult⟩ := Option.map_eq_some_iff.mp hrest
  simp only [List.map_cons, List.map_nil, List.cons_append, List.nil_append, List.cons.injEq, Prod.mk.injEq, and_true] at hresult
  obtain ⟨⟨htokens, hlast, hbos, heos, hleaf, hroot, hinner, houter, hparts⟩,
    ⟨hhost, hbox, hhostfirst, hleafabove, hinnerabove, hrootabove, hboxabove, houterabove⟩, ⟨hparsed, hclear⟩, hversion, hat⟩ := hresult
  have hinnermem : Document.inner ∈ [Document.inner, Document.outer] := List.mem_cons_self
  have houtermem : Document.outer ∈ [Document.inner, Document.outer] := List.mem_cons_of_mem _ List.mem_cons_self
  have hbuilt : Parser.boxed.IsBuilt := ⟨_, _, built_boxed, rfl⟩
  have hopened : Nested [Document.inner, Document.outer] _ := @Nested.edit _ _ _ (.create [.matched none "a" 0 1])
    (@Nested.edit _ _ _ (.create [.matched none "x" 0 1]) .empty trivial trivial rfl) trivial trivial rfl
  have hboxed := (@Nested.edit _ _ _ (.insertBox Document.outer 2 "l" Document.inner) hopened
    ⟨houtermem, .child (by decide), by decide⟩ trivial hinsert).commit
  have hedited := @Nested.edit _ _ _ (.replace 6 none "a") hboxed ⟨Document.inner, hinnermem, by simp [htokens]⟩ trivial rfl
  have hwithin : ∀ id, Document.inner.Has (Document.replaceToken boxed.commit 6 none "a") id → id ∈ [4, 5, 6, 7] := by
    have hchildren : ∀ id ∈ [4, 5, 6, 7], ∀ child ∈ ((Document.replaceToken boxed.commit 6 none "a").node id).children,
        child ∈ [4, 5, 6, 7] := by
      simp [hbos, heos, hleaf, hroot]
    rintro id (rfl | hid)
    · decide
    · induction hid with
      | child h => exact hchildren _ (by decide) _ h
      | further _ h ih => exact hchildren _ ih _ h
  have hinward : (Edit.parse Parser.boxed 100 Document.inner false).Inward [Document.inner, Document.outer]
      (Document.replaceToken boxed.commit 6 none "a") := by
    intro _ document hd terminal hterminal hhas
    rcases List.mem_cons.mp hd with rfl | hd
    · obtain rfl : 8 = terminal := Option.some_inj.mp (hbox.symm.trans hterminal)
      exact absurd (hwithin 8 hhas) (by decide)
    · obtain rfl := List.mem_singleton.mp hd
      cases hhost.symm.trans hterminal
  have hfirstNested := @Nested.edit _ _ first (.parse Parser.boxed 100 Document.inner false) hedited ⟨hinnermem, hbuilt⟩
    hinward (Edit.run_parse hfirst)
  have houtward : (Edit.parse Parser.boxed 100 Document.outer false).Inward [Document.inner, Document.outer] first := by
    intro _ document hd terminal hterminal _ hs
    rcases List.mem_cons.mp hd with rfl | hd
    · cases hparsed.symm.trans hs.1
    · obtain rfl := List.mem_singleton.mp hd
      cases hhostfirst.symm.trans hterminal
  have hnested := @Nested.edit _ _ second (.parse Parser.boxed 100 Document.outer false) hfirstNested ⟨houtermem, hbuilt⟩
    houtward (Edit.run_parse hsecond)
  have hedit : 6 ∈ Document.inner.tokens second := by simp [hlast]
  have hword : (Document.replaceToken second 6 none "a").Below 3 10 := .child (by simp [houter])
  have hclimbs : (Document.replaceToken second 6 none "a").Climbs [Document.inner, Document.outer] 6 3 := by
    have hbelow : 9 ∈ ((Document.replaceToken second 6 none "a").node 7).children := by simp [hinner]
    have hpart : 8 ∈ ((Document.replaceToken second 6 none "a").node 10).children := by simp [hparts]
    exact (((((Relation.ReflTransGen.refl).tail ⟨hleafabove, Document.inner, hinnermem, Or.inr (.child hbelow), by decide, by decide⟩).tail
      ⟨hinnerabove, Document.inner, hinnermem, Or.inl rfl, by decide, by decide⟩).tail
      ⟨hrootabove, Document.outer, houtermem, Or.inr (.further hword hpart), by decide, by decide⟩).tail
      ⟨hboxabove, Document.outer, houtermem, Or.inr hword, by decide, by decide⟩).tail
      ⟨houterabove, Document.outer, houtermem, Or.inl rfl, by decide, by decide⟩
  have hreaches := (Nested.edits_reach hnested hinnermem).2.2 6 none "a" hedit
  exact ⟨second, hnested, hedit, by rw [hversion, Store.nextVersion, hat], hclear, hclimbs, hreaches 3 hclimbs⟩

end IncrementalLR
