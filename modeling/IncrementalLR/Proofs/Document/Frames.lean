import IncrementalLR.Proofs.Document.Timeline
import IncrementalLR.Proofs.Tree.Rising

namespace IncrementalLR

namespace Store

variable {store other : Store} {inside : Nat → Prop} {id parent : Nat} {children : List Nat}

theorem not_withNew (hlt : id < store.size) (hid : ¬inside id) : ¬store.WithNew other inside id :=
  fun h => h.elim hid fun h => Nat.not_lt.mpr h.1 hlt

theorem Remarked.node_eq (hr : store.Remarked inside other) (hid : ¬inside id) : other.node id = store.node id := by
  have hpending := (hr.pending id).resolve_right fun h => hid h.1
  have hrest := hr.unmarked id
  calc other.node id = { (other.node id).unmarked with pending := (other.node id).pending } := rfl
    _ = { (store.node id).unmarked with pending := (store.node id).pending } := by rw [hrest, hpending]
    _ = store.node id := rfl

theorem node_setChildren (hparent : id ≠ parent) (hchildren : id ∉ children) :
    (store.setChildren parent children).node id = store.node id := by
  rw [setChildren, revise, node_update_ne _ hparent, node_linkChildren hchildren (Option.some_ne_none id).symm]

end Store

section Parse

variable {inside : Nat → Prop} {store after : Store} {setting : Setting} {run : Run} {fuel floor id : Nat}

-- What is undone are changes of certain nodes, so that others cannot have changed.
theorem Traces.node_eq (ht : Traces inside store floor run) (hlt : id < store.size) (hid : ¬inside id) :
    run.store.node id = store.node id := by
  have hundone : (Change.undoAll run.changes run.store).node id = run.store.node id :=
    Change.node_undoAll fun change hchange he => hid (he ▸ ht.changes change hchange)
  have hpending := ((ht.evolves.node hlt).resolve_right fun h => hid h.1).pending
  have hrest := hundone ▸ ht.undone.node id hlt
  calc run.store.node id = { (run.store.node id).unmarked with pending := (run.store.node id).pending } := rfl
    _ = { (store.node id).unmarked with pending := (store.node id).pending } := by rw [hrest, hpending]
    _ = store.node id := rfl

theorem Traces.node_accept (ht : Traces inside store floor run) (hends : setting.document.Within inside)
    (hlt : id < store.size) (hid : ¬inside id) : (setting.accept run).store.node id = store.node id := by
  have hroot : id ≠ setting.document.root := fun he => hid (he ▸ hends.root)
  have hchildren : id ∉ setting.document.bos :: (run.stack.nodes ++ [setting.document.eos]) := by
    intro h
    rcases List.mem_cons.mp h with rfl | h
    · exact hid hends.bos
    · rcases List.mem_append.mp h with h | h
      · obtain ⟨frame, hframe, hnode⟩ := List.mem_flatMap.mp h
        exact hid (ht.stack frame (List.mem_reverse.mp hframe) id hnode)
      · exact hid (List.mem_singleton.mp h ▸ hends.eos)
  calc (setting.accept run).store.node id
      = (run.store.setChildren setting.document.root
          (setting.document.bos :: (run.stack.nodes ++ [setting.document.eos]))).node id :=
        Store.node_update_ne _ hroot
    _ = run.store.node id := Store.node_setChildren hroot hchildren
    _ = store.node id := ht.node_eq hlt hid

-- However a parse ends, nodes that the document does not lead to are as they were.
theorem attempt_node_eq {metrics metrics' : Metrics} {outcome : Except Fault Outcome} (hc : store.Closed inside)
    (hends : setting.document.Within inside)
    (ha : setting.attempt fuel store metrics = some (after, metrics', outcome)) (hlt : id < store.size)
    (hid : ¬inside id) : after.node id = store.node id := by
  cases attempt_leaves hc hends ha with
  | unstarted => rfl
  | accepted ht => exact ht.node_accept hends.withNew hlt (Store.not_withNew hlt hid)
  | undone _ ht => exact ht.rollback.node_eq (Store.not_withNew hlt hid)

theorem Parser.parse_node_eq {parser parser' : Parser} {document : Document} {reparse : Bool}
    {status : Except Fault ParseStatus} (hc : store.Closed inside) (hends : document.Within inside)
    (hp : parser.parse fuel store document reparse = some (parser', after, status)) (hlt : id < store.size)
    (hid : ¬inside id) : after.node id = store.node id := by
  obtain ⟨reparse', middle, earlier, outcome, hr, hattempt, -⟩ := attempt_of_parse hc hends hp
  exact (attempt_node_eq (hr.closed hc) hends hattempt (hr.size.symm ▸ hlt) hid).trans (hr.node_eq hid)

end Parse

-- What an edit may do to a node of another document: it may flag the node, if it is above
-- one that is edited.
def Store.Spares (store after : Store) (edited id : Nat) : Prop :=
  after.node id = store.node id ∨
    after.Rises edited id ∧ after.node id = (store.node id).flag store.nextVersion

namespace Store

variable {store placed : Store} {start id : Nat}

theorem spares_markChanged (hnode : placed.node id = store.node id) (hversion : placed.version = store.version) :
    store.Spares (placed.markChanged start placed.nextVersion) start id := by
  rcases @node_markChanged placed start id placed.nextVersion with h | ⟨hr, h⟩
  · exact Or.inl (h.trans hnode)
  · refine Or.inr ⟨rises_markChanged hr, ?_⟩
    rw [h, hnode, nextVersion, nextVersion, hversion]

end Store

namespace Document

variable {document : Document} {store after : Store} {inside : Nat → Prop} {anchor node id : Nat}

theorem Has.within (hi : document.Has store id) (hc : store.Closed inside) (hroot : inside document.root) : inside id := by
  rcases hi with rfl | hi
  · exact hroot
  · exact hi.within hc hroot

variable (hc : store.Closed inside) (hlt : id < store.size) (hid : ¬inside id)

include hc hlt hid

theorem spares_insertLeafAfter (hanchor : inside anchor) (hnode : inside node)
    (h : document.insertLeafAfter store anchor node = .ok after) : store.Spares after node id := by
  obtain ⟨parent, placed, hparent, hplaced, rfl⟩ := insertLeafAfter_spec h
  have he := Store.Evolves.refl.insertAfter? hc ((hc anchor hanchor).parent parent hparent) hanchor hnode hplaced
  exact Store.spares_markChanged (he.node_eq (Store.unkept_insertAfter? hplaced) hlt hid) he.versions.1

-- The new token is the last node of the store, whether it finds a place or not.
theorem spares_insertTokenAfter (hanchor : inside anchor) (token : Token) :
    store.Spares (document.insertTokenAfter store anchor token).1 store.size id := by
  unfold insertTokenAfter allocateToken Store.allocate
  dsimp only
  obtain ⟨pushed, hpushed⟩ : ∃ pushed, store.push (.new (tokenContent token).1 (tokenContent token).2.1
    (tokenContent token).2.2) = pushed := ⟨_, rfl⟩
  have hnode : pushed.node id = store.node id := by rw [← hpushed, Store.node_push, if_neg (Nat.ne_of_lt hlt)]
  have hsize : pushed.size = store.size + 1 := by rw [← hpushed, Store.size_push]
  have hclosed : pushed.Closed (store.WithNew pushed inside) := hpushed ▸ (push_evolves.closed hc.withNew)
  have hversion : pushed.nextVersion = store.nextVersion := by rw [← hpushed]; rfl
  rw [hpushed]
  cases h : document.insertLeafAfter pushed anchor store.size with
  | error fault => exact Or.inl hnode
  | ok after =>
      have hspares := spares_insertLeafAfter hclosed (hsize ▸ Nat.lt_succ_of_lt hlt) (Store.not_withNew hlt hid)
        (Or.inl hanchor) (Or.inr ⟨Nat.le_refl _, hsize ▸ Nat.lt_succ_self _⟩) h
      rwa [Store.Spares, hnode, hversion] at hspares

theorem spares_removeToken (hnode : inside node) (h : document.removeToken store node = .ok after) :
    ∃ parent, (store.node node).parent = some parent ∧ store.Spares after parent id := by
  obtain ⟨parent, placed, hparent, hplaced, rfl⟩ := removeToken_spec h
  have he := Store.Evolves.refl.removeChild? hc ((hc node hnode).parent parent hparent) hnode hplaced
  have hsame := he.node_eq (Store.unkept_removeChild? hplaced) hlt hid
  exact ⟨parent, hparent, Store.spares_markChanged hsame he.versions.1⟩

omit hc hlt in
theorem spares_replaceToken (hnode : inside node) (rule : Option String) (text : String) :
    store.Spares (Document.replaceToken store node rule text) node id :=
  Store.spares_markChanged (Store.node_update_ne _ fun he => hid (he ▸ hnode)) rfl

end Document

namespace Arena

variable {documents : List Document} {store : Store}

-- What is done to the nodes of a document leaves those of all others alone, but for flags
-- on the way up from an edit to documents that it is embedded in.
theorem documents_apart (ha : Arena documents store) {document other : Document} (hd : document ∈ documents)
    (ho : other ∈ documents) (hne : document ≠ other) {id : Nat} (hid : other.Has store id) :
    (∀ anchor token, document.Has store anchor →
        store.Spares (document.insertTokenAfter store anchor token).1 store.size id) ∧
      (∀ node after, document.Has store node → document.removeToken store node = .ok after →
        ∃ parent, (store.node node).parent = some parent ∧ store.Spares after parent id) ∧
      (∀ node rule text, document.Has store node → store.Spares (Document.replaceToken store node rule text) node id) ∧
      ∀ (parser parser' : Parser) (fuel : Nat) (reparse : Bool) (after : Store) (status : Except Fault ParseStatus),
        parser.parse fuel store document reparse = some (parser', after, status) → after.node id = store.node id := by
  obtain ⟨region, hh⟩ := ha.houses
  have howns := hh.owns document hd
  have hother := hh.owns other ho
  have hapart : ¬region document id := fun h =>
    hh.apart document hd other ho hne id h (hid.within hother.closed hother.within.root)
  have hlt := hother.lt_size id (hid.within hother.closed hother.within.root)
  have hin : ∀ {node}, document.Has store node → region document node := fun h =>
    h.within howns.closed howns.within.root
  refine ⟨fun anchor token h => ?_, fun node after h hremove => ?_, fun node rule text h => ?_,
    fun parser parser' fuel reparse after status hp => ?_⟩
  · exact Document.spares_insertTokenAfter howns.closed hlt hapart (hin h) token
  · exact Document.spares_removeToken howns.closed hlt hapart (hin h) hremove
  · exact Document.spares_replaceToken hapart (hin h) rule text
  · exact Parser.parse_node_eq howns.closed howns.within hp hlt hapart

-- A document in a box is edited, and the box above it is flagged by that.
theorem documents_apart_embedded :
    ∃ store, Arena [Document.inner, Document.outer] store ∧ Document.inner ≠ Document.outer ∧
      Document.outer.Has store 8 ∧ Document.inner.Has store 6 ∧
      (Document.replaceToken store 6 none "b").Rises 6 8 ∧
      (Document.replaceToken store 6 none "b").node 8 = (store.node 8).flag 2 := by
  have hsteps : ((Edit.insertBox Document.outer 2 "l" Document.inner).run
      (Document.ofTokens (Document.ofTokens .empty [.matched none "x" 0 1]).1 [.matched none "a" 0 1]).1).map (fun boxed =>
        ((boxed.commit.node 3).children, (boxed.commit.node 7).children, boxed.commit.version, (boxed.commit.node 8).version,
          ((Document.replaceToken boxed.commit 6 none "b").node 8).version)) =
      some ([0, 2, 8, 1], [4, 6, 5], 1, 1, 2) := by
    decide +kernel
  obtain ⟨boxed, hbox, hresult⟩ := Option.map_eq_some_iff.mp hsteps
  simp only [Prod.mk.injEq] at hresult
  obtain ⟨houter, hinner, hversion, hbefore, hafter⟩ := hresult
  have hopened : Arena [Document.inner, Document.outer] _ := @Arena.edit _ _ _ (.create [.matched none "a" 0 1])
    (@Arena.edit _ _ _ (.create [.matched none "x" 0 1]) .empty trivial rfl) trivial rfl
  have harena := (@Arena.edit _ _ _ (.insertBox Document.outer 2 "l" Document.inner) hopened
    ⟨List.mem_cons_of_mem _ (List.mem_singleton_self _), .child (by decide), by decide⟩ hbox).commit
  have hbelow : Document.outer.Has boxed.commit 8 := Or.inr (.child (show 8 ∈ (boxed.commit.node 3).children by rw [houter]; decide))
  have hleaf : Document.inner.Has boxed.commit 6 := Or.inr (.child (show 6 ∈ (boxed.commit.node 7).children by rw [hinner]; decide))
  have hne : Document.inner ≠ Document.outer := by decide
  have hspares := (documents_apart harena List.mem_cons_self (List.mem_cons_of_mem _ (List.mem_singleton_self _)) hne
    hbelow).2.2.1 6 none "b" hleaf
  rcases hspares with h | ⟨hrises, h⟩
  · rw [h, hbefore] at hafter
    cases hafter
  · rw [Store.nextVersion, hversion] at h
    exact ⟨boxed.commit, harena, hne, hbelow, hleaf, hrises, h⟩

-- The terminal that a document was embedded in has been taken out of another one, which has
-- no box any more. An edit of the document still flags the other one.
theorem documents_apart_unboxed :
    ∃ documents store document other node id, Arena documents store ∧ document ∈ documents ∧ other ∈ documents ∧
      document ≠ other ∧ document.Has store node ∧ other.Has store id ∧
      (∀ id, other.Has store id → (store.node id).box = none) ∧
      ((Document.replaceToken store node none "b").node id).version ≠ (store.node id).version := by
  have hsteps : ((Edit.insertBox Document.outer 2 "l" Document.inner).run
      (Document.ofTokens (Document.ofTokens .empty [.matched none "x" 0 1]).1 [.matched none "a" 0 1]).1).bind (fun boxed =>
    ((Edit.remove Document.outer 8).run boxed.commit).map fun removed =>
      (((boxed.commit.node 3).children, (removed.commit.node 7).children),
        [0, 1, 2, 3].map (fun id => ((removed.commit.node id).children, (removed.commit.node id).box)),
        ((removed.commit.node 3).version, ((Document.replaceToken removed.commit 6 none "b").node 3).version))) =
      some (([0, 2, 8, 1], [4, 6, 5]), [([], none), ([], none), ([], none), ([0, 2, 1], none)], (2, 3)) := by
    decide +kernel
  obtain ⟨boxed, hbox, hrest⟩ := Option.bind_eq_some_iff.mp hsteps
  obtain ⟨removed, hremove, hresult⟩ := Option.map_eq_some_iff.mp hrest
  simp only [List.map_cons, List.map_nil, List.cons.injEq, Prod.mk.injEq, and_true] at hresult
  obtain ⟨⟨houter, hinner⟩, ⟨⟨hbos, hbosbox⟩, ⟨heos, heosbox⟩, ⟨hleaf, hleafbox⟩, ⟨hroot, hrootbox⟩⟩, hbefore, hafter⟩ := hresult
  have hopened : Arena [Document.inner, Document.outer] _ := @Arena.edit _ _ _ (.create [.matched none "a" 0 1])
    (@Arena.edit _ _ _ (.create [.matched none "x" 0 1]) .empty trivial rfl) trivial rfl
  have hboxed := (@Arena.edit _ _ _ (.insertBox Document.outer 2 "l" Document.inner) hopened
    ⟨List.mem_cons_of_mem _ (List.mem_singleton_self _), .child (by decide), by decide⟩ hbox).commit
  have harena := (@Arena.edit _ _ _ (.remove Document.outer 8) hboxed ⟨List.mem_cons_of_mem _ (List.mem_singleton_self _),
    .child (show 8 ∈ (boxed.commit.node 3).children by rw [houter]; decide), by decide, by decide, by decide⟩ hremove).commit
  have hbelow : ∀ id, Document.outer.Has removed.commit id → id ∈ [0, 1, 2, 3] := by
    have hchildren : ∀ id ∈ [0, 1, 2, 3], ∀ child ∈ (removed.commit.node id).children, child ∈ [0, 1, 2, 3] := by
      simp [hbos, heos, hleaf, hroot]
    rintro id (rfl | hid)
    · decide
    · induction hid with
      | child h => exact hchildren _ (by decide) _ h
      | further _ h ih => exact hchildren _ ih _ h
  refine ⟨_, removed.commit, Document.inner, Document.outer, 6, 3, harena, List.mem_cons_self,
    List.mem_cons_of_mem _ (List.mem_singleton_self _), by decide, ?_, Or.inl rfl, fun id hid => ?_, ?_⟩
  · exact Or.inr (.child (show 6 ∈ (removed.commit.node 7).children by rw [hinner]; decide))
  · have hbox : ∀ id ∈ [0, 1, 2, 3], (removed.commit.node id).box = none := by
      simp [hbosbox, heosbox, hleafbox, hrootbox]
    exact hbox id (hbelow id hid)
  · rw [hafter, hbefore]
    decide

end Arena

end IncrementalLR
