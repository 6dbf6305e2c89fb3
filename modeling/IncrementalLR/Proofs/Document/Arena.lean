import IncrementalLR.Proofs.Document.Owning
import IncrementalLR.Proofs.Document.Reparsing
import IncrementalLR.Proofs.Document.Splicing

namespace IncrementalLR

namespace Store

variable {store after middle : Store} {inside others : Nat → Prop} {id fuel link : Nat}

-- What a step on certain nodes comes to. Some may be left to the next commit as they
-- are before others change.
def Steps (inside : Nat → Prop) (store after : Store) : Prop :=
  ∃ middle : Store, store.Remarked inside middle ∧ middle.Evolves (middle.WithNew after inside) after

theorem Evolves.steps (he : store.Evolves (store.WithNew after inside) after) : store.Steps inside after :=
  ⟨store, .refl _ _, he⟩

theorem Remarked.steps (hr : store.Remarked inside after) : store.Steps inside after := ⟨after, hr, .refl⟩

theorem Remarked.withNew (hr : store.Remarked inside middle) : middle.WithNew after others = store.WithNew after others := by
  funext id
  rw [WithNew, WithNew, hr.size]

theorem Steps.logged (hs : store.Steps inside after) (hl : store.Logged) : after.Logged := by
  obtain ⟨middle, hr, he⟩ := hs
  exact (hl.remarked hr).evolves he

theorem Below.within (hb : store.Below id link) (hc : store.Closed inside) (hid : inside id) : inside link := by
  induction hb with
  | child h => exact (hc id hid).children _ h
  | further _ h ih => exact (hc _ ih).children _ h

theorem Closed.threadFrom (hc : store.Closed inside) (hid : inside id) (h : link ∈ store.threadFrom fuel id) : inside link := by
  induction fuel generalizing id with
  | zero => cases h
  | succ fuel ih =>
      rw [Store.threadFrom] at h
      split at h
      · rename_i next hnext
        rcases List.mem_cons.mp h with rfl | h
        · exact hid
        · exact ih ((hc id hid).nextTerminal next hnext) h
      · exact List.mem_singleton.mp h ▸ hid

end Store

namespace Document

variable {document : Document} {store after : Store} {inside others : Nat → Prop} {forest result : Forest}
  {anchor node id : Nat} {symbol : Symbol} {rule : Option String} {text : String}

theorem Becomes.alive (hb : document.Becomes store forest after result)
    (hk : ∀ id ∈ document.root :: forest.ids, store.Known id) (hs : store.Steps others after) : document.Alive after := by
  obtain ⟨middle, hr, he⟩ := hs
  refine ⟨result, hb.threaded, List.forall_mem_cons.mpr ⟨?_, fun id hid => ?_⟩⟩
  · exact he.known (hr.known (hk _ List.mem_cons_self))
  · rcases hb.ids id hid with hold | hnew
    · exact he.known (hr.known (hk id (List.mem_cons_of_mem _ hold)))
    · exact he.known_new (hr.size.symm ▸ hnew) (hb.threaded.lt_size id (List.mem_cons_of_mem _ hid))

theorem Becomes.renews (hb : document.Becomes store forest after result) (ht : document.Threaded store forest) :
    document.Renews store after := fun id h => by
  rw [ht.toPlanted.below_iff]
  exact hb.ids id (hb.threaded.mem_of_below h)

namespace Owns

-- What is done to another document leaves it alone.
theorem beside (ho : document.Owns store inside) (hl : store.Logged) (hs : store.Steps others after)
    (hd : ∀ id, inside id → ¬others id) : document.Owns after inside ∧
      ((store.node document.root).deleted = false → document.sequence after = document.sequence store ∧
        document.Renews store after) := by
  obtain ⟨middle, hr, he⟩ := hs
  have hmiddle := ho.remarked hl hr
  have hnew : ∀ id, inside id → ¬middle.WithNew after others id := fun id hid h =>
    h.elim (hd id hid) fun h => Nat.not_lt.mpr h.1 (hmiddle.lt_size id hid)
  refine ⟨hmiddle.apart (hl.remarked hr) he hnew, fun hexists => ?_⟩
  refine ((ho.alive hexists).congr ho.closed ho.within.root fun id hid hk => ⟨?_, he.known (hr.known hk)⟩).2
  exact ((he.node (hmiddle.lt_size id hid)).resolve_right fun h => hnew id hid h.1).attributes.trans hr.attributes

theorem steps (ho : document.Owns store inside) (hl : store.Logged) (hs : store.Steps inside after)
    (hdeleted : (after.node document.root).deleted = (store.node document.root).deleted)
    (halive : (store.node document.root).deleted = false → document.Alive after) :
    document.Owns after (store.WithNew after inside) := by
  obtain ⟨middle, hr, he⟩ := hs
  rw [← hr.withNew]
  refine (ho.remarked hl hr).grows (hl.remarked hr) he (hdeleted.trans hr.deleted.symm) fun hexists => halive ?_
  rwa [hr.deleted] at hexists

end Owns

section Deleted

theorem deleted_markChanged {version : Nat} : ((store.markChanged node version).node id).deleted = (store.node id).deleted :=
  ((Store.Evolves.refl.markChanged : store.Evolves (fun _ => False) _).still.node id).deleted

theorem deleted_insertLeafAfter (h : document.insertLeafAfter store anchor node = .ok after) (hne : id ≠ node) :
    (after.node id).deleted = (store.node id).deleted := by
  obtain ⟨parent, placed, -, hplaced, rfl⟩ := insertLeafAfter_spec h
  rw [deleted_markChanged, Store.deleted_insertAfter? hplaced hne]

theorem deleted_removeToken (h : document.removeToken store node = .ok after) (hne : id ≠ node) :
    (after.node id).deleted = (store.node id).deleted := by
  obtain ⟨parent, placed, -, hplaced, rfl⟩ := removeToken_spec h
  rw [deleted_markChanged, Store.deleted_removeChild? hplaced hne]

end Deleted

-- The thread goes over the leaves from the first to the last.
theorem Threaded.thread (ht : document.Threaded store forest) : store.thread document.bos = store.leaves document.root := by
  obtain ⟨inner, hleaves⟩ := ht.frames.leaves
  have hthreads := ht.threads
  have hn := (List.nodup_cons.mp ht.nodup).2.sublist Forest.leaves_sublist
  have hlt : ∀ id ∈ forest.leaves.map Prod.fst, id < store.size :=
    fun id h => ht.lt_size id (List.mem_cons_of_mem _ (Forest.leaves_sublist.subset h))
  rw [ht.toPlanted.leaves]
  rw [hleaves] at hthreads hn hlt ⊢
  exact hthreads.thread hn hlt

theorem Threaded.below_of_mem_leaves (ht : document.Threaded store forest) (h : node ∈ store.leaves document.root) :
    store.Below document.root node ∧ node ≠ document.root := by
  rw [ht.toPlanted.leaves] at h
  have hid := Forest.leaves_sublist.subset h
  exact ⟨ht.toPlanted.below_iff.mpr hid, fun he => (List.nodup_cons.mp ht.nodup).1 (he ▸ hid)⟩

theorem Threaded.mem_tokens (ht : document.Threaded store forest) (h : node ∈ document.tokens store) :
    node ∈ store.leaves document.root ∧ node ≠ document.bos ∧ node ≠ document.eos := by
  rw [Document.tokens, ht.thread, List.mem_filter, Bool.and_eq_true, bne_iff_ne, bne_iff_ne] at h
  exact h

namespace Owns

variable (ho : document.Owns store inside) (hl : store.Logged)

include ho hl

-- A leaf finds its place if the document exists.
theorem insertLeaf (hb : store.Below document.root anchor) (heos : anchor ≠ document.eos)
    (hleaf : symbol.isNonterminal = false) (hfinish : symbol ≠ .finish) :
    (∃ after, document.insertLeafAfter (store.push (.new symbol rule text)) anchor store.size = .ok after ∧
      store.Steps inside after ∧ document.Owns after (store.WithNew after inside) ∧
      ((store.node document.root).deleted = false →
        document.Inserts store after anchor (store.size, ⟨symbol, rule, text, false⟩) ∧ document.Renews store after)) ∨
    (store.node document.root).deleted = true ∧ (∃ fault, document.insertLeafAfter (store.push (.new symbol rule text))
      anchor store.size = .error fault) ∧ store.Steps inside (store.push (.new symbol rule text)) ∧
      document.Owns (store.push (.new symbol rule text)) (store.WithNew (store.push (.new symbol rule text)) inside) := by
  have hne : document.root ≠ store.size := Nat.ne_of_lt ho.root_lt
  have hpushed : ((store.push (.new symbol rule text)).node document.root) = store.node document.root := by
    rw [Store.node_push, if_neg hne]
  have hplace : (store.node document.root).deleted = false → ∃ after, document.insertLeafAfter
      (store.push (.new symbol rule text)) anchor store.size = .ok after ∧ (document.Inserts store after anchor
        (store.size, ⟨symbol, rule, text, false⟩) ∧ document.Renews store after) ∧
          (store.Steps inside after → document.Alive after) := by
    intro hexists
    obtain ⟨forest, ht, hk⟩ := ho.alive hexists
    obtain ⟨after, result, hok, hbecomes, hinserts⟩ :=
      @Threaded.insertLeafAfter _ _ _ _ symbol rule text ht (ht.mem_of_below hb) heos hleaf hfinish
    exact ⟨after, hok, ⟨hinserts, hbecomes.renews ht⟩, hbecomes.alive hk⟩
  cases h : document.insertLeafAfter (store.push (.new symbol rule text)) anchor store.size with
  | ok after =>
      have hsteps : store.Steps inside after :=
        (insertLeaf_evolves ho.closed (hb.within ho.closed ho.within.root) h).steps
      have hdeleted := (deleted_insertLeafAfter h hne).trans (congrArg Node.deleted hpushed)
      refine Or.inl ⟨after, rfl, hsteps, ho.steps hl hsteps hdeleted fun hexists => ?_, fun hexists => ?_⟩
      · obtain ⟨after', hok, -, halive⟩ := hplace hexists
        obtain rfl := Except.ok.inj (h.symm.trans hok)
        exact halive hsteps
      · obtain ⟨after', hok, hinserts, -⟩ := hplace hexists
        obtain rfl := Except.ok.inj (h.symm.trans hok)
        exact hinserts
  | error fault =>
      have hmissing : (store.node document.root).deleted = true := by
        by_contra hexists
        obtain ⟨after, hok, -⟩ := hplace (eq_false_of_ne_true hexists)
        cases h.symm.trans hok
      have hsteps : store.Steps inside (store.push (.new symbol rule text)) := push_evolves.steps
      refine Or.inr ⟨hmissing, ⟨fault, rfl⟩, hsteps, ho.steps hl hsteps (congrArg Node.deleted hpushed) fun hexists => ?_⟩
      cases hmissing.symm.trans hexists

theorem removeToken (hb : store.Below document.root node) (hroot : node ≠ document.root) (hbos : node ≠ document.bos)
    (heos : node ≠ document.eos) :
    (∃ after, document.removeToken store node = .ok after ∧ store.Steps inside after ∧
      document.Owns after (store.WithNew after inside) ∧
      ((store.node document.root).deleted = false → document.Removes store after node ∧ document.Renews store after)) ∨
    (store.node document.root).deleted = true ∧ ∃ fault, document.removeToken store node = .error fault := by
  have hplace : (store.node document.root).deleted = false → ∃ after, document.removeToken store node = .ok after ∧
      (document.Removes store after node ∧ document.Renews store after) ∧
        (store.Steps inside after → document.Alive after) := by
    intro hexists
    obtain ⟨forest, ht, hk⟩ := ho.alive hexists
    obtain ⟨after, result, hok, hbecomes, hremoves⟩ := ht.removeToken (ht.mem_of_below hb) hbos heos
    exact ⟨after, hok, ⟨hremoves, hbecomes.renews ht⟩, hbecomes.alive hk⟩
  cases h : document.removeToken store node with
  | ok after =>
      have hsteps : store.Steps inside after :=
        (removeToken_evolves ho.closed (hb.within ho.closed ho.within.root) h).steps
      have hdeleted := deleted_removeToken h hroot.symm
      refine Or.inl ⟨after, rfl, hsteps, ho.steps hl hsteps hdeleted fun hexists => ?_, fun hexists => ?_⟩
      · obtain ⟨after', hok, -, halive⟩ := hplace hexists
        obtain rfl := Except.ok.inj (h.symm.trans hok)
        exact halive hsteps
      · obtain ⟨after', hok, hremoves, -⟩ := hplace hexists
        obtain rfl := Except.ok.inj (h.symm.trans hok)
        exact hremoves
  | error fault =>
      refine Or.inr ⟨?_, fault, rfl⟩
      by_contra hexists
      obtain ⟨after, hok, -⟩ := hplace (eq_false_of_ne_true hexists)
      cases h.symm.trans hok

theorem replaceToken (hmem : node ∈ document.tokens store) :
    store.Steps inside (Document.replaceToken store node rule text) ∧
      document.Owns (Document.replaceToken store node rule text)
        (store.WithNew (Document.replaceToken store node rule text) inside) ∧
      ((store.node document.root).deleted = false →
        document.Replaces store (Document.replaceToken store node rule text) node rule text ∧
          document.Renews store (Document.replaceToken store node rule text)) := by
  have hnode : inside node := ho.closed.threadFrom ho.within.bos (List.mem_of_mem_filter hmem)
  have hsteps : store.Steps inside (Document.replaceToken store node rule text) := (replaceToken_evolves hnode).steps
  have hdeleted : ((Document.replaceToken store node rule text).node document.root).deleted =
      (store.node document.root).deleted := deleted_markChanged.trans Store.deleted_revise
  refine ⟨hsteps, ho.steps hl hsteps hdeleted fun hexists => ?_, fun hexists => ?_⟩
  · obtain ⟨forest, ht, hk⟩ := ho.alive hexists
    obtain ⟨hleaf, hbos, heos⟩ := ht.mem_tokens hmem
    obtain ⟨result, hbecomes, -⟩ := @Threaded.replaceToken _ _ _ _ rule text ht hleaf hbos heos
    exact hbecomes.alive hk hsteps
  · obtain ⟨forest, ht, hk⟩ := ho.alive hexists
    obtain ⟨hleaf, hbos, heos⟩ := ht.mem_tokens hmem
    obtain ⟨result, hbecomes, hreplaces⟩ := @Threaded.replaceToken _ _ _ _ rule text ht hleaf hbos heos
    exact ⟨hreplaces, hbecomes.renews ht⟩

theorem parse {parser parser' : Parser} {fuel : Nat} {reparse : Bool} {status : Except Fault ParseStatus}
    (hb : parser.IsBuilt) (hp : parser.parse fuel store document reparse = some (parser', after, status)) :
    store.Steps inside after ∧ document.Owns after (store.WithNew after inside) ∧
      ((store.node document.root).deleted = false → document.sequence after = document.sequence store ∧
        document.Renews store after) := by
  have hsteps : store.Steps inside after := by
    rcases Parser.parse_remarks ho.closed ho.within hp with ⟨-, middle, hr, he⟩ | ⟨-, hr⟩
    · exact ⟨middle, hr, he⟩
    · exact hr.steps
  have hdeleted : (after.node document.root).deleted = (store.node document.root).deleted :=
    show (after.node document.root).idle.deleted = (store.node document.root).idle.deleted by
      rw [Parser.parse_idle hp ho.root_lt]
  refine ⟨hsteps, ho.steps hl hsteps hdeleted fun hexists => ?_, fun hexists => ?_⟩
  · obtain ⟨forest, ht, hk⟩ := ho.alive hexists
    obtain ⟨result, hbecomes, -⟩ := ht.parse hb hp
    exact hbecomes.alive hk hsteps
  · obtain ⟨forest, ht, hk⟩ := ho.alive hexists
    obtain ⟨result, hbecomes, hsame⟩ := ht.parse hb hp
    exact ⟨hsame, hbecomes.renews ht⟩

end Owns

end Document

end IncrementalLR
