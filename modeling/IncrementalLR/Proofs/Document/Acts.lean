import IncrementalLR.Proofs.Parse.Marks
import IncrementalLR.Proofs.Tree.Twins

namespace IncrementalLR

namespace Document

variable {store : Store} {document inner : Document} {anchor node : Nat} {token : Token}

section Marks

@[simp] theorem allocateToken_marked :
    allocateToken store.marked token = ((allocateToken store token).1.marked, (allocateToken store token).2) := by
  simp [allocateToken, Store.allocate]

@[simp] theorem allocateLeaves_marked {contents : List (Symbol × Option String × String)} :
    allocateLeaves contents store.marked =
      ((allocateLeaves contents store).1.marked, (allocateLeaves contents store).2) := by
  induction contents generalizing store with
  | nil => rfl
  | cons content rest ih => simp [allocateLeaves, Store.allocate, ih]

@[simp] theorem saveAll_marked {ids : List Nat} :
    ids.foldl (fun store id => store.save id store.version) store.marked =
      (ids.foldl (fun store id => store.save id store.version) store).marked := by
  induction ids generalizing store with
  | nil => rfl
  | cons first rest ih =>
      rw [List.foldl_cons, List.foldl_cons, Store.save_marked]
      exact ih

theorem ofLeaves_marked {contents : List (Symbol × Option String × String)} :
    ofLeaves store.marked contents = ((ofLeaves store contents).1.marked, (ofLeaves store contents).2) := by
  simp [ofLeaves, Store.allocate, Store.allocateNode]

theorem insertLeafAfter_marked :
    document.insertLeafAfter store.marked anchor node = (document.insertLeafAfter store anchor node).map Store.marked := by
  unfold insertLeafAfter
  split
  · rfl
  · simp only [Store.attributes_marked]
    split
    · rfl
    · rw [Store.insertAfter?_marked]
      cases store.insertAfter? _ anchor node with
      | none => rfl
      | some after => simp [Except.map]

theorem insertTokenAfter_marked :
    document.insertTokenAfter store.marked anchor token =
      ((document.insertTokenAfter store anchor token).1.marked, (document.insertTokenAfter store anchor token).2) := by
  simp only [insertTokenAfter, allocateToken_marked, insertLeafAfter_marked]
  cases document.insertLeafAfter (allocateToken store token).1 anchor (allocateToken store token).2 with
  | error fault => rfl
  | ok after => rfl

theorem embed_marked {terminal : Nat} : embed store.marked terminal inner = (embed store terminal inner).marked := by
  simp [embed]

theorem insertBoxAfter_marked {language : String} :
    document.insertBoxAfter store.marked anchor language inner =
      ((document.insertBoxAfter store anchor language inner).1.marked,
        (document.insertBoxAfter store anchor language inner).2) := by
  simp only [insertBoxAfter, Store.allocate, Store.push_marked, Store.size_marked, insertLeafAfter_marked]
  cases document.insertLeafAfter (store.push (.new (.magic language) none "")) anchor store.size with
  | error fault => rfl
  | ok after => exact congrArg (fun store => (store, Except.ok _)) embed_marked

theorem removeToken_marked : document.removeToken store.marked node = (document.removeToken store node).map Store.marked := by
  unfold removeToken
  split
  · rfl
  · simp only [Store.attributes_marked]
    split
    · rfl
    · rw [Store.removeChild?_marked]
      cases store.removeChild? _ node with
      | none => rfl
      | some after => simp [Except.map]

theorem replaceToken_marked {rule : Option String} {text : String} :
    replaceToken store.marked node rule text = (replaceToken store node rule text).marked := by
  simp [replaceToken]

end Marks

-- A leaf that finds a place is put in below the node above its anchor, and flagged.
theorem insertLeafAfter_spec {after : Store} (h : document.insertLeafAfter store anchor node = .ok after) :
    ∃ parent placed, (store.node anchor).parent = some parent ∧ store.insertAfter? parent anchor node = some placed ∧
      after = placed.markChanged node placed.nextVersion := by
  unfold insertLeafAfter at h
  split at h
  · cases h
  · split at h
    · cases h
    · rename_i parent hparent
      split at h
      · cases h
      · rename_i placed hplaced
        exact ⟨parent, placed, hparent, hplaced, (Except.ok.inj h).symm⟩

-- A token that is taken out flags the node that was above it.
theorem removeToken_spec {after : Store} (h : document.removeToken store node = .ok after) :
    ∃ parent placed, (store.node node).parent = some parent ∧ store.removeChild? parent node = some placed ∧
      after = placed.markChanged parent placed.nextVersion := by
  unfold removeToken at h
  split at h
  · cases h
  · split at h
    · cases h
    · rename_i parent hparent
      split at h
      · cases h
      · rename_i placed hplaced
        exact ⟨parent, placed, hparent, hplaced, (Except.ok.inj h).symm⟩

section Growth

variable {inside : Nat → Prop} {other after : Store} {symbol : Symbol} {rule : Option String} {text : String}

theorem insertLeafAfter_evolves (he : store.Evolves inside other) (hc : store.Closed inside) (hanchor : inside anchor)
    (hnode : inside node) (h : document.insertLeafAfter other anchor node = .ok after) : store.Evolves inside after := by
  obtain ⟨parent, placed, hparent, hplaced, rfl⟩ := insertLeafAfter_spec h
  have hparent : inside parent := (he.closed hc anchor hanchor).parent parent hparent
  exact (he.insertAfter? hc hparent hanchor hnode hplaced).markChanged

-- A new leaf comes to certain nodes, and all that its place leads to was among them.
theorem insertLeaf_evolves (hc : store.Closed inside) (ha : inside anchor)
    (h : document.insertLeafAfter (store.push (.new symbol rule text)) anchor store.size = .ok after) :
    store.Evolves (store.WithNew after inside) after := by
  have hlt : store.size < after.size := by
    have hle := (insertLeafAfter_evolves .refl (Store.closed_all _) trivial trivial h).size_le
    rwa [Store.size_push] at hle
  have hnew : store.WithNew after inside store.size := Or.inr ⟨Nat.le_refl _, hlt⟩
  exact insertLeafAfter_evolves (Store.Evolves.refl.push hnew) hc.withNew (Or.inl ha) hnew h

theorem push_evolves : store.Evolves (store.WithNew (store.push (.new symbol rule text)) inside)
    (store.push (.new symbol rule text)) :=
  Store.Evolves.refl.push (Or.inr ⟨Nat.le_refl _, by rw [Store.size_push]; exact Nat.lt_succ_self _⟩)

theorem removeToken_evolves (hc : store.Closed inside) (hn : inside node) (h : document.removeToken store node = .ok after) :
    store.Evolves (store.WithNew after inside) after := by
  obtain ⟨parent, removed, hparent, hremoved, rfl⟩ := removeToken_spec h
  have hparent := (hc node hn).parent parent hparent
  exact (Store.Evolves.refl.removeChild? hc.withNew (Or.inl hparent) (Or.inl hn) hremoved).markChanged

theorem replaceToken_evolves (hn : inside node) :
    store.Evolves (store.WithNew (replaceToken store node rule text) inside) (replaceToken store node rule text) :=
  (Store.Evolves.refl.setToken (Or.inl hn)).markChanged

theorem embed_still {terminal : Nat} : store.Still (embed store terminal inner) :=
  Store.still_setBox.trans (Store.Evolves.refl.markChanged : Store.Evolves (fun _ => False) _ _).still

theorem push_grows : store.Grows (store.push (.new symbol rule text)) := push_evolves.grows

theorem insertTokenAfter_grows (hc : store.Coherent) (ha : store.Known anchor) :
    store.Grows (document.insertTokenAfter store anchor token).1 := by
  unfold insertTokenAfter allocateToken Store.allocate
  dsimp only
  cases h : document.insertLeafAfter (store.push _) anchor store.size with
  | error fault => exact push_grows
  | ok after => exact (insertLeaf_evolves hc.closed ha h).grows

theorem embed_grows {terminal : Nat} : store.Grows (embed store terminal inner) := embed_still.grows

theorem insertBoxAfter_grows {language : String} (hc : store.Coherent) (ha : store.Known anchor) :
    store.Grows (document.insertBoxAfter store anchor language inner).1 := by
  unfold insertBoxAfter Store.allocate
  dsimp only
  cases h : document.insertLeafAfter (store.push _) anchor store.size with
  | error fault => exact push_grows
  | ok after => exact (insertLeaf_evolves hc.closed ha h).grows.trans embed_grows

theorem removeToken_grows (hc : store.Coherent) (hn : store.Known node)
    (h : document.removeToken store node = .ok after) : store.Grows after := (removeToken_evolves hc.closed hn h).grows

theorem replaceToken_grows (hn : store.Known node) : store.Grows (replaceToken store node rule text) :=
  (replaceToken_evolves hn).grows

theorem allocateLeaves_evolves {contents : List (Symbol × Option String × String)} (he : store.Evolves inside other)
    (hnodes : ∀ id ∈ (allocateLeaves contents other).2, inside id) :
    store.Evolves inside (allocateLeaves contents other).1 := by
  induction contents generalizing other with
  | nil => exact he
  | cons content rest ih =>
      obtain ⟨hfirst, hrest⟩ := List.forall_mem_cons.mp hnodes
      exact ih (he.push hfirst) hrest

theorem allocateLeaves_new {contents : List (Symbol × Option String × String)} :
    store.size ≤ (allocateLeaves contents store).1.size ∧
      ∀ id ∈ (allocateLeaves contents store).2, store.size ≤ id ∧ id < (allocateLeaves contents store).1.size := by
  induction contents generalizing store with
  | nil => exact ⟨Nat.le_refl _, nofun⟩
  | cons content rest ih =>
      obtain ⟨symbol, rule, text⟩ := content
      obtain ⟨hle, hrest⟩ := @ih (store.push (.new symbol rule text))
      rw [Store.size_push] at hle hrest
      refine ⟨Nat.le_of_succ_le hle, List.forall_mem_cons.mpr ⟨⟨Nat.le_refl _, hle⟩, fun id hid => ?_⟩⟩
      exact (hrest id hid).imp_left Nat.le_of_succ_le

-- A root over nodes that are not linked yet, threaded and flagged.
theorem root_evolves {ids : List Nat} {version : Nat} (he : store.Evolves inside other) (hc : store.Closed inside)
    (hroot : inside other.size) (hids : ∀ id ∈ ids, inside id) :
    store.Evolves inside (((other.allocateNode rootSymbol ids).1.relink other.size).markChanged other.size version) :=
  ((he.allocateNode hroot hids).relink hc hroot).markChanged

-- New nodes are linked to one another alone, and recorded at once.
def Opens (store : Store) (ids : List Nat) (after : Store) : Prop :=
  ∃ linked : Store, linked.Saved ids after ∧ (∀ id ∈ ids, store.size ≤ id ∧ id < linked.size) ∧
    ∀ inside : Nat → Prop, store.Closed inside → (∀ id ∈ ids, inside id) → store.Evolves inside linked

theorem Opens.closed {ids : List Nat} (hnew : ∀ id ∈ ids, store.size ≤ id) : store.Closed (· ∈ ids) := by
  intro id hid
  rw [Store.node_of_size_le (hnew id hid)]
  exact Attributes.within_default _

theorem Opens.grows {ids : List Nat} (ho : Opens store ids after) (hc : store.Coherent) : store.Grows after := by
  obtain ⟨linked, hsaved, hnew, hevolves⟩ := ho
  have hclosed := Opens.closed fun id hid => (hnew id hid).1
  have hself := hevolves _ hclosed fun _ hid => hid
  have hpending : ∀ id ∈ ids, (linked.node id).pending = true :=
    fun id hid => (hself.node_new (hnew id hid).1 (hnew id hid).2).2.1
  have hgrows : store.Grows linked := (hevolves _ hc.closed.withNew fun id hid => Or.inr (hnew id hid)).grows
  refine ⟨hsaved.size.symm ▸ hgrows.size_le, fun id => ?_, fun hc => ?_⟩
  · rw [hsaved.known_iff hpending, hgrows.known_iff, Store.WithNew, Store.WithNew, hsaved.size]
  · exact (hgrows.coherent hc).saved hsaved hpending fun id hid => hself.closed hclosed id hid

theorem opens_root {filled : Store} {children : List Nat} {version : Nat}
    (hevolves : ∀ inside : Nat → Prop, (∀ id ∈ children, inside id) → store.Evolves inside filled)
    (hnew : ∀ id ∈ children, store.size ≤ id ∧ id < filled.size) :
    Opens store (filled.size :: children) ((filled.size :: children).foldl (fun store id => store.save id store.version)
      (((filled.allocateNode rootSymbol children).1.relink filled.size).markChanged filled.size version)) := by
  have hfilled : store.size ≤ filled.size := (hevolves (fun _ => True) fun _ _ => trivial).size_le
  have hlast : filled.size <
      (((filled.allocateNode rootSymbol children).1.relink filled.size).markChanged filled.size version).size := by
    have hpushed := (Store.Evolves.refl.setChildren trivial fun _ _ => trivial :
      (filled.push (.new rootSymbol none "")).Evolves (fun _ => True) (filled.allocateNode rootSymbol children).1)
    have hle := ((hpushed.relink (Store.closed_all _) trivial).markChanged :
      (filled.push (.new rootSymbol none "")).Evolves _ (((filled.allocateNode rootSymbol children).1.relink
        filled.size).markChanged filled.size version)).size_le
    rwa [Store.size_push] at hle
  have hall : ∀ id ∈ filled.size :: children, store.size ≤ id ∧
      id < (((filled.allocateNode rootSymbol children).1.relink filled.size).markChanged filled.size version).size :=
    List.forall_mem_cons.mpr ⟨⟨hfilled, hlast⟩, fun id hid => (hnew id hid).imp_right fun h => Nat.lt_trans h hlast⟩
  refine ⟨_, Store.saved_saveAll fun id hid => (hall id hid).2, hall, fun inside hc hids => ?_⟩
  obtain ⟨hroot, hchildren⟩ := List.forall_mem_cons.mp hids
  exact root_evolves (hevolves inside hchildren) hc hroot hchildren

theorem exists_opens (store : Store) (contents : List (Symbol × Option String × String)) :
    ∃ ids, Opens store ids (ofLeaves store contents).1 ∧ (ofLeaves store contents).2.Within (· ∈ ids) := by
  unfold ofLeaves
  simp only [Store.allocate, Store.allocateNode_snd, Store.size_push]
  have hnew := @allocateLeaves_new ((store.push (.new (.terminal "") none "")).push (.new .finish none "")) contents
  rw [Store.size_push, Store.size_push] at hnew
  refine ⟨_, opens_root (fun inside hids => ?_) fun id hid => ?_, List.mem_cons_self, by simp, by simp⟩
  · obtain ⟨hbos, hrest⟩ := List.forall_mem_cons.mp hids
    obtain ⟨hnodes, heos⟩ := List.forall_mem_append.mp hrest
    have heos : inside (store.push (.new (.terminal "") none "")).size := by
      rw [Store.size_push]
      exact heos _ (List.mem_singleton_self _)
    exact allocateLeaves_evolves ((Store.Evolves.refl.push hbos).push heos) hnodes
  · simp only [List.mem_cons, List.mem_append, List.not_mem_nil, or_false] at hid
    rcases hid with rfl | hid | rfl
    · omega
    · have := hnew.2 id hid
      omega
    · omega

theorem ofLeaves_grows {contents : List (Symbol × Option String × String)} (hc : store.Coherent) :
    store.Grows (ofLeaves store contents).1 := by
  obtain ⟨ids, ho, -⟩ := exists_opens store contents
  exact ho.grows hc

theorem markLeavesBelow_evolves {fuel root : Nat} (he : store.Evolves inside other) :
    store.Evolves inside (markLeavesBelow fuel root other) := by
  induction fuel generalizing root other with
  | zero => exact he
  | succ fuel ih =>
      refine he.foldl fun leaf other h => ?_
      dsimp only
      split
      · exact ih h.markChanged
      · exact h.markChanged

-- A version is restored, and no more than flagged.
theorem undoTo?_spec {version : Nat} (h : document.undoTo? store version = some after) :
    ∃ restored, store.Restored version restored ∧ restored.Evolves (fun _ => False) after := by
  obtain ⟨restored, hrestored, rfl⟩ := Option.map_eq_some_iff.mp h
  exact ⟨restored, Store.restored_of_restore? hrestored, markLeavesBelow_evolves .refl⟩

theorem undoTo?_eq_none {version : Nat} : document.undoTo? store version = none ↔ store.newest < version := by
  rw [undoTo?, Option.map_eq_none_iff, Store.restore?]
  split
  · rename_i h
    exact iff_of_true rfl h
  · rename_i h
    exact iff_of_false (Option.some_ne_none _) h

-- Going forward is no different from going back.
theorem undoTo?_of_redoTo? {version : Nat} (h : document.redoTo? store version = some after) :
    document.undoTo? store version = some after := by
  rw [redoTo?] at h
  split at h
  · cases h
  · exact h

end Growth

end Document

-- What a step does to the current version of a store. Tokens go in one by one.
inductive Edit where
  | create (tokens : List Token)
  | insert (document : Document) (anchor : Nat) (token : Token)
  | insertBox (document : Document) (anchor : Nat) (language : String) (inner : Document)
  | embed (terminal : Nat) (inner : Document)
  | remove (document : Document) (node : Nat)
  | replace (node : Nat) (rule : Option String) (text : String)
  | parse (parser : Parser) (fuel : Nat) (document : Document) (reparse : Bool)

namespace Edit

-- The store after an edit, which is as it was before if the edit fails. None if a parse
-- runs out of fuel.
def run (store : Store) : Edit → Option Store
  | create tokens => some (Document.ofTokens store tokens).1
  | insert document anchor token => some (document.insertTokenAfter store anchor token).1
  | insertBox document anchor language inner => some (document.insertBoxAfter store anchor language inner).1
  | embed terminal inner => some (Document.embed store terminal inner)
  | remove document node =>
      match document.removeToken store node with
      | .ok after => some after
      | .error _ => some store
  | replace node rule text => some (Document.replaceToken store node rule text)
  | parse parser fuel document reparse =>
      (parser.parse fuel store document reparse).map fun (_, after, _) => after

-- Whether the nodes that an edit works on are among certain nodes.
def Within (inside : Nat → Prop) : Edit → Prop
  | create _ | embed _ _ => True
  | insert _ anchor _ | insertBox _ anchor _ _ => inside anchor
  | remove _ node | replace node _ _ => inside node
  | parse _ _ document _ => document.Within inside

variable {edit : Edit} {store after : Store}

theorem run_marked : edit.run store.marked = (edit.run store).map Store.marked := by
  cases edit with
  | create tokens => exact congrArg (fun result => some result.1) Document.ofLeaves_marked
  | insert document anchor token => exact congrArg (fun result => some result.1) Document.insertTokenAfter_marked
  | insertBox document anchor language inner =>
      exact congrArg (fun result => some result.1) Document.insertBoxAfter_marked
  | embed terminal inner => exact congrArg some Document.embed_marked
  | remove document node =>
      simp only [run, Document.removeToken_marked]
      cases document.removeToken store node with
      | error fault => rfl
      | ok after => rfl
  | replace node rule text => exact congrArg some Document.replaceToken_marked
  | parse parser fuel document reparse =>
      simp only [run, Parser.parse_marked, Option.map_map, Function.comp_def]

theorem run_grows (hc : store.Coherent) (hw : edit.Within store.Known) (h : edit.run store = some after) :
    store.Grows after := by
  cases edit with
  | create tokens =>
      cases h
      exact Document.ofLeaves_grows hc
  | insert document anchor token =>
      cases h
      exact Document.insertTokenAfter_grows hc hw
  | insertBox document anchor language inner =>
      cases h
      exact Document.insertBoxAfter_grows hc hw
  | embed terminal inner =>
      cases h
      exact Document.embed_grows
  | remove document node =>
      rw [run] at h
      split at h
      · rename_i removed hremoved
        cases h
        exact Document.removeToken_grows hc hw hremoved
      · cases h
        exact (Store.Remarked.refl _ _).grows
  | replace node rule text =>
      cases h
      exact Document.replaceToken_grows hw
  | parse parser fuel document reparse =>
      obtain ⟨⟨parser', last, status⟩, hp, rfl⟩ := Option.map_eq_some_iff.mp h
      rcases Parser.parse_remarks hc.closed hw hp with ⟨-, middle, hr, he⟩ | ⟨-, hr⟩
      · have hknown : middle.Known = store.Known := funext fun id => propext hr.known_iff
        rw [← hknown] at he
        exact hr.grows.trans he.grows
      · exact hr.grows

end Edit

-- What a step does to a store, also to its clock.
inductive Act where
  | edit (edit : Edit)
  | commit
  | undo (document : Document) (version : Nat)
  | redo (document : Document) (version : Nat)

namespace Act

-- The store after a step. Versions that cannot be gone to leave it as it is.
def run (store : Store) : Act → Option Store
  | .edit change => change.run store
  | commit => some store.commit
  | undo document version => some ((document.undoTo? store version).getD store)
  | redo document version => some ((document.redoTo? store version).getD store)

-- Whether a step edits and parses only what exists at the version of the store or is
-- not committed yet.
def Allowed (store : Store) : Act → Prop
  | .edit change => change.Within store.Known
  | commit | undo _ _ | redo _ _ => True

variable {act : Act} {store other after : Store}

theorem undoTo?_coherent {document : Document} {version : Nat} (hc : store.Coherent)
    (h : document.undoTo? store version = some after) : after.Coherent := by
  obtain ⟨restored, hr, he⟩ := Document.undoTo?_spec h
  have hstill := he.still
  exact hstill.grows.coherent (hc.restored hr)

theorem run_coherent (hc : store.Coherent) (ha : act.Allowed store) (h : act.run store = some after) :
    after.Coherent := by
  cases act with
  | edit change => exact (Edit.run_grows hc ha h).coherent hc
  | commit =>
      cases h
      exact hc.commit
  | undo document version =>
      cases h
      cases h : document.undoTo? store version with
      | none => exact hc
      | some after => exact undoTo?_coherent hc h
  | redo document version =>
      cases h
      cases h : document.redoTo? store version with
      | none => exact hc
      | some after => exact undoTo?_coherent hc (Document.undoTo?_of_redoTo? h)

theorem allowed_congr (ht : store.Twins other) (ha : act.Allowed store) : act.Allowed other := by
  have hknown : other.Known = store.Known := funext fun id => propext (ht.known_iff id)
  unfold Allowed at ha ⊢
  rwa [hknown]

theorem undoTo?_twins {document : Document} {version : Nat} (ht : store.Twins other) :
    document.undoTo? other version = document.undoTo? store version := by
  rw [Document.undoTo?, Document.undoTo?, ht.restore?]

-- Twins stay such through all steps.
theorem run_twins (ht : store.Twins other) (hc : store.Coherent) (hother : other.Coherent) (ha : act.Allowed store)
    (h : act.run store = some after) : ∃ other', act.run other = some other' ∧ after.Twins other' := by
  cases act with
  | edit change =>
      have hmarked := @Edit.run_marked change store
      rw [← ht.marked, Edit.run_marked, show change.run store = some after from h] at hmarked
      obtain ⟨other', hother', hsame⟩ := Option.map_eq_some_iff.mp hmarked
      exact ⟨other', hother', ht.grows hsame (Edit.run_grows hc ha h)
        (Edit.run_grows hother (@allowed_congr (.edit change) _ _ ht ha) hother')⟩
  | commit =>
      cases h
      refine ⟨_, rfl, ?_⟩
      rw [ht.commit hc hother]
      exact .refl _
  | undo document version =>
      cases h
      refine ⟨_, rfl, ?_⟩
      rw [undoTo?_twins ht]
      exact ht.getD
  | redo document version =>
      cases h
      refine ⟨_, rfl, ?_⟩
      rw [Document.redoTo?, Document.redoTo?, ht.clock.1, undoTo?_twins ht]
      exact ht.getD

end Act

end IncrementalLR
